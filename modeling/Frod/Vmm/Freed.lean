import Frod.Vmm.SpaceRun

/-!
# Frod.Vmm.Freed

When a live directory has a page table that is free.

Unmapping the last page of a shared table leaves the other directory with a free table at once
(`Good.freed`). Nothing else does so, a directory that is made through a mapped window included: the
copy goes to the page that is there, the new frame stays zero (`createAddressSpace_window`), and
loading it faults at the next access (`step_blank`). `Mixed` is `Good` with such directories beside,
and `noFreedTable_iff` is exact.
-/

namespace Frod
namespace Vmm

open Pmm (HasFree FirstFree blkSz)

/-! ## Directories that stay empty -/

/-- No entry of the directory in frame `f` is present. -/
def Blank (s : Vmm) (f : Nat) : Prop := ∀ d, d < 1024 → present (s.phys f d) = false

theorem Blank.not_points {s : Vmm} {f d T : Nat} (h : Blank s f) (hd : d < 1023) : ¬ Points s f d T :=
  fun hp => by
    rw [Points, h d (by omega)] at hp
    cases hp.1

/-- With such a directory loaded the window of the page tables faults. -/
theorem load_blank {s : Vmm} (h : Blank s s.dir) {i : Nat} (hi : i < 1024) :
    s.load (dirVirtual + 4 * i) = .error (.pageFault (dirVirtual + 4 * i)) := by
  have hd : (dirVirtual + 4 * i) / mb4 = 1023 := by unfold dirVirtual mb4; omega
  have hwalk : s.walk (dirVirtual + 4 * i) = none := by
    rw [walk, pde, hd, h 1023 (by decide)]
    rfl
  rw [load, hwalk]

theorem vmmMapPage_blank {s : Vmm} (h : Blank s s.dir) {va : Nat} (hva : va < 0xFFC00000) (pa : Nat)
    (acl : Word) : ∃ e, s.vmmMapPage pa va acl = .error e := by
  have hd := diri_lt hva
  exact ⟨_, by simp only [vmmMapPage, addr2Index_eq, load_blank h (i := va / mb4) (by omega), bind,
    Except.bind]; rfl⟩

theorem step_blank {s : Vmm} (h : Blank s s.dir) {c : Call} (hpre : Pre s c) :
    ∃ e, Vmm.step s c = .error e := by
  cases c with
  | mapPage pa va acl => exact vmmMapPage_blank h hpre.1 pa acl
  | unmapPage va =>
    have hd := diri_lt hpre
    exact ⟨_, by simp only [Vmm.step, vmmUnmapPage, addr2Index_eq,
      load_blank h (i := va / mb4) (by omega), bind, Except.bind]; rfl⟩

theorem createAddressSpace_blank {s : Vmm} (h : Blank s s.dir) (htaken : s.pmm.isTaken s.dir = true)
    (hsz : s.pmm.bitmapSz ≤ 2 ^ 20) (hfree : HasFree s.pmm) {virt : Nat} (hva : virt < 0xFFC00000) :
    ∃ e, s.createAddressSpace virt = .error e := by
  obtain ⟨k, hk, halloc⟩ := Pmm.allocFirst_of_hasFree hfree
  have hblank : Blank (s.withFrame k) (s.withFrame k).dir := fun d hd => by
    have hrow : (s.withFrame k).phys s.dir d = s.phys s.dir d :=
      clear_other _ (hk.ne_of_taken htaken).symm d
    exact (congrArg present hrow).trans (h d hd)
  obtain ⟨e, he⟩ := vmmMapPage_blank hblank hva (k * kb4) x86PageWritable
  refine ⟨e, ?_⟩
  rw [createAddressSpace, vmmGetPhysicalPage_eq hk hsz halloc]
  show (s.withFrame k).vmmCreateAddressSpace (k * kb4) virt = .error e
  rw [vmmCreateAddressSpace, he]
  rfl

/-- Through a mapped window the copy goes to the page that is there, and the new frame stays zero. -/
theorem createAddressSpace_window {s : Vmm} {live : List Nat} {virt x : Nat} (h : Good ⟨s, live⟩)
    (hpre : Spaces.Pre ⟨s, live⟩ (.createAddressSpace virt)) (hw : s.walk virt = some x) :
    ∃ k s', FirstFree s.pmm k ∧ s.createAddressSpace virt = .ok (k * kb4, s') ∧
      Good ⟨s', live⟩ ∧ s'.cr3 = s.cr3 ∧ Blank s' k ∧ s'.pmm.isTaken k = true ∧
      ¬ Spaces.Used ⟨s', live⟩ k ∧ (∀ va, va < 0xFFC00000 → s'.walk va = s.walk va) ∧
      ∀ b, b ≠ x → s.pmm.isTaken b = true → ¬ Spaces.Used ⟨s, live⟩ b →
        s'.pmm.isTaken b = true ∧ ¬ Spaces.Used ⟨s', live⟩ b ∧ s'.phys b = s.phys b := by
  obtain ⟨halign, hva, hwin, hfree, _⟩ := hpre
  obtain ⟨hxt, hxno⟩ := hwin x hw
  obtain ⟨k, hk, _⟩ := Pmm.allocFirst_of_hasFree hfree
  have hg₁ := h.withFrame hk
  have hkx : k ≠ x := hk.ne_of_taken hxt
  obtain ⟨_, hxno₁, _⟩ := kept_withFrame h hk hxt hxno
  have hw₁ : (s.withFrame k).walk virt = some x := (walk_withFrame h hk hva).trans hw
  have heq := createAddressSpace_of_mapped h hk rfl hg₁ halign hva hw₁ hxno₁
  have hframe : ∀ b, b ≠ x →
      (s.withFrame k).overwritten (k * kb4) x b = (s.withFrame k).phys b := by
    intro b hb
    funext j
    rw [overwritten, if_neg fun hc => hb hc.1]
  have hover : ∀ b, Spaces.Used ⟨s.withFrame k, live⟩ b →
      (s.withFrame k).overwritten (k * kb4) x b = (s.withFrame k).phys b :=
    fun b hb => hframe b fun hbx => hxno₁ (hbx ▸ hb)
  have hunused : ∀ b, ¬ Spaces.Used ⟨s.withFrame k, live⟩ b →
      ¬ Spaces.Used ⟨{ s.withFrame k with phys := (s.withFrame k).overwritten (k * kb4) x }, live⟩ b := by
    rintro b hb (hmem | ⟨f, hf, d, hd, hp⟩)
    · exact hb (.inl hmem)
    · simp only [Points, hover f (.inl hf)] at hp
      exact hb (.inr ⟨f, hf, d, hd, hp⟩)
  refine ⟨k, _, hk, heq, hg₁.congr rfl hover fun _ _ hb => hb, rfl, fun d hd => ?_,
    (Pmm.isTaken_set s.pmm k k).mpr (.inl rfl), hunused k (not_used_withFrame h hk), fun va hva' => ?_,
    fun b hbx hb hbno => ?_⟩
  · dsimp only
    rw [hframe k hkx, show (s.withFrame k).phys k d = 0#32 from clear_same s.phys k hd]
    rfl
  · rw [← walk_withFrame h hk hva']
    refine walk_congr_phys (fun b hb => hover b ?_) hva'
    rw [← loaded_self hg₁.dir_mem.2] at hb
    exact used_of_inUse hg₁.dir_mem.1 hb
  · obtain ⟨hb₁, hbno₁, hphys₁⟩ := kept_withFrame h hk hb hbno
    exact ⟨hb₁, hunused b hbno₁, (hframe b hbx).trans hphys₁⟩

/-- The directories `live` are in order, with `c` the one of them that is loaded or was last, and the
other ones, `blank`, have no entries. -/
structure Mixed (t : Spaces) (c : Nat) (live blank : List Nat) : Prop where
  good : Good ⟨t.vmm.loaded c, live⟩
  mem : ∀ f, f ∈ t.live ↔ f ∈ live ∨ f ∈ blank
  empty : ∀ b ∈ blank, Blank t.vmm b ∧ t.vmm.pmm.isTaken b = true ∧
    ¬ Spaces.Used ⟨t.vmm, live⟩ b
  current : t.vmm.cr3 = c * kb4 ∨ ∃ b ∈ blank, t.vmm.cr3 = b * kb4

/-- What is kept of the frames that nothing uses keeps the blank directories. -/
theorem Mixed.blank_keeps {s s' : Vmm} {L live live' blank : List Nat} {c : Nat}
    (h : Mixed ⟨s, L⟩ c live blank) (hkeep : ∀ b ∈ blank, s.pmm.isTaken b = true →
      ¬ Spaces.Used ⟨s, live⟩ b → s'.pmm.isTaken b = true ∧ ¬ Spaces.Used ⟨s', live'⟩ b ∧
        s'.phys b = s.phys b) : ∀ b ∈ blank, Blank s' b ∧ s'.pmm.isTaken b = true ∧
      ¬ Spaces.Used ⟨s', live'⟩ b := by
  intro b hb
  obtain ⟨hblank, htaken, hno⟩ := h.empty b hb
  obtain ⟨htaken', hno', hphys⟩ := hkeep b hb htaken hno
  exact ⟨fun d hd => by rw [hphys]; exact hblank d hd, htaken', hno'⟩

/-- Either the loaded directory is in order, or it is one without entries. -/
theorem Mixed.current_cases {t : Spaces} {c : Nat} {live blank : List Nat} (h : Mixed t c live blank) :
    (t.vmm.loaded c = t.vmm ∧ Good ⟨t.vmm, live⟩ ∧ t.vmm.cr3 = c * kb4) ∨
      (Blank t.vmm t.vmm.dir ∧ t.vmm.pmm.isTaken t.vmm.dir = true) := by
  rcases h.current with hc | ⟨b, hb, hc⟩
  · have hself := loaded_self hc
    have hgood := h.good
    rw [hself] at hgood
    exact .inl ⟨hself, hgood, hc⟩
  · have hdir : t.vmm.dir = b := by rw [Vmm.dir, hc]; exact Nat.mul_div_cancel b (by decide)
    obtain ⟨hblank, htaken, _⟩ := h.empty b hb
    rw [hdir]
    exact .inr ⟨hblank, htaken⟩

theorem Good.mixed {t : Spaces} (h : Good t) : ∃ c, Mixed t c t.live [] := by
  obtain ⟨c, hc, hcr3⟩ := h.current
  refine ⟨c, ?_, fun f => by simp, fun b hb => ?_, .inl hcr3⟩
  · rw [loaded_self hcr3]
    exact h
  · cases hb

theorem keepsShared_mono {s : Vmm} {L live : List Nat} (hsub : ∀ f ∈ live, f ∈ L) {op : SpaceOp}
    (hk : Spaces.KeepsShared ⟨s, L⟩ op) : Spaces.KeepsShared ⟨s, live⟩ op := by
  cases op with
  | call c =>
    cases c with
    | mapPage pa va acl => trivial
    | unmapPage va => exact fun he f hf => hk he f (hsub f hf)
  | createAddressSpace virt => trivial
  | switchPdir pdir => trivial
  | switchKernel => trivial
  | allocFirst => trivial

theorem Mixed.create {s : Vmm} {L live blank : List Nat} {c virt : Nat} {t' : Spaces} {u : Unit}
    (h : Mixed ⟨s, L⟩ c live blank) (hpre : Spaces.Pre ⟨s, L⟩ (.createAddressSpace virt))
    (hs : Spaces.step ⟨s, L⟩ (.createAddressSpace virt) = .ok (u, t')) :
    ∃ c' live' blank', Mixed t' c' live' blank' := by
  obtain ⟨⟨pdir, s'⟩, hs', heq⟩ := Machine.bind_eq_ok.mp hs
  cases heq
  have hlive : ∀ f ∈ live, f ∈ L := fun f hf => (h.mem f).mpr (.inl hf)
  have hused : ∀ x, Spaces.Used ⟨s, live⟩ x → Spaces.Used ⟨s, L⟩ x := by
    rintro x (hx | ⟨f, hf, hp⟩)
    · exact .inl (hlive x hx)
    · exact .inr ⟨f, hlive f hf, hp⟩
  rcases h.current_cases with ⟨hself, hg, hc⟩ | ⟨hblank, htaken⟩
  · have hpre' : Spaces.Pre ⟨s, live⟩ (.createAddressSpace virt) :=
      ⟨hpre.1, hpre.2.1, fun x hx => (hpre.2.2.1 x hx).imp_right fun hno hu => hno (hused x hu),
        hpre.2.2.2⟩
    cases hw : s.walk virt with
    | none =>
      obtain ⟨k, s₁, heq, hg', _, _, hcr3, _, _, _, hkeep⟩ := hg.create hpre' hw
      obtain ⟨rfl, rfl⟩ := Machine.ok_inj heq hs'
      rw [Nat.mul_div_cancel k (show 0 < kb4 by decide)]
      refine ⟨c, k :: live, blank, ?_, fun f => ?_, h.blank_keeps fun b _ => hkeep b,
        .inl (hcr3.trans hc)⟩
      · rw [loaded_self (hcr3.trans hc)]
        exact hg'
      · have hmem : f ∈ L ↔ f ∈ live ∨ f ∈ blank := h.mem f
        simp only [List.mem_cons, hmem, or_assoc]
    | some x =>
      obtain ⟨k, s₁, _, heq, hg', hcr3, hk, hkt, hkno, _, hkeep⟩ :=
        createAddressSpace_window hg hpre' hw
      obtain ⟨rfl, rfl⟩ := Machine.ok_inj heq hs'
      rw [Nat.mul_div_cancel k (show 0 < kb4 by decide)]
      refine ⟨c, live, k :: blank, ?_, fun f => ?_, fun b hb => ?_, .inl (hcr3.trans hc)⟩
      · rw [loaded_self (hcr3.trans hc)]
        exact hg'
      · have hmem : f ∈ L ↔ f ∈ live ∨ f ∈ blank := h.mem f
        simp only [List.mem_cons, hmem]
        exact or_left_comm
      · rcases List.mem_cons.mp hb with rfl | hb
        · exact ⟨hk, hkt, hkno⟩
        · refine h.blank_keeps (fun b hb => hkeep b ?_) b hb
          rintro rfl
          exact (hpre.2.2.1 b hw).2 (.inl ((h.mem b).mpr (.inr hb)))
  · obtain ⟨e, he⟩ := createAddressSpace_blank hblank htaken h.good.inv_current.sz_le hpre.2.2.2.1
      hpre.2.1
    rw [he] at hs'
    cases hs'

theorem Mixed.step {t t' : Spaces} {u : Unit} {c : Nat} {live blank : List Nat}
    (h : Mixed t c live blank) {op : SpaceOp} (hpre : t.Pre op) (hk : t.KeepsShared op)
    (hs : t.step op = .ok (u, t')) : ∃ c' live' blank', Mixed t' c' live' blank' := by
  obtain ⟨s, L⟩ := t
  cases op with
  | call call =>
    obtain ⟨⟨r, s'⟩, hs', heq⟩ := Machine.bind_eq_ok.mp hs
    cases heq
    rcases h.current_cases with ⟨hself, hg, hc⟩ | ⟨hblank, _⟩
    · have hk' := keepsShared_mono (fun f hf => (h.mem f).mpr (.inl hf)) hk
      have hcr3 := (hg.call_other hpre hs').1.trans hc
      refine ⟨c, live, blank, ?_, h.mem, h.blank_keeps fun b _ => hg.call_kept hpre hs', .inl hcr3⟩
      rw [loaded_self hcr3]
      exact hg.call hpre hs' hk'
    · obtain ⟨e, he⟩ := step_blank hblank hpre
      rw [he] at hs'
      cases hs'
  | createAddressSpace virt => exact h.create hpre hs
  | switchPdir pdir =>
    cases hs
    obtain ⟨f, hf, rfl⟩ := hpre
    rcases (h.mem f).mp hf with hf | hf
    · exact ⟨f, live, blank, h.good.reload hf _, h.mem, h.empty, .inl rfl⟩
    · have hc : c ∈ live := by
        have := h.good.dir_mem.1
        rwa [loaded_dir] at this
      exact ⟨c, live, blank, h.good.reload hc _, h.mem, h.empty, .inr ⟨f, hf, rfl⟩⟩
  | switchKernel =>
    cases hs
    obtain ⟨f, hf, hkernel⟩ := h.good.kernel
    exact ⟨f, live, blank, h.good.reload hf _, h.mem, h.empty, .inl hkernel⟩
  | allocFirst =>
    cases hs
    exact ⟨c, live, blank, h.good.allocFirst, h.mem,
      h.blank_keeps fun b _ ht hno => ⟨allocFirst_taken _ ht, hno, rfl⟩, h.current⟩

/-! ## Freed tables -/

/-- No present entry of a live directory, its own included, points to a free frame. -/
def Spaces.NoFreedTable (t : Spaces) : Prop :=
  ∀ f ∈ t.live, ∀ d, d < 1024 → present (t.vmm.phys f d) = true →
    t.vmm.pmm.isTaken (frame (t.vmm.phys f d)) = true

theorem Good.noFreedTable {t : Spaces} (h : Good t) : t.NoFreedTable := by
  intro f hf d hd hp
  have hi := h.inv f hf
  by_cases h1 : d < 1023
  · have := (hi.table d h1 ((hasTable_loaded _ f d).mpr hp)).taken
    rwa [table_loaded] at this
  · obtain rfl : d = 1023 := by omega
    have hself := hi.self.frame
    have htaken := hi.dir_taken
    rw [loaded_dir] at hself htaken
    rw [loaded_phys] at hself
    rw [hself]
    exact htaken

theorem Mixed.noFreedTable {t : Spaces} {c : Nat} {live blank : List Nat} (h : Mixed t c live blank) :
    t.NoFreedTable := by
  intro f hf d hd hp
  rcases (h.mem f).mp hf with hf | hf
  · exact h.good.noFreedTable f hf d hd hp
  · rw [(h.empty f hf).1 d hd] at hp
    cases hp

/-- Unmapping the last page of a shared table frees it under the other directory. -/
theorem Good.freed {s : Vmm} {live L : List Nat} (h : Good ⟨s, live⟩) {va f : Nat}
    (hpre : Pre s (.unmapPage va)) (he : Empties s va) (hf : f ∈ live) (hne : f ≠ s.dir)
    (hp : Points s f (va / mb4) (s.table (va / mb4))) (hL : f ∈ L) :
    ∃ s', Vmm.step s (.unmapPage va) = .ok (vmmSuccess, s') ∧ ¬ Spaces.NoFreedTable ⟨s', L⟩ := by
  have hd := diri_lt hpre
  have hunmap : Vmm.step s (.unmapPage va) =
      .ok (vmmSuccess, s.dropTable (va / mb4) (va / kb4 % 1024)) := by
    rcases vmmUnmapPage_present h.inv_current hpre he.1 with ⟨_, j, hj, hpj⟩ | ⟨heq, _⟩
    · rw [(empties_iff he.1).mp he j hj] at hpj
      cases hpj
    · exact heq
  refine ⟨_, hunmap, fun hno => ?_⟩
  have hrow := (h.call_other hpre hunmap).2 f hf hne
  have htaken := hno f hL (va / mb4) (by omega) (by rw [hrow]; exact hp.1)
  rw [hrow, hp.2, dropTable_taken] at htaken
  exact htaken.1 rfl

theorem Mixed.freed {t : Spaces} {c : Nat} {live blank : List Nat} (h : Mixed t c live blank)
    {op : SpaceOp} (hpre : t.Pre op) (hk : ¬ t.KeepsShared op) :
    ∃ t', t.step op = .ok ((), t') ∧ ¬ t'.NoFreedTable := by
  obtain ⟨s, L⟩ := t
  cases op with
  | call call =>
    cases call with
    | mapPage pa va acl => exact absurd trivial hk
    | unmapPage va =>
      simp only [Spaces.KeepsShared, not_forall, not_not] at hk
      obtain ⟨he, f, hf, hne, hp⟩ := hk
      have hpre' : Pre s (.unmapPage va) := hpre
      have hd := diri_lt hpre'
      rcases h.current_cases with ⟨_, hg, _⟩ | ⟨hblank, _⟩
      · rcases (h.mem f).mp hf with hf' | hf'
        · obtain ⟨s', hs, hno⟩ := hg.freed hpre' he hf' hne hp hf
          refine ⟨⟨s', L⟩, ?_, hno⟩
          simp only [Spaces.step, hs, Machine.ok_bind]
          rfl
        · exact absurd hp ((h.empty f hf').1.not_points hd)
      · -- without entries there is no table to be emptied
        have ht : present (s.phys s.dir (va / mb4)) = true := he.1
        rw [hblank (va / mb4) (by omega)] at ht
        cases ht
  | createAddressSpace virt => exact absurd trivial hk
  | switchPdir pdir => exact absurd trivial hk
  | switchKernel => exact absurd trivial hk
  | allocFirst => exact absurd trivial hk

/-- **When no live directory has a freed table.** In every run from `vmm_init` whose calls meet
`Pre`: all states of the run are free of freed tables exactly if no `vmm_unmap_page` of it unmaps the
last page of a table that another live directory points to. -/
theorem noFreedTable_iff {s : Vmm} (hsz : s.pmm.bitmapSz ≤ 2 ^ 20) (hfree : TwoFree s.pmm)
    {ops : List SpaceOp} (hadm : Machine.Admissible Spaces.Pre Spaces.step (Spaces.start s) ops) :
    Machine.Always Spaces.NoFreedTable Spaces.step (Spaces.start s) ops ↔
      Machine.Admissible Spaces.KeepsShared Spaces.step (Spaces.start s) ops := by
  obtain ⟨c, hstart⟩ := (Good.start hsz hfree).mixed
  refine Machine.always_iff (I := fun t => ∃ c live blank, Mixed t c live blank)
    (fun t ⟨_, _, _, h⟩ => h.noFreedTable) ?_ ?_ ⟨c, _, _, hstart⟩ hadm
  · rintro t op u t' ⟨_, _, _, h⟩ hpre hk hs
    exact h.step hpre hk hs
  · rintro t op ⟨_, _, _, h⟩ hpre hk
    obtain ⟨t', hs, hfreed⟩ := h.freed hpre hk
    exact ⟨_, t', hs, hfreed⟩

/-! ## The heap page of a small machine -/

/-- The second directory points to the heap's table when its last page is unmapped in the first. -/
theorem TwoSpaces.not_keepsShared {t : Spaces} {k : Nat} (h : TwoSpaces t k) :
    ¬ t.KeepsShared (.call (.unmapPage heapStart)) := by
  obtain ⟨s, live⟩ := t
  have hi : Inv s := h.good.inv_current
  have hd : heapStart / mb4 = 128 := by decide
  have hidx : heapStart / kb4 % 1024 = 0 := by decide
  have hpage : s.walk heapStart = some 0x800 := by
    rw [h.walk _ (by decide), if_neg (by decide), if_pos rfl]
  have ht : HasTable s 128 := by
    have := hasTable_of_walk hpage
    rwa [hd] at this
  have hempty : Empties s heapStart := by
    refine ⟨by rw [hd]; exact ht, fun j hj hne hp => ?_⟩
    rw [hidx] at hne
    rw [hd] at hp
    have h1 : (128 * mb4 + j * kb4) / mb4 = 128 := by unfold mb4 kb4; omega
    have h2 : (128 * mb4 + j * kb4) / kb4 % 1024 = j := by unfold mb4 kb4; omega
    have hw := h.walk (128 * mb4 + j * kb4) (by unfold mb4 kb4; omega)
    rw [walk_eq_slot, h1, h2, if_neg, if_neg, initMap_high] at hw
    · exact (slot_eq_none_iff ht j).mp hw hp
    · unfold mb4 kb4; omega
    · unfold heapStart procVmmEnd procVmmStart mb256 mb4 kb4; omega
    · unfold procVmmStart mb256 mb4 kb4; omega
  intro hk
  refine hk hempty k (by rw [h.live]; simp) h.ne ?_
  rw [hd, Points, h.rows 128 (by decide)]
  exact ⟨ht, rfl⟩

/-- The heap page is mapped, a second address space made, and the page unmapped again. -/
def unmapOps : List SpaceOp :=
  [sampleMapOp, .createAddressSpace procVmmStart, .call (.unmapPage heapStart)]

/-- The table is freed, and the second directory keeps it. -/
theorem not_noFreedTable_heapPage :
    Machine.Admissible Spaces.Pre Spaces.step (Spaces.start sampleVmm) unmapOps ∧
      ¬ Machine.Always Spaces.NoFreedTable Spaces.step (Spaces.start sampleVmm) unmapOps := by
  obtain ⟨t₁, t, k, hpre, hs, hpre₁, _, hs₁, ht⟩ := sample_twoSpaces
  have hpre₂ : t.Pre (.call (.unmapPage heapStart)) := show heapStart < 0xFFC00000 by decide
  obtain ⟨c, hmixed⟩ := ht.good.mixed
  obtain ⟨t', hs₂, hfreed⟩ := hmixed.freed hpre₂ ht.not_keepsShared
  constructor
  · exact .cons_of hpre hs (.cons_of hpre₁ hs₁ (.cons_of hpre₂ hs₂ trivial))
  · intro hall
    exact hfreed (((hall.2 _ _ hs).2 _ _ hs₁).2 _ _ hs₂)

/-- Two address spaces, and a switch back to the kernel's. -/
theorem noFreedTable_iff_twoSpaces : ∃ t, Machine.runAll Spaces.step (Spaces.start sampleVmm)
      [sampleMapOp, .createAddressSpace procVmmStart, .switchKernel] = .ok ([(), (), ()], t) ∧
    Machine.Always Spaces.NoFreedTable Spaces.step (Spaces.start sampleVmm)
      [sampleMapOp, .createAddressSpace procVmmStart, .switchKernel] := by
  obtain ⟨t₁, t, k, hpre, hs, hpre₁, _, hs₁, ht⟩ := sample_twoSpaces
  have hs₂ : t.step .switchKernel = .ok ((), { t with vmm := t.vmm.vmmSwitchKernel }) := rfl
  refine ⟨_, Machine.runAll_cons_of hs (Machine.runAll_cons_of hs₁ (Machine.runAll_cons_of hs₂ rfl)), ?_⟩
  refine (noFreedTable_iff (by decide) sampleVmm_twoFree ?_).mpr ?_
  · exact .cons_of hpre hs (.cons_of hpre₁ hs₁ (.cons_of trivial hs₂ trivial))
  · exact .cons_of trivial hs (.cons_of trivial hs₁ (.cons_of trivial hs₂ trivial))

end Vmm
end Frod
