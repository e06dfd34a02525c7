import Frod.Vmm.Spaces

/-!
# Frod.Vmm.SpaceRun

Runs over several address spaces.

A new address space is the loaded directory's entries in a fresh frame (`createAddressSpace_spec`),
so `Good` covers it too. `Good.step` then covers every operation but two: `vmm_create_address_space`
with a window that is mapped, and the unmapping of the last page of a shared table
(`Frod.Vmm.Freed`).
-/

namespace Frod
namespace Vmm

open Pmm (HasFree FirstFree blkSz)

/-! ## `vmm_create_address_space` -/

/-- The machine when the frame `k` has been taken and zeroed. -/
def withFrame (s : Vmm) (k : Nat) : Vmm :=
  { s with pmm := { s.pmm with bitmap := s.pmm.bitmap.set k }, phys := s.phys.clear k }

/-- After a successful `vmm_map_page` the function goes on as if the page had been mapped before. -/
theorem vmmCreateAddressSpace_of_map {s s₂ : Vmm} {a virt f : Nat} {r : Int} (hva : virt < 0xFFC00000)
    (hmap : s.vmmMapPage a virt x86PageWritable = .ok (r, s₂)) (h₂ : Inv s₂)
    (hw : s₂.walk virt = some f) : s.vmmCreateAddressSpace a virt = s₂.vmmCreateAddressSpace a virt := by
  rw [vmmCreateAddressSpace_mapped hw h₂ hva, vmmCreateAddressSpace, hmap]
  rfl

/-- `vmm_map_page` changes no directory entry but that of a table it makes. -/
theorem mapPage_row {s s' : Vmm} {pa va : Nat} {acl : Word} {r : Int} (h : Inv s)
    (hpre : Pre s (.mapPage pa va acl)) (hs : Vmm.step s (.mapPage pa va acl) = .ok (r, s')) {d : Nat}
    (hd : d = va / mb4 → HasTable s d) : s'.phys s.dir d = s.phys s.dir d := by
  obtain rfl | ⟨d', i, e, hd', ht, _, rfl⟩ | ⟨_, _, _, k, hc, ht, hk, rfl⟩ | ⟨_, hc, _⟩ :=
    step_cases h hpre hs
  · rfl
  · exact set_other_frame _ (h.table d' hd' ht).ne_dir.symm _ _ _
  · cases hc
    rw [newTable_dir (h.ne_of_free hk).1, if_neg]
    rintro rfl
    exact ht (hd rfl)
  · cases hc

/-- A copy of the directory in frame `c` points to no frame that was not used. -/
theorem not_used_addDir {s : Vmm} {live : List Nat} {c k b : Nat} (hc : c ∈ live)
    (hrow : ∀ d, d < 1023 → s.phys k d = s.phys c d) (hbk : b ≠ k)
    (hb : ¬ Spaces.Used ⟨s, live⟩ b) : ¬ Spaces.Used ⟨s, k :: live⟩ b := by
  rintro (hmem | ⟨f, hf, d, hd, hp⟩)
  · exact (List.mem_cons.mp hmem).elim hbk fun hmem => hb (.inl hmem)
  · rcases List.mem_cons.mp hf with rfl | hf
    · simp only [Points, hrow d hd] at hp
      exact hb (.inr ⟨c, hc, d, hd, hp⟩)
    · exact hb (.inr ⟨f, hf, d, hd, hp⟩)

section Create

variable {s : Vmm} {live : List Nat} {virt : Nat} (h : Good ⟨s, live⟩)
include h

theorem Good.withFrame {k : Nat} (hk : FirstFree s.pmm k) : Good ⟨s.withFrame k, live⟩ := by
  have hfree := h.not_used_of_free hk
  refine h.congr rfl (fun x hx => ?_) fun x _ hx => (Pmm.isTaken_set s.pmm k x).mpr (.inr hx)
  funext j
  exact clear_other _ (fun heq : x = k => hfree (heq ▸ hx)) j

theorem withFrame_row {k : Nat} (hk : FirstFree s.pmm k) {f : Nat} (hf : f ∈ live) :
    (s.withFrame k).phys f = s.phys f := by
  funext j
  exact clear_other _ (fun heq : f = k => h.not_used_of_free hk (.inl (heq ▸ hf))) j

theorem not_used_withFrame {k : Nat} (hk : FirstFree s.pmm k) :
    ¬ Spaces.Used ⟨s.withFrame k, live⟩ k := by
  rintro (hmem | ⟨f, hf, d, hd, hp⟩)
  · exact h.not_used_of_free hk (.inl hmem)
  · rw [Points, withFrame_row h hk hf] at hp
    exact h.not_used_of_free hk (.inr ⟨f, hf, d, hd, hp⟩)

theorem kept_withFrame {k : Nat} (hk : FirstFree s.pmm k) {b : Nat} (hb : s.pmm.isTaken b = true)
    (hno : ¬ Spaces.Used ⟨s, live⟩ b) : (s.withFrame k).pmm.isTaken b = true ∧
      ¬ Spaces.Used ⟨s.withFrame k, live⟩ b ∧ (s.withFrame k).phys b = s.phys b := by
  refine ⟨(Pmm.isTaken_set s.pmm k b).mpr (.inr hb), ?_, ?_⟩
  · rintro (hmem | ⟨f, hf, d, hd, hp⟩)
    · exact hno (.inl hmem)
    · rw [Points, withFrame_row h hk hf] at hp
      exact hno (.inr ⟨f, hf, d, hd, hp⟩)
  · funext j
    exact clear_other _ (hk.ne_of_taken hb).symm j

theorem walk_withFrame {k : Nat} (hk : FirstFree s.pmm k) (hva : virt < 0xFFC00000) :
    (s.withFrame k).walk virt = s.walk virt := by
  have hfree := h.not_used_of_free hk
  refine walk_congr_phys (m := s.phys.clear k) (fun x hx => ?_) hva
  rw [← loaded_self h.dir_mem.2] at hx
  have hused := used_of_inUse h.dir_mem.1 hx
  funext j
  exact clear_other _ (fun heq : x = k => hfree (heq ▸ hused)) j

/-- When the frame has been taken, the function works on a machine whose window is mapped. -/
theorem createAddressSpace_of_mapped {k f : Nat} {s₁ : Vmm} (hk : FirstFree s.pmm k)
    (hcall : (s.withFrame k).vmmCreateAddressSpace (k * kb4) virt =
      s₁.vmmCreateAddressSpace (k * kb4) virt) (h₁ : Good ⟨s₁, live⟩) (halign : virt % kb4 = 0)
    (hva : virt < 0xFFC00000) (hw : s₁.walk virt = some f) (hno : ¬ Spaces.Used ⟨s₁, live⟩ f) :
    s.createAddressSpace virt = .ok (k * kb4, { s₁ with phys := s₁.overwritten (k * kb4) f }) := by
  have hi₁ := h₁.inv_current
  have hinUse : ¬ InUse s₁ f := fun hc =>
    hno (used_of_inUse h₁.dir_mem.1 (by rwa [loaded_self h₁.dir_mem.2]))
  have hsz := h.inv_current.sz_le
  obtain ⟨k', hk', halloc⟩ := Pmm.allocFirst_of_hasFree ⟨k, hk.pos, hk.lt, hk.clear⟩
  obtain rfl := hk'.unique hk
  rw [createAddressSpace, vmmGetPhysicalPage_eq hk hsz halloc]
  dsimp only
  rw [show ({ s with pmm := { s.pmm with bitmap := s.pmm.bitmap.set k' }, phys := s.phys.clear k' } : Vmm) =
    s.withFrame k' from rfl, hcall]
  by_cases hv : virt = 0
  · subst hv
    exact vmmCreateAddressSpace_null hi₁ hw _
  · refine vmmCreateAddressSpace_offPath hi₁ hva halign hw hv (fun heq => ?_) (fun heq => ?_) _
    · exact hinUse (.inl heq)
    · exact hinUse (.inr ⟨_, diri_lt hva, hasTable_of_walk hw, heq.symm⟩)

/-- The frame that was taken is mapped at `virt`, and then receives the directory's entries. -/
theorem createAddressSpace_spec (hpre : Spaces.Pre ⟨s, live⟩ (.createAddressSpace virt))
    (hun : s.walk virt = none) :
    ∃ k s₂, FirstFree s.pmm k ∧ Good ⟨s.withFrame k, live⟩ ∧
      Pre (s.withFrame k) (.mapPage (k * kb4) virt x86PageWritable) ∧
      Vmm.step (s.withFrame k) (.mapPage (k * kb4) virt x86PageWritable) = .ok (vmmSuccess, s₂) ∧
      Good ⟨s₂, live⟩ ∧ ¬ Spaces.Used ⟨s₂, live⟩ k ∧ s₂.pmm.isTaken k = true ∧
      (∀ va, va < 0xFFC00000 → s₂.walk va = if va / kb4 = virt / kb4 then some k else s.walk va) ∧
      s.createAddressSpace virt = .ok (k * kb4, { s₂ with phys := s₂.overwritten (k * kb4) k }) := by
  obtain ⟨halign, hva, _, hfree, hfree'⟩ := hpre
  obtain ⟨k, hk, halloc⟩ := Pmm.allocFirst_of_hasFree hfree
  have hg₁ := h.withFrame hk
  have hi₁ := hg₁.inv_current
  have hk20 : k < 2 ^ 20 := Nat.lt_of_lt_of_le hk.lt h.inv_current.sz_le
  have hwalk₁ := (walk_withFrame h hk hva).trans hun
  have hpre₁ : Pre (s.withFrame k) (.mapPage (k * kb4) virt x86PageWritable) := by
    refine ⟨hva, Nat.mul_mod_left k kb4, by unfold kb4; omega, aclOk_writable, fun ht => ?_⟩
    have hf := hfree' fun ht' => ht (by
      unfold HasTable
      rw [show (s.withFrame k).dir = s.dir from rfl, withFrame_row h hk h.dir_mem.1]
      exact ht')
    rw [halloc] at hf
    exact hf
  -- the page is mapped to the frame
  let A : PageMap := fun p => (s.withFrame k).slot (p / 1024) (p % 1024)
  have hR : Refines (s.withFrame k) A := hi₁.refines_slots
  have hA : A (virt / kb4) = none := by rw [← hR.walk hva]; exact hwalk₁
  obtain ⟨s₂, hmap, hR₂⟩ := mapPage_refines hR hpre₁
  rw [spec, if_pos hA] at hmap hR₂
  dsimp only at hmap hR₂
  have hwalks : ∀ va, va < 0xFFC00000 →
      s₂.walk va = if va / kb4 = virt / kb4 then some k else s.walk va := by
    intro va hva'
    rw [hR₂.walk hva', Function.update_apply, ← hR.walk hva', walk_withFrame h hk hva',
      Nat.mul_div_cancel k (show 0 < kb4 by decide)]
  have hwalk₂ : s₂.walk virt = some k := by rw [hwalks virt hva, if_pos rfl]
  have hg₂ : Good ⟨s₂, live⟩ := hg₁.call hpre₁ hmap trivial
  -- the frame is taken, and no table
  obtain ⟨htaken, hno, _⟩ := hg₁.call_kept hpre₁ hmap ((Pmm.isTaken_set s.pmm k k).mpr (.inl rfl))
    (not_used_withFrame h hk)
  exact ⟨k, s₂, hk, hg₁, hpre₁, hmap, hg₂, hno, htaken, hwalks, createAddressSpace_of_mapped h hk
    (vmmCreateAddressSpace_of_map hva hmap hR₂.inv hwalk₂) hg₂ halign hva hwalk₂ hno⟩

/-- The new directory is live too, with the entries of the loaded one. -/
theorem Good.create (hpre : Spaces.Pre ⟨s, live⟩ (.createAddressSpace virt))
    (hun : s.walk virt = none) :
    ∃ k s', s.createAddressSpace virt = .ok (k * kb4, s') ∧ Good ⟨s', k :: live⟩ ∧ k ∉ live ∧
      (∀ d, d < 1023 → s'.phys k d = s'.phys s.dir d) ∧ s'.cr3 = s.cr3 ∧
      (∀ f ∈ live, f ≠ s.dir → s'.phys f = s.phys f) ∧
      (∀ d, (d = virt / mb4 → HasTable s d) → s'.phys s.dir d = s.phys s.dir d) ∧
      (∀ va, va < 0xFFC00000 → s'.walk va = if va / kb4 = virt / kb4 then some k else s.walk va) ∧
      ∀ b, s.pmm.isTaken b = true → ¬ Spaces.Used ⟨s, live⟩ b →
        s'.pmm.isTaken b = true ∧ ¬ Spaces.Used ⟨s', k :: live⟩ b ∧ s'.phys b = s.phys b := by
  obtain ⟨k, s₂, hk, hg₁, hpre₁, hmap, hg₂, hno, htaken, hwalks, heq⟩ :=
    createAddressSpace_spec h hpre hun
  obtain ⟨hcr3, hother⟩ := hg₁.call_other hpre₁ hmap
  have hdir₂ : s₂.dir = s.dir := by rw [Vmm.dir, hcr3]; rfl
  have hk20 : k < 2 ^ 20 := Nat.lt_of_lt_of_le hk.lt h.inv_current.sz_le
  have hframe : ∀ x, x ≠ k → s₂.overwritten (k * kb4) k x = s₂.phys x := by
    intro x hx
    funext j
    rw [overwritten, if_neg fun hc => hx hc.1]
  have hover : ∀ x, Spaces.Used ⟨s₂, live⟩ x → s₂.overwritten (k * kb4) k x = s₂.phys x :=
    fun x hx => hframe x fun heq => hno (heq ▸ hx)
  have hrow : ∀ d, d < 1023 →
      s₂.overwritten (k * kb4) k k d = s₂.overwritten (k * kb4) k s₂.dir d := by
    intro d hd
    rw [hover _ (.inl hg₂.dir_mem.1), overwritten, if_pos ⟨rfl, by omega⟩, if_neg (by omega)]
  have hg₃ : Good ⟨{ s₂ with phys := s₂.overwritten (k * kb4) k }, live⟩ :=
    hg₂.congr rfl hover fun _ _ hx => hx
  have hpoints : ∀ f ∈ live, ∀ d T, Points { s₂ with phys := s₂.overwritten (k * kb4) k } f d T →
      Points s₂ f d T := by
    intro f hf d T hp
    simp only [Points, hover f (.inl hf)] at hp
    exact hp
  refine ⟨k, _, heq, hg₃.addDir ?_ hrow htaken ?_, fun hmem => hno (.inl hmem), ?_, hcr3,
    fun f hf hne => ?_, fun d hd => ?_, fun va hva => ?_, fun b hb hbno => ?_⟩
  · have hent := entryFor_acl (a := k * kb4) (Nat.mul_mod_left k kb4) (by unfold kb4; omega)
      aclOk_writable
    rw [Nat.mul_div_cancel k (by decide)] at hent
    simp only [overwritten, if_true, true_and, show 1023 < 1024 by decide]
    exact hent
  · rintro (hmem | ⟨f, hf, d, hd, hp⟩)
    · exact hno (.inl hmem)
    · exact hno (.inr ⟨f, hf, d, hd, hpoints f hf d k hp⟩)
  · rw [← hdir₂]
    exact hrow
  · exact (hover f (.inl hf)).trans ((hother f hf hne).trans (withFrame_row h hk hf))
  · have hrow₁ := withFrame_row h hk h.dir_mem.1
    have hmap' := mapPage_row hg₁.inv_current hpre₁ hmap (d := d) fun heq => by
      rw [HasTable, show (s.withFrame k).dir = s.dir from rfl, hrow₁]
      exact hd heq
    have hdir := hover s.dir (.inl h.dir_mem.1)
    exact (congrFun hdir d).trans (hmap'.trans (congrFun hrow₁ d))
  · rw [← hwalks va hva]
    refine walk_congr_phys (fun x hx => hover x ?_) hva
    rw [← loaded_self hg₂.dir_mem.2] at hx
    exact used_of_inUse hg₂.dir_mem.1 hx
  · -- a frame that was taken for something else is not `k`
    have hbk : b ≠ k := (hk.ne_of_taken hb).symm
    obtain ⟨hb₁, hbno₁, hphys₁⟩ := kept_withFrame h hk hb hbno
    obtain ⟨hb₂, hbno₂, hphys₂⟩ := hg₁.call_kept hpre₁ hmap hb₁ hbno₁
    refine ⟨hb₂, not_used_addDir hg₂.dir_mem.1 hrow hbk ?_, (hframe b hbk).trans (hphys₂.trans hphys₁)⟩
    rintro (hmem | ⟨f, hf, d, hd, hp⟩)
    · exact hbno₂ (.inl hmem)
    · exact hbno₂ (.inr ⟨f, hf, d, hd, hpoints f hf d b hp⟩)

end Create

/-! ## Every operation -/

/-- Another live directory is loaded. -/
theorem Good.reload {s : Vmm} {live : List Nat} (h : Good ⟨s, live⟩) {f : Nat} (hf : f ∈ live)
    (pdir : Nat) : Good ⟨{ s with currentDir := pdir, cr3 := f * kb4 }, live⟩ := by
  refine ⟨⟨f, hf, rfl⟩, h.kernel, fun g hg => ?_, h.apart, h.shared⟩
  have hi := h.inv g hg
  exact ⟨hi.self, hi.sz_le, hi.dir_taken, fun d hd ht =>
    ⟨(hi.table d hd ht).writable, (hi.table d hd ht).ne_dir, (hi.table d hd ht).taken,
      (hi.table d hd ht).nonempty, (hi.table d hd ht).pages⟩, hi.inj⟩

theorem allocFirst_taken (p : Pmm) {x : Nat} (hx : p.isTaken x = true) :
    p.allocFirst.2.isTaken x = true := by
  rcases Pmm.allocFirst_spec p with ⟨k, _, heq⟩ | ⟨_, heq⟩
  · rw [heq]
    exact (Pmm.isTaken_set p k x).mpr (.inr hx)
  · rw [heq]
    exact hx

theorem Good.allocFirst {s : Vmm} {live : List Nat} (h : Good ⟨s, live⟩) :
    Good ⟨{ s with pmm := s.pmm.allocFirst.2 }, live⟩ :=
  h.congr (m := s.phys) (Pmm.allocFirst_bitmapSz _) (fun _ _ => rfl) fun _ _ hx => allocFirst_taken _ hx

theorem Good.step {t : Spaces} (h : Good t) {op : SpaceOp} (hpre : t.Pre op)
    (hwin : t.FreshWindow op) (hk : t.KeepsShared op) : ∃ t', t.step op = .ok ((), t') ∧ Good t' := by
  obtain ⟨s, live⟩ := t
  cases op with
  | call c =>
    obtain ⟨s', hs, _⟩ := step_refines s _ c h.inv_current.refines_slots hpre
    refine ⟨⟨s', live⟩, ?_, h.call hpre hs hk⟩
    simp only [Spaces.step, hs, Machine.ok_bind]
    rfl
  | createAddressSpace virt =>
    obtain ⟨k, s', hs, hg, _⟩ := h.create hpre hwin
    refine ⟨⟨s', k :: live⟩, ?_, hg⟩
    simp only [Spaces.step, hs, Machine.ok_bind, Nat.mul_div_cancel k (show 0 < kb4 by decide)]
    rfl
  | switchPdir pdir =>
    obtain ⟨f, hf, rfl⟩ := hpre
    exact ⟨_, rfl, h.reload hf _⟩
  | switchKernel =>
    obtain ⟨c, hc, hkernel⟩ := h.kernel
    refine ⟨_, rfl, ?_⟩
    have := h.reload hc (c * kb4)
    rw [← hkernel] at this
    exact this
  | allocFirst => exact ⟨_, rfl, h.allocFirst⟩

theorem Good.start {s : Vmm} (hsz : s.pmm.bitmapSz ≤ 2 ^ 20) (hfree : TwoFree s.pmm) :
    Good (Spaces.start s) := by
  obtain ⟨k1, k2, hb⟩ := vmmInit_built hsz hfree
  obtain ⟨k, hk, halloc⟩ := Pmm.allocFirst_of_hasFree hfree.1
  have hi := hb.inv hsz
  have hcr3 : s.vmmInit.cr3 = k * kb4 := by
    have : s.vmmInit.cr3 = s.vmmGetPhysicalPage.1 := rfl
    rw [this, vmmGetPhysicalPage_eq hk hsz halloc]
  have hdir : s.vmmInit.dir = k := by rw [Vmm.dir, hcr3]; exact Nat.mul_div_cancel k (by decide)
  have hself := loaded_self hcr3
  rw [Spaces.start, hdir]
  refine ⟨⟨k, by simp, hcr3⟩, ⟨k, by simp, hcr3⟩, fun f hf => ?_, fun f hf d T hd hp => ?_, ?_⟩
  · rw [List.mem_singleton.mp hf, hself]
    exact hi
  · obtain rfl := List.mem_singleton.mp hf
    rw [List.mem_singleton]
    rintro rfl
    rw [← hdir] at hp
    exact (hi.table d hd hp.1).ne_dir hp.2
  · intro f hf g hg d d' T hd hd' h1 h2
    rw [List.mem_singleton.mp hf, ← hdir] at h1
    rw [List.mem_singleton.mp hg, ← hdir] at h2
    exact hi.inj d d' hd hd' h1.1 h2.1 (h1.2.trans h2.2.symm)

/-! ## Two spaces on a small machine -/

/-- Exactly the blocks below `n` are taken, of 16 MB. -/
structure FreeFrom (p : Pmm) (n : Nat) : Prop where
  sz : p.bitmapSz = 4096
  taken : ∀ b, p.isTaken b = true ↔ b < n

section FreeFrom

variable {p : Pmm} {n : Nat} (h : FreeFrom p n)
include h

theorem FreeFrom.hasFree (hn : 1 ≤ n) (hlt : n < 4096) : HasFree p := by
  refine ⟨n, hn, by rw [h.sz]; exact hlt, ?_⟩
  rw [← Bool.not_eq_true, h.taken]
  exact Nat.lt_irrefl n

theorem FreeFrom.eq_of_firstFree (hn : 1 ≤ n) {k : Nat} (hk : FirstFree p k) : k = n := by
  have hclear := hk.clear
  rw [← Bool.not_eq_true, h.taken] at hclear
  refine Nat.le_antisymm (Nat.le_of_not_lt fun hlt => ?_) (Nat.le_of_not_lt hclear)
  have := (h.taken n).mp (hk.below n hn hlt)
  omega

theorem FreeFrom.set : FreeFrom { p with bitmap := p.bitmap.set n } (n + 1) := by
  refine ⟨h.sz, fun b => ?_⟩
  rw [Pmm.isTaken_set, h.taken]
  omega

end FreeFrom

theorem sampleVmm_freeFrom : FreeFrom sampleVmm.vmmInit.pmm 1024 := by
  obtain ⟨k1, k2, hb⟩ := vmmInit_built (s := sampleVmm) (by decide) sampleVmm_twoFree
  have hnone : ∀ b, sampleVmm.pmm.isTaken b = false := by
    intro b
    simp [sampleVmm, Pmm.isTaken, BitArray.isSet]
  have hk1 : k1 ≤ 1 := by
    refine Nat.le_of_not_lt fun hlt => ?_
    have := hb.first1.below 1 (by decide) hlt
    rw [hnone] at this
    cases this
  have hk2 : k2 ≤ 2 := by
    refine Nat.le_of_not_lt fun hlt => ?_
    rcases hb.first2 2 (by decide) hlt with h2 | h2
    · omega
    · rw [hnone] at h2
      cases h2
  refine ⟨hb.sz, fun b => ?_⟩
  rw [hb.taken, hnone]
  simp only [Bool.false_eq_true, or_false]
  omega

/-- The two spaces, and what the first one maps. -/
structure TwoSpaces (t : Spaces) (k : Nat) : Prop where
  good : Good t
  live : t.live = [k, t.vmm.dir]
  ne : k ≠ t.vmm.dir
  rows : ∀ d, d < 1023 → t.vmm.phys k d = t.vmm.phys t.vmm.dir d
  free : FreeFrom t.vmm.pmm 1027
  walk : ∀ va, va < 0xFFC00000 → t.vmm.walk va =
    if va / kb4 = procVmmStart / kb4 then some k
    else if va / kb4 = heapStart / kb4 then some 0x800 else initMap (va / kb4)

/-- A region none of whose addresses translates has no table. -/
theorem Inv.not_hasTable {s : Vmm} (h : Inv s) {d : Nat} (hd : d < 1023)
    (hall : ∀ va, va / mb4 = d → s.walk va = none) : ¬ HasTable s d := by
  intro ht
  obtain ⟨i, hi, hs⟩ := (h.hasTable_iff hd).mp ht
  have h1 : (d * mb4 + i * kb4) / mb4 = d := by unfold mb4 kb4; omega
  have h2 : (d * mb4 + i * kb4) / kb4 % 1024 = i := by unfold mb4 kb4; omega
  have := hall (d * mb4 + i * kb4) h1
  rw [walk_eq_slot, h1, h2] at this
  exact hs this

theorem initMap_high {p : Nat} (h : 1024 ≤ p) : initMap p = none := if_neg (by omega)

/-- A call that makes a table for a region without one takes the next block. -/
theorem FreeFrom.mapPage {s s' : Vmm} {n pa va : Nat} {acl : Word} {r : Int} (h : FreeFrom s.pmm n)
    (hn : 1 ≤ n) (hi : Inv s) (hpre : Pre s (.mapPage pa va acl)) (ht : ¬ HasTable s (va / mb4))
    (hs : Vmm.step s (.mapPage pa va acl) = .ok (r, s')) : FreeFrom s'.pmm (n + 1) := by
  obtain ⟨k, hk, halloc⟩ := Pmm.allocFirst_of_hasFree (hpre.2.2.2.2 ht)
  have hmap := vmmMapPage_absent hi hpre.1 pa hpre.2.2.2.1 ht hk halloc
  obtain ⟨_, rfl⟩ := Machine.ok_inj hmap hs
  rw [h.eq_of_firstFree hn hk]
  exact h.set

/-- The first heap page, mapped when `vmm_init` has run. -/
def sampleMapOp : SpaceOp := .call (.mapPage 0x800000 heapStart x86PageWritable)

theorem sample_heapPage : ∃ s, Spaces.Pre (Spaces.start sampleVmm) sampleMapOp ∧
    Spaces.step (Spaces.start sampleVmm) sampleMapOp = .ok ((), ⟨s, [s.dir]⟩) ∧
    Good ⟨s, [s.dir]⟩ ∧ FreeFrom s.pmm 1025 ∧
    ∀ va, va < 0xFFC00000 →
      s.walk va = if va / kb4 = heapStart / kb4 then some 0x800 else initMap (va / kb4) := by
  have hg₀ : Good (Spaces.start sampleVmm) := Good.start (by decide) sampleVmm_twoFree
  have hR₀ := vmmInit_refines (s := sampleVmm) (by decide) sampleVmm_twoFree
  have hf₀ := sampleVmm_freeFrom
  rw [Spaces.start] at *
  generalize sampleVmm.vmmInit = s₀ at *
  have hi₀ : Inv s₀ := hg₀.inv_current
  have hno : ¬ HasTable s₀ (heapStart / mb4) := by
    refine hi₀.not_hasTable (by decide) fun va hva => ?_
    unfold heapStart procVmmEnd procVmmStart mb256 mb4 at hva
    rw [hR₀.walk (by omega), initMap_high (by unfold kb4; omega)]
  have hpre : Pre s₀ (.mapPage 0x800000 heapStart x86PageWritable) :=
    ⟨by decide, by decide, by decide, aclOk_writable, fun _ => hf₀.hasFree (by decide) (by decide)⟩
  obtain ⟨s, hs, hR⟩ := mapPage_refines hR₀ hpre
  have hA : initMap (heapStart / kb4) = none := initMap_high (by decide)
  rw [spec, if_pos hA] at hs hR
  dsimp only at hs hR
  have hdir : s.dir = s₀.dir := by rw [Vmm.dir, (hg₀.call_other hpre hs).1, Vmm.dir]
  have hg : Good ⟨s, [s.dir]⟩ := by
    rw [hdir]
    exact hg₀.call hpre hs trivial
  refine ⟨s, hpre, ?_, hg, hf₀.mapPage (by decide) hi₀ hpre hno hs,
    fun va hva => ?_⟩
  · have hs' : Vmm.step s₀ (.mapPage 0x800000 heapStart x86PageWritable) = .ok (vmmSuccess, s) := hs
    simp only [sampleMapOp, Spaces.step, hs', Machine.ok_bind, hdir]
    rfl
  · rw [hR.walk hva, Function.update_apply]
    rfl

theorem sample_twoSpaces : ∃ t₁ t k, Spaces.Pre (Spaces.start sampleVmm) sampleMapOp ∧
    Spaces.step (Spaces.start sampleVmm) sampleMapOp = .ok ((), t₁) ∧
    Spaces.Pre t₁ (.createAddressSpace procVmmStart) ∧
    Spaces.FreshWindow t₁ (.createAddressSpace procVmmStart) ∧
    Spaces.step t₁ (.createAddressSpace procVmmStart) = .ok ((), t) ∧ TwoSpaces t k := by
  obtain ⟨s, hpre, hs, hg, hf, hwalk⟩ := sample_heapPage
  have hi : Inv s := hg.inv_current
  have hun : ∀ va, va / mb4 = procVmmStart / mb4 → s.walk va = none := by
    intro va hva
    unfold procVmmStart mb256 mb4 at hva
    rw [hwalk va (by omega), if_neg, initMap_high (by unfold kb4; omega)]
    unfold heapStart procVmmEnd procVmmStart mb256 kb4
    omega
  obtain ⟨k₀, hk₀, halloc⟩ := Pmm.allocFirst_of_hasFree (hf.hasFree (by decide) (by decide))
  have hk₀ := hf.eq_of_firstFree (by decide) hk₀
  subst hk₀
  have hpre₂ : Spaces.Pre ⟨s, [s.dir]⟩ (.createAddressSpace procVmmStart) := by
    refine ⟨by decide, by decide, fun x hx => ?_, hf.hasFree (by decide) (by decide), fun _ => ?_⟩
    · rw [show (Spaces.mk s [s.dir]).vmm = s from rfl, hun _ rfl] at hx
      cases hx
    dsimp only
    rw [halloc]
    exact hf.set.hasFree (by decide) (by decide)
  obtain ⟨k, s₂, hk, hg₁, hpre₁, hmap, _, _, _, _, heq⟩ := createAddressSpace_spec hg hpre₂ (hun _ rfl)
  obtain ⟨k', s', heq', hg', hnot, hrows, hcr3, _, _, hwalk', _⟩ := hg.create hpre₂ (hun _ rfl)
  have hdir : s'.dir = s.dir := by rw [Vmm.dir, hcr3, Vmm.dir]
  have hfree : FreeFrom s'.pmm 1027 := by
    obtain ⟨_, rfl⟩ := Machine.ok_inj heq heq'
    have hf₁ : FreeFrom (s.withFrame k).pmm 1026 := by
      rw [hf.eq_of_firstFree (by decide) hk]
      exact hf.set
    have hno : ¬ HasTable (s.withFrame k) (procVmmStart / mb4) := by
      refine hg₁.inv_current.not_hasTable (by decide) fun va hva => ?_
      have hlt : va < 0xFFC00000 := by unfold procVmmStart mb256 mb4 at hva; omega
      rw [walk_withFrame hg hk hlt]
      exact hun va hva
    have hf₂ := hf₁.mapPage (by decide) hg₁.inv_current hpre₁ hno hmap
    exact hf₂
  refine ⟨⟨s, [s.dir]⟩, ⟨s', [k', s.dir]⟩, k', hpre, hs, hpre₂, hun _ rfl, ?_, hg', ?_, ?_, ?_, hfree, ?_⟩
  · simp only [Spaces.step, heq', Machine.ok_bind, Nat.mul_div_cancel k' (show 0 < kb4 by decide)]
    rfl
  · rw [hdir]
  · rw [hdir]
    exact fun heq => hnot (by simp [heq])
  · rw [hdir]
    exact hrows
  · intro va hva
    rw [hwalk' va hva, hwalk va hva]

end Vmm
end Frod
