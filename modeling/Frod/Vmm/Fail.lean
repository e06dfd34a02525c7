import Frod.Vmm.AddressSpace

/-!
# Frod.Vmm.Fail

How `vmm_map_page` fails, over every state with a recursive directory entry.

It has two causes to fail: the page is mapped already, or it needs a page table and
`pmm_alloc_first` returns `NULL`. The first one is reported and nothing is changed. The second one is
never looked at: frame 0 becomes the page table, is cleared, and the caller is told of success.
`vmmMapPage_failsCleanly_iff` says exactly when the function does what its callers rely on.
-/

namespace Frod
namespace Vmm

open Pmm (HasFree FirstFree blkSz)

/-- The two reasons to refuse a page: it is mapped, or it needs a table and there is no frame. -/
def Refused (s : Vmm) (va : Nat) : Prop :=
  s.walk va ≠ none ∨ (¬ HasTable s (va / mb4) ∧ s.pmm.allocFirst.1 = 0)

/-- A refused page gives an error and changes nothing, any other page is mapped. -/
def FailsCleanly (s : Vmm) (pa va : Nat) (acl : Word) : Prop :=
  (Refused s va → ∃ err, s.vmmMapPage pa va acl = .ok (err, s) ∧ err ≠ 0) ∧
    (¬ Refused s va → ∃ s', s.vmmMapPage pa va acl = .ok (vmmSuccess, s'))

/-- The table of `va` is there and its page is mapped or may be written, or there is a frame for a
new table, which is not the directory's own. -/
def Served (s : Vmm) (va : Nat) (acl : Word) : Prop :=
  (HasTable s (va / mb4) ∧ (s.walk va ≠ none ∨ writable (s.phys s.dir (va / mb4)) = true)) ∨
    (¬ HasTable s (va / mb4) ∧ s.pmm.allocFirst.1 ≠ 0 ∧
      frame (mapEntry s.pmm.allocFirst.1 acl) ≠ s.dir)

section Fail

variable {s : Vmm} (h : SelfMap s) {va : Nat} (hva : va < 0xFFC00000) (pa : Nat) {acl : Word}
include h hva

theorem load_window (ht : HasTable s (va / mb4)) {i : Nat} (hi : i < 1024) :
    s.load (ptableVirtual (va / mb4) + 4 * i) = .ok (s.phys (s.table (va / mb4)) i) := by
  have hd := diri_lt hva
  have ha : ptableVirtual (va / mb4) % kb4 = 0 := by unfold ptableVirtual kb4; omega
  unfold HasTable at ht
  rw [Vmm.load, Vmm.walk, pde_offset s ha hi, pte_offset s ha hi, pde_window s (by omega),
    pte_window h (by omega), h.present, ht, word_offset ha hi]
  rfl

theorem vmmMapPage_mapped (hw : s.walk va ≠ none) :
    s.vmmMapPage pa va acl = .ok (vmmErrPageInUse, s) := by
  have hd := diri_lt hva
  have hi : va / kb4 % 1024 < 1024 := Nat.mod_lt _ (by omega)
  obtain ⟨f, hf⟩ := Option.ne_none_iff_exists'.mp hw
  have ht := hasTable_of_walk hf
  have hpage : present (s.phys (s.table (va / mb4)) (va / kb4 % 1024)) = true := by
    rw [walk_eq_slot] at hw
    have := mt (slot_eq_none_iff ht (va / kb4 % 1024)).mpr hw
    simpa [HasPage] using this
  have hload := load_window h hva ht hi
  unfold HasTable at ht
  simp only [vmmMapPage, addr2Index_eq, (pageTo_dirVirtual h).load (i := va / mb4) (by omega),
    hload, bind, Except.bind, ht, hpage, if_true, pure, Except.pure]

/-- With its table there, an unmapped page takes one store, which needs a writable table. -/
theorem vmmMapPage_unmapped (ht : HasTable s (va / mb4)) (hw : s.walk va = none) :
    s.vmmMapPage pa va acl =
      (s.store (ptableVirtual (va / mb4) + 4 * (va / kb4 % 1024)) (mapEntry pa acl) >>=
        fun s => .ok (vmmSuccess, s)) := by
  have hd := diri_lt hva
  have hi : va / kb4 % 1024 < 1024 := Nat.mod_lt _ (by omega)
  have hpage : present (s.phys (s.table (va / mb4)) (va / kb4 % 1024)) = false := by
    rw [walk_eq_slot, slot_eq_none_iff ht] at hw
    simpa [HasPage] using hw
  have hload := load_window h hva ht hi
  unfold HasTable at ht
  simp only [vmmMapPage, addr2Index_eq, (pageTo_dirVirtual h).load (i := va / mb4) (by omega),
    hload, bind, Except.bind, ht, hpage, if_true, pure, Except.pure]
  rfl

theorem store_window_of_not_writable
    (hro : writable (s.phys s.dir (va / mb4)) = false) {i : Nat} (hi : i < 1024) (w : Word) :
    ∃ e, s.store (ptableVirtual (va / mb4) + 4 * i) w = .error e := by
  have hd := diri_lt hva
  have ha : ptableVirtual (va / mb4) % kb4 = 0 := by unfold ptableVirtual kb4; omega
  rw [Vmm.store, pde_offset s ha hi, pte_offset s ha hi, pte_window h (by omega), hro,
    Bool.and_false]
  cases s.walk (ptableVirtual (va / mb4) + 4 * i) with
  | none => exact ⟨_, rfl⟩
  | some f => exact ⟨_, rfl⟩

/-- The table branch never reports an error. -/
theorem vmmMapPage_newTable_result (ht : ¬ HasTable s (va / mb4)) {err : Int} {s' : Vmm}
    (hret : s.vmmMapPage pa va acl = .ok (err, s')) : err = vmmSuccess := by
  have hd := diri_lt hva
  unfold HasTable at ht
  simp only [vmmMapPage, addr2Index_eq, (pageTo_dirVirtual h).load (i := va / mb4) (by omega),
    Machine.ok_bind, ht, Bool.false_eq_true, if_false, Machine.bind_eq_ok] at hret
  obtain ⟨s1, _, s2, _, s3, _, hret⟩ := hret
  cases hret
  rfl

/-- A directory entry that names the directory as its table does not survive clearing the table. -/
theorem vmmMapPage_dir_faults (hacl : writable acl = true) (ht : ¬ HasTable s (va / mb4))
    (hdir : frame (mapEntry s.pmm.allocFirst.1 acl) = s.dir) :
    ∃ e, s.vmmMapPage pa va acl = .error e := by
  have hd := diri_lt hva
  have hi : va / kb4 % 1024 < 1024 := Nat.mod_lt _ (by omega)
  have ha : ptableVirtual (va / mb4) % kb4 = 0 := by unfold ptableVirtual kb4; omega
  generalize hnp : s.pmm.allocFirst = np at hdir
  obtain ⟨np, p⟩ := np
  unfold HasTable at ht
  let s1 : Vmm := { s with pmm := p, phys := s.phys.set s.dir (va / mb4) (mapEntry np acl) }
  have hself0 : SelfMap { s with pmm := p } := h
  have hself : SelfMap s1 := hself0.congr (set_other_index _ _ _ (by omega) _)
  have hent : EntryFor (s1.phys s1.dir (va / mb4)) s1.dir := by
    have : s1.phys s1.dir (va / mb4) = mapEntry np acl := set_same ..
    rw [this]
    exact ⟨mapEntry_present np acl, mapEntry_writable np hacl, hdir⟩
  have hkeep : ∀ m : Phys, (∀ f' j, ¬ (f' = s1.dir ∧ j < va / mb4) → m f' j = s1.phys f' j) →
      PageTo { s1 with phys := m } (ptableVirtual (va / mb4)) s1.dir := by
    intro m hm
    have hself' : SelfMap { s1 with phys := m } := hself.congr (hm _ _ (by omega))
    refine pageTo_window hself' (by omega) ?_
    show EntryFor (m s1.dir (va / mb4)) s1.dir
    rw [hm _ _ (by omega)]
    exact hent
  -- the window's walk reads the entry that is being cleared
  have hlost : walk { s1 with phys := s1.clearedTo s1.dir (va / mb4) }
      (ptableVirtual (va / mb4)) = none := by
    have hself' : SelfMap { s1 with phys := s1.clearedTo s1.dir (va / mb4) } :=
      hself.congr (if_neg (by omega))
    have hpte : Vmm.pte { s1 with phys := s1.clearedTo s1.dir (va / mb4) }
        (ptableVirtual (va / mb4)) = 0#32 := by
      rw [pte_window hself' (by omega)]
      exact if_pos ⟨rfl, Nat.zero_le _, by omega⟩
    simp [walk, hpte]
  have hzero : ptableVirtual (va / mb4) ≠ 0 := by unfold ptableVirtual; omega
  have hstore : ({ s with pmm := p } : Vmm).store (dirVirtual + 4 * (va / mb4))
      (BitVec.ofNat 32 np ||| x86PagePresent ||| acl) = .ok s1 :=
    (pageTo_dirVirtual hself0).store (by omega) _
  simp only [vmmMapPage, addr2Index_eq, (pageTo_dirVirtual h).load (i := va / mb4) (by omega),
    Machine.ok_bind, ht, Bool.false_eq_true, if_false, hnp, hstore]
  rcases memset_cuts (by omega) hkeep hlost ha hzero with ⟨e, he⟩ | ⟨s', hs', hcut⟩
  · exact ⟨e, by rw [he]; rfl⟩
  · rw [hs', Machine.ok_bind, store_of_unmapped ha hi hcut]
    exact ⟨_, rfl⟩

/-- A served page is refused or mapped as it should be. -/
theorem failsCleanly_of_served (hacl : writable acl = true) (hs : Served s va acl) :
    FailsCleanly s pa va acl := by
  have hi : va / kb4 % 1024 < 1024 := Nat.mod_lt _ (by omega)
  rcases hs with ⟨ht, hs⟩ | ⟨ht, hnp, hne⟩
  · refine ⟨fun hr => ?_, fun hr => ?_⟩
    · rcases hr with hw | ⟨hno, _⟩
      · exact ⟨_, vmmMapPage_mapped h hva pa hw, by decide⟩
      · exact absurd ht hno
    · have hw : s.walk va = none := by
        by_contra hw
        exact hr (.inl hw)
      have hwr := hs.resolve_left fun hc => hc hw
      have hwin := pageTo_window h (Nat.lt_succ_of_lt (diri_lt hva)) ⟨ht, hwr, rfl⟩
      rw [vmmMapPage_unmapped h hva pa ht hw, hwin.store hi]
      exact ⟨_, rfl⟩
  · have hw : s.walk va = none := by
      rw [walk_eq_slot]
      exact slot_none_of_not_hasTable ht _
    refine ⟨fun hr => ?_, fun _ => ?_⟩
    · rcases hr with hc | ⟨_, hc⟩
      · exact absurd hw hc
      · exact absurd hc hnp
    · exact ⟨_, vmmMapPage_fills h hva pa hacl ht rfl rfl hne⟩

/-- A page that is not served is mapped when it should be refused, or faults. -/
theorem not_failsCleanly (hacl : writable acl = true) (hs : ¬ Served s va acl) :
    ¬ FailsCleanly s pa va acl := by
  have hi : va / kb4 % 1024 < 1024 := Nat.mod_lt _ (by omega)
  rintro ⟨hrefused, hmapped⟩
  by_cases ht : HasTable s (va / mb4)
  · -- the table cannot be written, so the store faults
    have hw : s.walk va = none := by
      by_contra hw
      exact hs (.inl ⟨ht, .inl hw⟩)
    have hro : writable (s.phys s.dir (va / mb4)) = false := by
      rw [← Bool.not_eq_true]
      intro hwr
      exact hs (.inl ⟨ht, .inr hwr⟩)
    obtain ⟨s', hret⟩ := hmapped (by rintro (hc | ⟨hc, _⟩); exacts [hc hw, hc ht])
    obtain ⟨e, he⟩ := store_window_of_not_writable h hva hro hi (mapEntry pa acl)
    rw [vmmMapPage_unmapped h hva pa ht hw, he] at hret
    cases hret
  · have hw : s.walk va = none := by
      rw [walk_eq_slot]
      exact slot_none_of_not_hasTable ht _
    by_cases hnp : s.pmm.allocFirst.1 = 0
    · obtain ⟨err, hret, herr⟩ := hrefused (.inr ⟨ht, hnp⟩)
      exact herr (vmmMapPage_newTable_result h hva pa ht hret)
    · have hdir : frame (mapEntry s.pmm.allocFirst.1 acl) = s.dir := by
        by_contra hne
        exact hs (.inr ⟨ht, hnp, hne⟩)
      obtain ⟨s', hret⟩ := hmapped (by rintro (hc | ⟨_, hc⟩); exacts [hc hw, hnp hc])
      obtain ⟨e, he⟩ := vmmMapPage_dir_faults h hva pa hacl ht hdir
      rw [he] at hret
      cases hret

/-- **When `vmm_map_page` fails cleanly.** In every state with a recursive entry, for every page below
the window and every writable `acl`: exactly when the page's table is there (and the page mapped or
the table writable), or a frame for a new table is found that is not the directory. -/
theorem vmmMapPage_failsCleanly_iff (hacl : writable acl = true) :
    FailsCleanly s pa va acl ↔ Served s va acl := by
  constructor
  · intro hf
    by_contra hs
    exact not_failsCleanly h hva pa hacl hs hf
  · exact failsCleanly_of_served h hva pa hacl

end Fail

/-- Under the invariant of the page tables, and for permission bits only, all that can be missing is
a free frame. -/
theorem Inv.served_iff {s : Vmm} (h : Inv s) {va : Nat} (hva : va < 0xFFC00000) {acl : Word}
    (hacl : AclOk acl) : Served s va acl ↔ HasTable s (va / mb4) ∨ HasFree s.pmm := by
  constructor
  · rintro (⟨ht, _⟩ | ⟨_, hnp, _⟩)
    · exact .inl ht
    · rcases Pmm.allocFirst_spec s.pmm with ⟨k, hk, _⟩ | ⟨_, hnull⟩
      · exact .inr ⟨k, hk.pos, hk.lt, hk.clear⟩
      · rw [hnull] at hnp
        exact absurd rfl hnp
  · intro hs
    by_cases ht : HasTable s (va / mb4)
    · exact .inl ⟨ht, .inr (h.table _ (diri_lt hva) ht).writable⟩
    · obtain ⟨k, hk, halloc⟩ := Pmm.allocFirst_of_hasFree (hs.resolve_left ht)
      have hk20 : k < 2 ^ 20 := Nat.lt_of_lt_of_le hk.lt h.sz_le
      have hpos := hk.pos
      have hk32 : k * blkSz % 2 ^ 32 = k * blkSz := Nat.mod_eq_of_lt (by unfold blkSz; omega)
      have hent := (newTable_entry h hk hacl).frame
      have hne := (h.ne_of_free hk).1
      rw [Served, halloc, hk32, hent]
      refine .inr ⟨ht, ?_, hne⟩
      show k * blkSz ≠ 0
      unfold blkSz
      omega

/-! ## Going on without frames -/

/-- The little that `vmm_map_page` needs of the page tables to return at all: frames or no frames. -/
structure Usable (s : Vmm) : Prop where
  self : SelfMap s
  sz_le : s.pmm.bitmapSz ≤ 2 ^ 20
  dir_taken : s.pmm.isTaken s.dir = true
  dir_ne : s.dir ≠ 0
  writable : ∀ d, d < 1023 → HasTable s d → writable (s.phys s.dir d) = true
  ne_dir : ∀ d, d < 1023 → HasTable s d → s.table d ≠ s.dir

theorem Inv.usable {s : Vmm} (h : Inv s) (hdir : s.dir ≠ 0) : Usable s :=
  ⟨h.self, h.sz_le, h.dir_taken, hdir, fun d hd ht => (h.table d hd ht).writable,
    fun d hd ht => (h.table d hd ht).ne_dir⟩

/-- Taking a frame, if there is one, leaves the directory's frame taken. -/
theorem allocFirst_keeps {p : Pmm} {b : Nat} (hb : p.isTaken b = true) :
    p.allocFirst.2.isTaken b = true := by
  rcases Pmm.allocFirst_spec p with ⟨k, _, halloc⟩ | ⟨_, halloc⟩
  · rw [halloc]
    exact (Pmm.isTaken_set p k b).mpr (.inr hb)
  · rw [halloc]
    exact hb

theorem Usable.allocFirst {s : Vmm} (h : Usable s) : Usable { s with pmm := s.pmm.allocFirst.2 } :=
  ⟨h.self, by rw [Pmm.allocFirst_bitmapSz]; exact h.sz_le, allocFirst_keeps h.dir_taken, h.dir_ne,
    h.writable, h.ne_dir⟩

/-- The frame a new directory entry names is never the directory, even if it is frame 0. -/
theorem Usable.frame_ne_dir {s : Vmm} (h : Usable s) :
    frame (mapEntry s.pmm.allocFirst.1 x86PageWritable) ≠ s.dir := by
  rcases Pmm.allocFirst_spec s.pmm with ⟨k, hk, halloc⟩ | ⟨_, halloc⟩
  · have hk20 : k < 2 ^ 20 := Nat.lt_of_lt_of_le hk.lt h.sz_le
    have hk32 : k * blkSz < 2 ^ 32 := by unfold blkSz; omega
    have hent := entryFor_acl (a := k * blkSz) (by unfold blkSz kb4; omega) hk32 aclOk_writable
    rw [halloc, Nat.mod_eq_of_lt hk32]
    intro he
    have hkd : k = s.dir := by
      rw [← he, mapEntry, hent.frame]
      exact (Nat.mul_div_cancel k (by decide)).symm
    exact hk.ne_of_taken h.dir_taken hkd
  · rw [halloc]
    have hzero : frame (mapEntry 0 x86PageWritable) = 0 := by decide
    exact fun he => h.dir_ne (he.symm.trans hzero)

/-- An entry written into a table that exists. Pages at other indices stay where they are. -/
theorem Usable.set {s : Vmm} (h : Usable s) {d : Nat} (hd : d < 1023) (ht : HasTable s d) (i : Nat)
    (e : Word) : Usable { s with phys := s.phys.set (s.table d) i e } ∧
      ∀ d' i', i' ≠ i → slot { s with phys := s.phys.set (s.table d) i e } d' i' = s.slot d' i' := by
  have hdir : s.phys.set (s.table d) i e s.dir = s.phys s.dir :=
    set_row _ (h.ne_dir d hd ht).symm _ _
  refine ⟨⟨h.self.congr (congrFun hdir 1023), h.sz_le, h.dir_taken, h.dir_ne, ?_, ?_⟩, ?_⟩
  · intro d' hd' ht'
    rw [hasTable_congr hdir] at ht'
    show Vmm.writable (s.phys.set (s.table d) i e s.dir d') = true
    rw [hdir]
    exact h.writable d' hd' ht'
  · intro d' hd' ht'
    rw [hasTable_congr hdir] at ht'
    rw [table_congr hdir]
    exact h.ne_dir d' hd' ht'
  · intro d' i' hi
    simp only [slot, table_congr hdir, dir_phys, hdir, set_other_index _ _ _ hi]

/-- The state after whatever `pmm_alloc_first` returned has become the table of directory entry `d`
and has received `e` at index `i`. -/
def filled (s : Vmm) (d i : Nat) (acl e : Word) : Vmm :=
  { s with
    pmm := s.pmm.allocFirst.2,
    phys := ((s.phys.set s.dir d (mapEntry s.pmm.allocFirst.1 acl)).clear
      (frame (mapEntry s.pmm.allocFirst.1 acl))).set
      (frame (mapEntry s.pmm.allocFirst.1 acl)) i e }

/-- Entries at other indices are the old ones or were cleared. -/
theorem filled_entry (s : Vmm) (d i : Nat) (e : Word) {f' i' : Nat} (hf : f' ≠ s.dir)
    (hi : i' < 1024) (hne : i' ≠ i) :
    (s.filled d i x86PageWritable e).phys f' i' = s.phys f' i' ∨
      (s.filled d i x86PageWritable e).phys f' i' = 0#32 := by
  simp only [filled, set_other_index _ _ _ hne]
  by_cases hc : f' = frame (mapEntry s.pmm.allocFirst.1 x86PageWritable)
  · rw [← hc, clear_same _ _ hi]
    exact .inr rfl
  · rw [clear_other _ hc, set_other_frame _ hf]
    exact .inl rfl

section Filled

variable {s : Vmm} (h : Usable s) (d i : Nat) (e : Word)
include h

theorem filled_dirRow (j : Nat) : (s.filled d i x86PageWritable e).phys s.dir j =
    if j = d then mapEntry s.pmm.allocFirst.1 x86PageWritable else s.phys s.dir j := by
  have hne := h.frame_ne_dir.symm
  simp only [filled, set_other_frame _ hne, clear_other _ hne]
  by_cases hj : j = d
  · rw [hj, set_same, if_pos rfl]
  · rw [set_other_index _ _ _ hj, if_neg hj]

theorem filled_hasTable {d' : Nat} (hne : d' ≠ d) :
    HasTable (s.filled d i x86PageWritable e) d' ↔ HasTable s d' := by
  show present ((s.filled d i x86PageWritable e).phys s.dir d') = true ↔ _
  rw [filled_dirRow h, if_neg hne]
  rfl

theorem filled_table {d' : Nat} (hne : d' ≠ d) :
    (s.filled d i x86PageWritable e).table d' = s.table d' := by
  show frame ((s.filled d i x86PageWritable e).phys s.dir d') = _
  rw [filled_dirRow h, if_neg hne]
  rfl

theorem Usable.filled (hd : d < 1023) : Usable (s.filled d i x86PageWritable e) := by
  have hself : SelfMap (s.filled d i x86PageWritable e) := by
    show EntryFor ((s.filled d i x86PageWritable e).phys s.dir 1023) s.dir
    rw [filled_dirRow h, if_neg (by omega)]
    exact h.self
  refine ⟨hself, h.allocFirst.sz_le, h.allocFirst.dir_taken, h.dir_ne, ?_, ?_⟩
  · intro d' hd' ht'
    show Vmm.writable ((s.filled d i x86PageWritable e).phys s.dir d') = true
    by_cases hdd : d' = d
    · rw [filled_dirRow h, if_pos hdd]
      exact mapEntry_writable _ (by decide)
    · rw [filled_dirRow h, if_neg hdd]
      exact h.writable d' hd' ((filled_hasTable h d i e hdd).mp ht')
  · intro d' hd' ht'
    by_cases hdd : d' = d
    · show frame ((s.filled d i x86PageWritable e).phys s.dir d') ≠ s.dir
      rw [filled_dirRow h, if_pos hdd]
      exact h.frame_ne_dir
    · rw [filled_table h d i e hdd]
      exact h.ne_dir d' hd' ((filled_hasTable h d i e hdd).mp ht')

/-- A new table maps no page at another index, though clearing its frame may unmap some. -/
theorem filled_slot_none {d' i' : Nat} (hd' : d' < 1023) (hi : i' < 1024) (hne : i' ≠ i)
    (hnone : s.slot d' i' = none) : (s.filled d i x86PageWritable e).slot d' i' = none := by
  by_cases hdd : d' = d
  · -- the frame of the new table has just been cleared
    subst hdd
    have htab : (s.filled d' i x86PageWritable e).table d' =
        frame (mapEntry s.pmm.allocFirst.1 x86PageWritable) := by
      show frame ((s.filled d' i x86PageWritable e).phys s.dir d') = _
      rw [filled_dirRow h, if_pos rfl]
    have hzero : (s.filled d' i x86PageWritable e).phys
        (frame (mapEntry s.pmm.allocFirst.1 x86PageWritable)) i' = 0#32 := by
      simp only [filled, set_other_index _ _ _ hne, clear_same _ _ hi]
    simp [slot, htab, hzero]
  · by_cases ht : HasTable s d'
    · rw [slot_eq_none_iff ht] at hnone
      have ht' := (filled_hasTable h d i e hdd).mpr ht
      rw [slot_eq_none_iff ht', HasPage, filled_table h d i e hdd]
      rcases filled_entry s d i e (h.ne_dir d' hd' ht) hi hne with he | he
      · rw [he]
        exact hnone
      · rw [he, present_zero]
        exact Bool.false_ne_true
    · exact slot_none_of_not_hasTable (fun hc => ht ((filled_hasTable h d i e hdd).mp hc)) i'

end Filled

/-- Mapping an unmapped page always succeeds, with frames or without, and maps no page at another
index of any table. -/
theorem Usable.vmmMapPage {s : Vmm} (h : Usable s) {va : Nat} (hva : va < 0xFFC00000)
    (hw : s.walk va = none) (pa : Nat) :
    ∃ v, s.vmmMapPage pa va x86PageWritable = .ok (vmmSuccess, v) ∧ Usable v ∧
      ∀ va', va' < 0xFFC00000 → va' / kb4 % 1024 ≠ va / kb4 % 1024 → s.walk va' = none →
        v.walk va' = none := by
  have hd := diri_lt hva
  have hi : va / kb4 % 1024 < 1024 := Nat.mod_lt _ (by omega)
  by_cases ht : HasTable s (va / mb4)
  · have hwin := pageTo_window h.self (Nat.lt_succ_of_lt hd) ⟨ht, h.writable _ hd ht, rfl⟩
    obtain ⟨hu, hslot⟩ := h.set hd ht (va / kb4 % 1024) (mapEntry pa x86PageWritable)
    refine ⟨_, by rw [vmmMapPage_unmapped h.self hva pa ht hw, hwin.store hi]; rfl, hu, ?_⟩
    intro va' _ hne hnone
    rw [walk_eq_slot] at hnone ⊢
    exact (hslot _ _ hne).trans hnone
  · refine ⟨_, vmmMapPage_fills h.self hva pa (by decide) ht rfl rfl h.frame_ne_dir,
      h.filled _ _ _ hd, ?_⟩
    intro va' hva' hne hnone
    rw [walk_eq_slot] at hnone ⊢
    exact filled_slot_none h _ _ _ (diri_lt hva') (Nat.mod_lt _ (by omega)) hne hnone

/-! ## Samples -/

/-- With 16 MB the first heap page is mapped. -/
theorem vmmMapPage_failsCleanly_heapPage :
    FailsCleanly sampleVmm.vmmInit 0x800000 heapStart x86PageWritable := by
  have hinv := (vmmInit_refines (s := sampleVmm) (by decide) sampleVmm_twoFree).inv
  refine (vmmMapPage_failsCleanly_iff hinv.self (by decide) 0x800000 (by decide)).mpr ?_
  exact (hinv.served_iff (by decide) aclOk_writable).mpr (.inr sampleVmm_hasFree)

/-- The directory is a frame of the allocator, so it is not frame 0. -/
theorem vmmInit_dir_ne_zero {s : Vmm} (hsz : s.pmm.bitmapSz ≤ 2 ^ 20) (hfree : TwoFree s.pmm) :
    s.vmmInit.dir ≠ 0 := by
  obtain ⟨k1, k2, hb⟩ := vmmInit_built hsz hfree
  have := hb.first1.pos
  rw [hb.dir]
  omega

/-- A machine with 4 MB before `vmm_init`, which takes all of it. -/
def smallVmm : Vmm := { sampleVmm with pmm := ⟨fun _ => 0#8, 1024⟩ }

theorem smallVmm_twoFree : TwoFree smallVmm.pmm :=
  ⟨⟨1, by decide, by decide, by decide⟩, ⟨2, by decide, by decide, by decide⟩⟩

theorem smallVmm_full : Inv smallVmm.vmmInit ∧ ¬ HasTable smallVmm.vmmInit (heapStart / mb4) ∧
    ¬ HasFree smallVmm.vmmInit.pmm := by
  obtain ⟨k1, k2, hb⟩ := vmmInit_built (s := smallVmm) (by decide) smallVmm_twoFree
  refine ⟨hb.inv (by decide), fun ht => ?_, ?_⟩
  · exact absurd ((hb.hasTable_iff (by decide)).mp ht) (by decide)
  · rintro ⟨b, _, hlt, hfree⟩
    rw [hb.sz] at hlt
    rw [(hb.taken b).mpr (.inl hlt)] at hfree
    cases hfree

/-- Without a free frame the heap's first page should be refused, and is reported as mapped. -/
theorem vmmMapPage_noFrame : Refused smallVmm.vmmInit heapStart ∧
    (∃ s', smallVmm.vmmInit.vmmMapPage 0x300000 heapStart x86PageWritable =
      .ok (vmmSuccess, s')) ∧
    ¬ FailsCleanly smallVmm.vmmInit 0x300000 heapStart x86PageWritable := by
  obtain ⟨hinv, ht, hfull⟩ := smallVmm_full
  have hnull : smallVmm.vmmInit.pmm.allocFirst = (0, smallVmm.vmmInit.pmm) := by
    rcases Pmm.allocFirst_spec smallVmm.vmmInit.pmm with ⟨k, hk, _⟩ | ⟨_, hnull⟩
    · exact absurd ⟨k, hk.pos, hk.lt, hk.clear⟩ hfull
    · exact hnull
  have hdir := (vmmInit_dir_ne_zero (s := smallVmm) (by decide) smallVmm_twoFree).symm
  have hframe : frame (mapEntry 0 x86PageWritable) = 0 := by decide
  have hret := vmmMapPage_fills hinv.self (by decide) 0x300000 (by decide) ht hnull hframe hdir
  refine ⟨.inr ⟨ht, by rw [hnull]⟩, ⟨_, hret⟩, ?_⟩
  · refine not_failsCleanly hinv.self (by decide) 0x300000 (by decide) fun hs => ?_
    rcases (hinv.served_iff (by decide) aclOk_writable).mp hs with hc | hc
    · exact ht hc
    · exact hfull hc

end Vmm
end Frod
