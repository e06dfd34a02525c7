import Frod.Vmm.Tables

/-!
# Frod.Vmm.Update

What the three memory updates of `vmm_map_page` and `vmm_unmap_page` do to the translation and to
the invariant: rewriting one entry of a table, adding a table, and dropping an empty one.

`slot s d i` is the translation of page `i` of region `d`. Each update changes the slots it is about
and no other, because tables of distinct regions are distinct frames and a free frame is none of
them.
-/

namespace Frod
namespace Vmm

open Pmm (HasFree FirstFree blkSz)

/-- The translation by indices: entry `i` of the table of directory entry `d`. -/
def slot (s : Vmm) (d i : Nat) : Option Nat :=
  if present (s.phys s.dir d) && present (s.phys (s.table d) i) then
    some (frame (s.phys (s.table d) i))
  else none

theorem walk_eq_slot (s : Vmm) (va : Nat) : s.walk va = s.slot (va / mb4) (va / kb4 % 1024) := rfl

/-- All addresses of a page are translated alike. -/
theorem walk_pageStart (s : Vmm) (va : Nat) : s.walk (va / kb4 * kb4) = s.walk va := by
  have hd : va / kb4 * kb4 / mb4 = va / mb4 := by unfold kb4 mb4; omega
  have hi : va / kb4 * kb4 / kb4 = va / kb4 := Nat.mul_div_cancel _ (by decide)
  rw [walk_eq_slot, walk_eq_slot, hd, hi]

theorem slot_none_of_not_hasTable {s : Vmm} {d : Nat} (h : ¬ HasTable s d) (i : Nat) :
    s.slot d i = none := by
  simp only [HasTable, Bool.not_eq_true] at h
  simp [slot, h]

theorem slot_of_hasTable {s : Vmm} {d : Nat} (h : HasTable s d) (i : Nat) :
    s.slot d i = if present (s.phys (s.table d) i) then some (frame (s.phys (s.table d) i)) else none := by
  unfold HasTable at h
  simp only [slot, h, Bool.true_and]

theorem slot_eq_none_iff {s : Vmm} {d : Nat} (h : HasTable s d) (i : Nat) :
    s.slot d i = none ↔ ¬ HasPage s d i := by
  rw [slot_of_hasTable h, HasPage]
  split <;> simp_all

/-- A region has a table exactly when one of its pages is mapped. -/
theorem Inv.hasTable_iff {s : Vmm} (h : Inv s) {d : Nat} (hd : d < 1023) :
    HasTable s d ↔ ∃ i, i < 1024 ∧ s.slot d i ≠ none := by
  constructor
  · intro ht
    obtain ⟨i, hi, hp⟩ := (h.table d hd ht).nonempty
    exact ⟨i, hi, fun hn => (slot_eq_none_iff ht i).mp hn hp⟩
  · rintro ⟨i, _, hs⟩
    by_contra ht
    exact hs (slot_none_of_not_hasTable ht i)

/-! ## One entry of an existing table -/

section SetEntry

variable {s : Vmm} {d : Nat}

/-- A change of one table's frame leaves the other regions alone. -/
theorem slot_congr_table (h : Inv s) (hd : d < 1023) (ht : HasTable s d) {m : Phys}
    (hm : ∀ f, f ≠ s.table d → m f = s.phys f) {d' : Nat} (hd' : d' < 1023) (hne : d' ≠ d) (i : Nat) :
    slot { s with phys := m } d' i = s.slot d' i := by
  have hdir : m s.dir = s.phys s.dir := hm _ (h.table d hd ht).ne_dir.symm
  have htab := table_congr hdir d'
  by_cases ht' : HasTable s d'
  · have hne' : s.table d' ≠ s.table d := fun he => hne (h.inj d' d hd' hd ht' ht he)
    simp only [slot, htab, dir_phys, hdir, hm _ hne']
  · have : ¬ HasTable { s with phys := m } d' := by
      unfold HasTable; simp only [dir_phys, hdir]; exact ht'
    rw [slot_none_of_not_hasTable ht', slot_none_of_not_hasTable this]

/-- Rewriting entries of one table keeps the invariant, as long as it stays non-empty and its
present entries stay writable. -/
theorem Inv.congr_table (h : Inv s) (hd : d < 1023) (ht : HasTable s d) {m : Phys}
    (hm : ∀ f, f ≠ s.table d → m f = s.phys f)
    (hne : ∃ i, i < 1024 ∧ present (m (s.table d) i) = true)
    (hw : ∀ i, i < 1024 → present (m (s.table d) i) = true → writable (m (s.table d) i) = true) :
    Inv { s with phys := m } := by
  have hok := h.table d hd ht
  have hdir : m s.dir = s.phys s.dir := hm _ hok.ne_dir.symm
  have htab := table_congr hdir
  have hhas := hasTable_congr hdir
  refine ⟨h.self.congr (congrFun hdir 1023), h.sz_le, h.dir_taken, ?_, ?_⟩
  · intro d' hd' ht'
    rw [hhas] at ht'
    have hok' := h.table d' hd' ht'
    by_cases hdd : d' = d
    · subst hdd
      refine ⟨by simp only [dir_phys, hdir]; exact hok'.writable, by rw [htab]; exact hok'.ne_dir,
        by rw [htab]; exact hok'.taken, ?_, ?_⟩
      · obtain ⟨i, hi, hp⟩ := hne
        exact ⟨i, hi, by unfold HasPage; rw [htab]; exact hp⟩
      · intro i hi hp
        unfold HasPage at hp
        rw [htab] at hp ⊢
        exact hw i hi hp
    · have hne' : s.table d' ≠ s.table d := fun he => hdd (h.inj d' d hd' hd ht' ht he)
      exact hok'.congr rfl (congrFun hdir d') (hm _ hne') hok'.taken
  · intro d1 d2 hd1 hd2 ht1 ht2 he
    rw [htab, htab] at he
    exact h.inj d1 d2 hd1 hd2 ((hhas d1).mp ht1) ((hhas d2).mp ht2) he

theorem slot_set_same (h : Inv s) (hd : d < 1023) (ht : HasTable s d) (i : Nat) (e : Word) (i' : Nat) :
    slot { s with phys := s.phys.set (s.table d) i e } d i' =
      if i' = i then (if present e then some (frame e) else none) else s.slot d i' := by
  have hdir : ∀ j, s.phys.set (s.table d) i e s.dir j = s.phys s.dir j :=
    fun j => set_other_frame _ (h.table d hd ht).ne_dir.symm _ _ _
  have htab : Vmm.table { s with phys := s.phys.set (s.table d) i e } d = s.table d := by
    show frame (s.phys.set (s.table d) i e s.dir d) = s.table d
    rw [hdir, Vmm.table]
  have ht' : HasTable { s with phys := s.phys.set (s.table d) i e } d := by
    simp only [HasTable, dir_phys, hdir]; exact ht
  rw [slot_of_hasTable ht', slot_of_hasTable ht, htab]
  by_cases hi : i' = i
  · subst hi; simp only [set_same, if_true]
  · simp only [set_other_index _ _ _ hi, if_neg hi]

end SetEntry

/-! ## A new table -/

section NewTable

variable {s : Vmm} {d k : Nat}

theorem newTable_dir (hkd : k ≠ s.dir) (i : Nat) (acl e : Word) (j : Nat) :
    (s.newTable k d i acl e).phys s.dir j =
      if j = d then mapEntry (k * blkSz) acl else s.phys s.dir j := by
  simp only [newTable, set_other_frame _ hkd.symm, clear_other _ hkd.symm]
  by_cases hj : j = d
  · subst hj; rw [set_same, if_pos rfl]
  · rw [set_other_index _ _ _ hj, if_neg hj]

theorem newTable_other {f : Nat} (hk : f ≠ k) (hd : f ≠ s.dir) (i : Nat) (acl e : Word) :
    (s.newTable k d i acl e).phys f = s.phys f := by
  funext j
  simp only [newTable, set_other_frame _ hk, clear_other _ hk, set_other_frame _ hd]

theorem newTable_new (i : Nat) (acl e : Word) {j : Nat} (hj : j < 1024) :
    (s.newTable k d i acl e).phys k j = if j = i then e else 0#32 := by
  simp only [newTable]
  by_cases hji : j = i
  · subst hji; rw [set_same, if_pos rfl]
  · rw [set_other_index _ _ _ hji, clear_same _ _ hj, if_neg hji]

theorem newTable_entry (h : Inv s) (hk : FirstFree s.pmm k) {acl : Word} (hacl : AclOk acl) :
    EntryFor (mapEntry (k * blkSz) acl) k := by
  have hk20 : k < 2 ^ 20 := Nat.lt_of_lt_of_le hk.lt h.sz_le
  have := entryFor_acl (a := k * blkSz) (by unfold blkSz kb4; omega) (by unfold blkSz; omega) hacl
  rwa [show k * blkSz / kb4 = k from Nat.mul_div_cancel k (by decide)] at this

theorem Inv.ne_of_free (h : Inv s) (hk : FirstFree s.pmm k) :
    k ≠ s.dir ∧ ∀ d, d < 1023 → HasTable s d → s.table d ≠ k :=
  ⟨hk.ne_of_taken h.dir_taken, fun d hd ht => (hk.ne_of_taken (h.table d hd ht).taken).symm⟩

section

variable (h : Inv s) (hk : FirstFree s.pmm k) {acl : Word} (hacl : AclOk acl) (i : Nat) (e : Word)
include h hk hacl

theorem newTable_hasTable (d' : Nat) :
    HasTable (s.newTable k d i acl e) d' ↔ d' = d ∨ HasTable s d' := by
  have hkd := (h.ne_of_free hk).1
  show present ((s.newTable k d i acl e).phys s.dir d') = true ↔ _
  rw [newTable_dir hkd]
  by_cases hd : d' = d
  · simp [hd, (newTable_entry h hk hacl).present]
  · simp [hd, HasTable]

theorem newTable_table (d' : Nat) :
    Vmm.table (s.newTable k d i acl e) d' = if d' = d then k else s.table d' := by
  have hkd := (h.ne_of_free hk).1
  show frame ((s.newTable k d i acl e).phys s.dir d') = _
  rw [newTable_dir hkd]
  by_cases hd : d' = d
  · simp [hd, (newTable_entry h hk hacl).frame]
  · simp [hd, Vmm.table]

theorem newTable_slot (ht : ¬ HasTable s d) {d' : Nat} (hd' : d' < 1023) {i' : Nat}
    (hi' : i' < 1024) (he : present e = true) :
    (s.newTable k d i acl e).slot d' i' =
      if d' = d ∧ i' = i then some (frame e) else s.slot d' i' := by
  obtain ⟨hkd, hkt⟩ := h.ne_of_free hk
  by_cases hd : d' = d
  · subst hd
    rw [slot_of_hasTable ((newTable_hasTable h hk hacl i e d').mpr (.inl rfl)),
      newTable_table h hk hacl, if_pos rfl, newTable_new _ _ _ hi', slot_none_of_not_hasTable ht]
    by_cases hii : i' = i
    · simp [hii, he]
    · simp [hii]
  · have hno : ¬ (d' = d ∧ i' = i) := fun hc => hd hc.1
    rw [if_neg hno]
    by_cases ht' : HasTable s d'
    · rw [slot_of_hasTable ((newTable_hasTable h hk hacl i e d').mpr (.inr ht')),
        newTable_table h hk hacl, if_neg hd, newTable_other (hkt d' hd' ht') (h.table d' hd' ht').ne_dir,
        slot_of_hasTable ht']
    · have : ¬ HasTable (s.newTable k d i acl e) d' := by
        rw [newTable_hasTable h hk hacl]; exact fun hc => hc.elim hd ht'
      rw [slot_none_of_not_hasTable this, slot_none_of_not_hasTable ht']

theorem newTable_inv (hi : i < 1024) (hd : d < 1023) (he : present e = true)
    (hw : writable e = true) : Inv (s.newTable k d i acl e) := by
  obtain ⟨hkd, hkt⟩ := h.ne_of_free hk
  have hent := newTable_entry h hk hacl
  have htaken : ∀ b, s.pmm.isTaken b = true → (s.newTable k d i acl e).pmm.isTaken b = true :=
    fun b hb => (Pmm.isTaken_set s.pmm k b).mpr (.inr hb)
  refine ⟨?_, h.sz_le, htaken _ h.dir_taken, ?_, ?_⟩
  · show EntryFor ((s.newTable k d i acl e).phys s.dir 1023) s.dir
    rw [newTable_dir hkd, if_neg (by omega)]
    exact h.self
  · intro d' hd' ht'
    have hphys : ∀ j, (s.newTable k d i acl e).phys (s.newTable k d i acl e).dir j =
        if j = d then mapEntry (k * blkSz) acl else s.phys s.dir j := newTable_dir hkd i acl e
    by_cases hdd : d' = d
    · subst hdd
      have htab : Vmm.table (s.newTable k d' i acl e) d' = k := by
        rw [newTable_table h hk hacl, if_pos rfl]
      refine ⟨by rw [hphys, if_pos rfl]; exact hent.writable, by rw [htab]; exact hkd, ?_, ?_, ?_⟩
      · rw [htab]; exact (Pmm.isTaken_set s.pmm k k).mpr (.inl rfl)
      · exact ⟨i, hi, by unfold HasPage; rw [htab, newTable_new _ _ _ hi, if_pos rfl]; exact he⟩
      · intro j hj hp
        unfold HasPage at hp
        rw [htab, newTable_new _ _ _ hj] at hp ⊢
        by_cases hji : j = i
        · rw [if_pos hji]; exact hw
        · rw [if_neg hji] at hp; simp at hp
    · have ht : HasTable s d' := ((newTable_hasTable h hk hacl i e d').mp ht').resolve_left hdd
      have hok := h.table d' hd' ht
      have hrow : (s.newTable k d i acl e).phys (s.table d') = s.phys (s.table d') :=
        newTable_other (hkt d' hd' ht) hok.ne_dir i acl e
      exact hok.congr rfl (by rw [hphys, if_neg hdd]) hrow (htaken _ hok.taken)
  · intro d1 d2 hd1 hd2 ht1 ht2 heq
    rw [newTable_table h hk hacl, newTable_table h hk hacl] at heq
    rw [newTable_hasTable h hk hacl] at ht1 ht2
    by_cases h1 : d1 = d <;> by_cases h2 : d2 = d
    · rw [h1, h2]
    · rw [if_pos h1, if_neg h2] at heq
      exact absurd heq.symm (hkt d2 hd2 (ht2.resolve_left h2))
    · rw [if_neg h1, if_pos h2] at heq
      exact absurd heq (hkt d1 hd1 (ht1.resolve_left h1))
    · rw [if_neg h1, if_neg h2] at heq
      exact h.inj d1 d2 hd1 hd2 (ht1.resolve_left h1) (ht2.resolve_left h2) heq

end

end NewTable

/-- What mapping an unmapped page takes from the allocator, and the tables there are then. -/
theorem vmmMapPage_takes {s v : Vmm} (h : Inv s) {pa va : Nat} {acl : Word} (hva : va < 0xFFC00000)
    (hacl : AclOk acl) (hun : s.walk va = none) (hfree : ¬ HasTable s (va / mb4) → HasFree s.pmm)
    {r : Int} (hmap : s.vmmMapPage pa va acl = .ok (r, v)) :
    ((HasTable s (va / mb4) ∧ v.pmm = s.pmm) ∨ (¬ HasTable s (va / mb4) ∧
      ∃ g, FirstFree s.pmm g ∧ v.pmm = { s.pmm with bitmap := s.pmm.bitmap.set g })) ∧
    ∀ d, HasTable v d ↔ HasTable s d ∨ d = va / mb4 := by
  have hd := diri_lt hva
  by_cases ht : HasTable s (va / mb4)
  · have hp : ¬ HasPage s (va / mb4) (va / kb4 % 1024) := by
      rw [walk_eq_slot, slot_eq_none_iff ht] at hun
      exact hun
    rw [vmmMapPage_present h hva _ _ ht hp] at hmap
    obtain ⟨_, rfl⟩ := Prod.mk.inj (Except.ok.inj hmap)
    have hrow := set_row s.phys (h.table _ hd ht).ne_dir.symm (va / kb4 % 1024) (mapEntry pa acl)
    refine ⟨.inl ⟨ht, rfl⟩, fun d => (hasTable_congr (s := s) hrow d).trans ⟨.inl, ?_⟩⟩
    rintro (htd | rfl)
    · exact htd
    · exact ht
  · obtain ⟨g, hg, halloc⟩ := Pmm.allocFirst_of_hasFree (hfree ht)
    rw [vmmMapPage_absent h hva _ hacl ht hg halloc] at hmap
    obtain ⟨_, rfl⟩ := Prod.mk.inj (Except.ok.inj hmap)
    refine ⟨.inr ⟨ht, g, hg, rfl⟩, fun d => ?_⟩
    rw [newTable_hasTable h hg hacl, or_comm]

/-! ## Dropping a table -/

theorem dropTable_other {s : Vmm} {d f : Nat} (hf : f ≠ s.dir) (hft : f ≠ s.table d) (i : Nat) :
    (s.dropTable d i).phys f = s.phys f := by
  funext j
  simp only [dropTable, set_other_frame _ hf, unmapEntry_other hft]

theorem dropTable_taken (s : Vmm) (d i b : Nat) :
    (s.dropTable d i).pmm.isTaken b = true ↔ b ≠ s.table d ∧ s.pmm.isTaken b = true := by
  have := Pmm.isTaken_free s.pmm (s.phys s.dir d &&& x86PageFrame).toNat b
  rwa [show (s.phys s.dir d &&& x86PageFrame).toNat / blkSz = s.table d from and_frame_div _] at this

section DropTable

variable {s : Vmm} {d : Nat} (h : Inv s) (hd : d < 1023) (ht : HasTable s d) (i : Nat)
include h hd ht

theorem dropTable_dir (j : Nat) :
    (s.dropTable d i).phys s.dir j = if j = d then 0#32 else s.phys s.dir j := by
  simp only [dropTable]
  by_cases hj : j = d
  · subst hj; rw [set_same, if_pos rfl]
  · rw [set_other_index _ _ _ hj, if_neg hj, unmapEntry_other (h.table d hd ht).ne_dir.symm]

theorem dropTable_hasTable (d' : Nat) :
    HasTable (s.dropTable d i) d' ↔ d' ≠ d ∧ HasTable s d' := by
  show present ((s.dropTable d i).phys s.dir d') = true ↔ _
  rw [dropTable_dir h hd ht]
  by_cases hdd : d' = d
  · simp [hdd]
  · simp [hdd, HasTable]

theorem dropTable_table {d' : Nat} (hne : d' ≠ d) : Vmm.table (s.dropTable d i) d' = s.table d' := by
  show frame ((s.dropTable d i).phys s.dir d') = _
  rw [dropTable_dir h hd ht, if_neg hne, Vmm.table]

theorem dropTable_slot {d' : Nat} (hd' : d' < 1023) (i' : Nat) :
    (s.dropTable d i).slot d' i' = if d' = d then none else s.slot d' i' := by
  by_cases hdd : d' = d
  · rw [if_pos hdd, slot_none_of_not_hasTable]
    rw [dropTable_hasTable h hd ht]
    exact fun hc => hc.1 hdd
  · rw [if_neg hdd]
    by_cases ht' : HasTable s d'
    · have hne : s.table d' ≠ s.table d := fun he => hdd (h.inj d' d hd' hd ht' ht he)
      rw [slot_of_hasTable ((dropTable_hasTable h hd ht i d').mpr ⟨hdd, ht'⟩),
        dropTable_table h hd ht i hdd, dropTable_other (h.table d' hd' ht').ne_dir hne,
        slot_of_hasTable ht']
    · have : ¬ HasTable (s.dropTable d i) d' := by
        rw [dropTable_hasTable h hd ht]; exact fun hc => ht' hc.2
      rw [slot_none_of_not_hasTable this, slot_none_of_not_hasTable ht']

theorem dropTable_inv : Inv (s.dropTable d i) := by
  have hok := h.table d hd ht
  refine ⟨?_, h.sz_le, ?_, ?_, ?_⟩
  · show EntryFor ((s.dropTable d i).phys s.dir 1023) s.dir
    rw [dropTable_dir h hd ht, if_neg (by omega)]
    exact h.self
  · exact (dropTable_taken s d i s.dir).mpr ⟨hok.ne_dir.symm, h.dir_taken⟩
  · intro d' hd' ht'
    obtain ⟨hne, ht'⟩ := (dropTable_hasTable h hd ht i d').mp ht'
    have hok' := h.table d' hd' ht'
    have htt : s.table d' ≠ s.table d := fun he => hne (h.inj d' d hd' hd ht' ht he)
    have hrow : (s.dropTable d i).phys (s.table d') = s.phys (s.table d') :=
      dropTable_other hok'.ne_dir htt i
    have hphys : (s.dropTable d i).phys (s.dropTable d i).dir d' = s.phys s.dir d' := by
      have := dropTable_dir h hd ht i d'
      rwa [if_neg hne] at this
    exact hok'.congr rfl hphys hrow ((dropTable_taken s d i _).mpr ⟨htt, hok'.taken⟩)
  · intro d1 d2 hd1 hd2 ht1 ht2 heq
    obtain ⟨h1, ht1⟩ := (dropTable_hasTable h hd ht i d1).mp ht1
    obtain ⟨h2, ht2⟩ := (dropTable_hasTable h hd ht i d2).mp ht2
    rw [dropTable_table h hd ht i h1, dropTable_table h hd ht i h2] at heq
    exact h.inj d1 d2 hd1 hd2 ht1 ht2 heq

end DropTable

end Vmm
end Frod
