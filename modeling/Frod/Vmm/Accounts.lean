import Frod.Vmm.Reach

/-!
# Frod.Vmm.Accounts

Page-table frames are accounted for, and unmapping undoes mapping.

`Inv` already says that tables are distinct taken frames and that none is empty. `Clean` adds that an
entry that is not present is 0, in the directory and in every table, so that clearing an entry puts
back what was there before it was written. Both are kept by every call; `tables_accounted` states
what this means in every state that `vmm_map_page` and `vmm_unmap_page` reach.
-/

namespace Frod
namespace Vmm

open Pmm (HasFree FirstFree blkSz)

/-- Entries that are not present are 0. -/
structure Clean (s : Vmm) : Prop where
  dir : ∀ d, d < 1023 → ¬ HasTable s d → s.phys s.dir d = 0#32
  page : ∀ d, d < 1023 → HasTable s d → ∀ i, i < 1024 → ¬ HasPage s d i → s.phys (s.table d) i = 0#32

/-! ## Every call keeps entries clean -/

theorem Built.clean {s : Vmm} {p : Pmm} {k1 k2 : Nat} (h : Built s p k1 k2) : Clean s := by
  refine ⟨fun d hd ht => ?_, fun d hd ht i hi hp => ?_⟩
  · rw [h.hasTable_iff hd] at ht
    rw [h.dirEntry hd, if_neg ht]
  · obtain rfl := (h.hasTable_iff hd).mp ht
    unfold HasPage at hp
    rw [h.table_zero, (h.page hi).present] at hp
    exact absurd rfl hp

section Step

variable {s : Vmm} {d : Nat}

theorem Clean.congr_table (hc : Clean s) (h : Inv s) (hd : d < 1023) (ht : HasTable s d) {m : Phys}
    (hm : ∀ f, f ≠ s.table d → m f = s.phys f)
    (hrow : ∀ i, i < 1024 → ¬ present (m (s.table d) i) = true → m (s.table d) i = 0#32) :
    Clean { s with phys := m } := by
  have hdir : m s.dir = s.phys s.dir := hm _ (h.table d hd ht).ne_dir.symm
  have htab := table_congr hdir
  have hhas := hasTable_congr hdir
  refine ⟨fun d' hd' ht' => ?_, fun d' hd' ht' i hi hp => ?_⟩
  · rw [hhas] at ht'
    simp only [dir_phys, hdir]
    exact hc.dir d' hd' ht'
  · rw [hhas] at ht'
    unfold HasPage at hp
    rw [htab] at hp ⊢
    by_cases hdd : d' = d
    · subst hdd
      exact hrow i hi hp
    · have hne : s.table d' ≠ s.table d := fun he => hdd (h.inj d' d hd' hd ht' ht he)
      simp only [hm _ hne] at hp ⊢
      exact hc.page d' hd' ht' i hi hp

theorem Clean.newTable (hc : Clean s) (h : Inv s) {k : Nat} (hk : FirstFree s.pmm k) {acl : Word}
    (hacl : AclOk acl) (i : Nat) {e : Word} (he : present e = true) :
    Clean (s.newTable k d i acl e) := by
  obtain ⟨hkd, hkt⟩ := h.ne_of_free hk
  refine ⟨fun d' hd' ht' => ?_, fun d' hd' ht' j hj hp => ?_⟩
  · rw [newTable_hasTable h hk hacl, not_or] at ht'
    change (s.newTable k d i acl e).phys s.dir d' = 0#32
    rw [newTable_dir hkd, if_neg ht'.1]
    exact hc.dir d' hd' ht'.2
  · unfold HasPage at hp
    rw [newTable_table h hk hacl] at hp ⊢
    by_cases hdd : d' = d
    · rw [if_pos hdd, newTable_new _ _ _ hj] at hp ⊢
      by_cases hji : j = i
      · rw [if_pos hji] at hp
        exact absurd he hp
      · rw [if_neg hji]
    · have ht := ((newTable_hasTable h hk hacl i e d').mp ht').resolve_left hdd
      rw [if_neg hdd, newTable_other (hkt d' hd' ht) (h.table d' hd' ht).ne_dir] at hp ⊢
      exact hc.page d' hd' ht j hj hp

theorem Clean.dropTable (hc : Clean s) (h : Inv s) (hd : d < 1023) (ht : HasTable s d) (i : Nat) :
    Clean (s.dropTable d i) := by
  refine ⟨fun d' hd' ht' => ?_, fun d' hd' ht' j hj hp => ?_⟩
  · rw [dropTable_hasTable h hd ht] at ht'
    change (s.dropTable d i).phys s.dir d' = 0#32
    rw [dropTable_dir h hd ht]
    by_cases hdd : d' = d
    · rw [if_pos hdd]
    · rw [if_neg hdd]
      exact hc.dir d' hd' fun hc => ht' ⟨hdd, hc⟩
  · obtain ⟨hdd, ht'⟩ := (dropTable_hasTable h hd ht i d').mp ht'
    have hne : s.table d' ≠ s.table d := fun he => hdd (h.inj d' d hd' hd ht' ht he)
    unfold HasPage at hp
    rw [dropTable_table h hd ht i hdd, dropTable_other (h.table d' hd' ht').ne_dir hne] at hp ⊢
    exact hc.page d' hd' ht' j hj hp

end Step

theorem step_clean {s s' : Vmm} {c : Call} {r : Int} (h : Inv s) (hc : Clean s) (hpre : Pre s c)
    (hs : step s c = .ok (r, s')) : Clean s' := by
  obtain rfl | ⟨d, i, e, hd, ht, he, rfl⟩ | ⟨pa, va, acl, k, rfl, _, hk, rfl⟩ | ⟨va, rfl, he, rfl⟩ :=
    step_cases h hpre hs
  · exact hc
  · refine hc.congr_table h hd ht (fun f hf => set_row _ hf _ _) fun j hj hpj => ?_
    by_cases hji : j = i
    · subst hji
      rw [set_same] at hpj ⊢
      exact he.resolve_left hpj
    · rw [set_other_index _ _ _ hji] at hpj ⊢
      exact hc.page d hd ht j hj hpj
  · obtain ⟨_, hpa, hpa32, hacl, _⟩ := hpre
    exact hc.newTable h hk hacl _ (entryFor_acl hpa hpa32 hacl).present
  · exact hc.dropTable h (diri_lt hpre) he.1 _

/-! ## Mapping and unmapping -/

/-- The directory, the tables of `s`, the bitmap and the globals are as they were in `s`. -/
structure Restored (s s' : Vmm) : Prop where
  dir : s'.phys s.dir = s.phys s.dir
  table : ∀ d, d < 1023 → HasTable s d → s'.phys (s.table d) = s.phys (s.table d)
  pmm : s'.pmm = s.pmm
  kernelDir : s'.kernelDir = s.kernelDir
  currentDir : s'.currentDir = s.currentDir
  cr3 : s'.cr3 = s.cr3

theorem set_set_zero (m : Phys) (f i : Nat) (e : Word) (hzero : m f i = 0#32) :
    (m.set f i e).set f i 0#32 = m := by
  funext f' i'
  by_cases hf : f' = f
  · subst hf
    by_cases hi : i' = i
    · subst hi
      rw [set_same, hzero]
    · rw [set_other_index _ _ _ hi, set_other_index _ _ _ hi]
  · rw [set_other_frame _ hf, set_other_frame _ hf]

section RoundTrip

variable {s : Vmm} {pa va : Nat} {acl : Word} (h : Inv s) (hc : Clean s)
  (hpre : Pre s (.mapPage pa va acl))
include h hc hpre

/-- In a region that has a table, the table keeps another page, and its entry is 0 again. -/
theorem map_unmap_present (ht : HasTable s (va / mb4))
    (hp : ¬ HasPage s (va / mb4) (va / kb4 % 1024)) :
    ∃ s₁, s.vmmMapPage pa va acl = .ok (vmmSuccess, s₁) ∧ s₁.vmmUnmapPage va = .ok (vmmSuccess, s) := by
  have hva := hpre.1
  have hd := diri_lt hva
  have hi : va / kb4 % 1024 < 1024 := Nat.mod_lt _ (by omega)
  have hok := h.table _ hd ht
  have hent : present (mapEntry pa acl) = true :=
    (entryFor_acl hpre.2.1 hpre.2.2.1 hpre.2.2.2.1).present
  have hmap := vmmMapPage_present h hva pa acl ht hp
  have hinv := step_inv h (c := .mapPage pa va acl) hpre hmap
  let s₁ : Vmm :=
    { s with phys := s.phys.set (s.table (va / mb4)) (va / kb4 % 1024) (mapEntry pa acl) }
  have hdir₁ : s₁.phys s₁.dir = s.phys s.dir :=
    set_row _ hok.ne_dir.symm _ _
  have htab₁ : s₁.table (va / mb4) = s.table (va / mb4) := by
    rw [Vmm.table, hdir₁, Vmm.table]
  have ht₁ : HasTable s₁ (va / mb4) := by
    rw [HasTable, hdir₁]
    exact ht
  have hback : s₁.unmapEntry (va / mb4) (va / kb4 % 1024) = s.phys := by
    have hpres : present (s₁.phys (s.table (va / mb4)) (va / kb4 % 1024)) = true := by
      rw [show s₁.phys (s.table (va / mb4)) (va / kb4 % 1024) = mapEntry pa acl from set_same ..]
      exact hent
    rw [unmapEntry, htab₁, if_pos hpres]
    exact set_set_zero _ _ _ _ (hc.page _ hd ht _ hi hp)
  refine ⟨s₁, hmap, ?_⟩
  rcases vmmUnmapPage_present hinv hva ht₁ with ⟨heq, _⟩ | ⟨_, hall⟩
  · rw [heq, hback]
  · -- the table was not empty before
    obtain ⟨j, hj, hpj⟩ := hok.nonempty
    have hno := hall j hj
    rw [hback, htab₁] at hno
    rw [HasPage, hno] at hpj
    cases hpj

/-- In a region without a table, the table that was created is the one that is given back. -/
theorem map_unmap_absent (ht : ¬ HasTable s (va / mb4)) :
    ∃ s₁ s₂, s.vmmMapPage pa va acl = .ok (vmmSuccess, s₁) ∧ s₁.vmmUnmapPage va = .ok (vmmSuccess, s₂) ∧
      Restored s s₂ := by
  have hva := hpre.1
  have hacl := hpre.2.2.2.1
  have hd := diri_lt hva
  have hi : va / kb4 % 1024 < 1024 := Nat.mod_lt _ (by omega)
  have hent : present (mapEntry pa acl) = true := (entryFor_acl hpre.2.1 hpre.2.2.1 hacl).present
  obtain ⟨k, hk, halloc⟩ := Pmm.allocFirst_of_hasFree (hpre.2.2.2.2 ht)
  obtain ⟨hkd, hkt⟩ := h.ne_of_free hk
  have hmap := vmmMapPage_absent h hva pa hacl ht hk halloc
  have hinv := step_inv h (c := .mapPage pa va acl) hpre hmap
  have ht₁ := (newTable_hasTable h hk hacl (va / kb4 % 1024) (mapEntry pa acl) (va / mb4)).mpr (.inl rfl)
  have htab₁ : (s.newTable k (va / mb4) (va / kb4 % 1024) acl (mapEntry pa acl)).table (va / mb4) = k := by
    rw [newTable_table h hk hacl, if_pos rfl]
  generalize hs₁ : s.newTable k (va / mb4) (va / kb4 % 1024) acl (mapEntry pa acl) = s₁ at *
  -- the page just mapped is the only one of the new table
  have hempty : ∀ j, j < 1024 → s₁.unmapEntry (va / mb4) (va / kb4 % 1024) k j = 0#32 := by
    intro j hj
    have hpres : present (s₁.phys k (va / kb4 % 1024)) = true := by
      rw [← hs₁, newTable_new _ _ _ hi, if_pos rfl]
      exact hent
    rw [unmapEntry, htab₁, if_pos hpres]
    by_cases hji : j = va / kb4 % 1024
    · rw [hji, set_same]
    · rw [set_other_index _ _ _ hji, ← hs₁, newTable_new _ _ _ hj, if_neg hji]
  refine ⟨s₁, s₁.dropTable (va / mb4) (va / kb4 % 1024), hmap, ?_, ?_⟩
  · rcases vmmUnmapPage_present hinv hva ht₁ with ⟨_, j, hj, hpj⟩ | ⟨heq, _⟩
    · rw [htab₁, hempty j hj] at hpj
      cases hpj
    · exact heq
  · have hsdir : s₁.dir = s.dir := by rw [← hs₁]; rfl
    refine ⟨?_, ?_, ?_, by rw [← hs₁]; rfl, by rw [← hs₁]; rfl, by rw [← hs₁]; rfl⟩
    · funext j
      rw [← hsdir, dropTable_dir hinv hd ht₁, hsdir, ← hs₁, newTable_dir hkd]
      by_cases hj : j = va / mb4
      · rw [if_pos hj, hj, hc.dir _ hd ht]
      · rw [if_neg hj, if_neg hj]
    · intro d' hd' ht'
      have hne := (h.table d' hd' ht').ne_dir
      rw [dropTable_other (by rw [hsdir]; exact hne) (by rw [htab₁]; exact hkt d' hd' ht'), ← hs₁,
        newTable_other (hkt d' hd' ht') hne]
    · have hfreed : (s₁.phys s₁.dir (va / mb4) &&& x86PageFrame).toNat / blkSz = k :=
        (and_frame_div _).trans htab₁
      have hpmm : s₁.pmm = { s.pmm with bitmap := s.pmm.bitmap.set k } := by rw [← hs₁]; rfl
      change s₁.pmm.free _ = s.pmm
      rw [Pmm.free, hfreed, hpmm]
      dsimp only
      rw [BitArray.unset_set hk.clear]

/-- Mapping an unmapped page and unmapping it again changes nothing. -/
theorem map_unmap (hun : s.walk va = none) :
    ∃ s₁ s₂, s.vmmMapPage pa va acl = .ok (vmmSuccess, s₁) ∧ s₁.vmmUnmapPage va = .ok (vmmSuccess, s₂) ∧
      Restored s s₂ := by
  by_cases ht : HasTable s (va / mb4)
  · rw [walk_eq_slot, slot_eq_none_iff ht] at hun
    obtain ⟨s₁, hmap, hunmap⟩ := map_unmap_present h hc hpre ht hun
    exact ⟨s₁, s, hmap, hunmap, rfl, fun _ _ _ => rfl, rfl, rfl, rfl, rfl⟩
  · exact map_unmap_absent h hc hpre ht

end RoundTrip

/-! ## Whole runs -/

/-- The frames of the present directory entries, the directory's own through entry 1023 included, are
distinct and taken; an entry below 1023 is present exactly when a page of its table is, and is 0 if
not. -/
structure Accounted (s : Vmm) : Prop where
  distinct : ∀ d d', d < 1024 → d' < 1024 → HasTable s d → HasTable s d' → s.table d = s.table d' → d = d'
  taken : ∀ d, d < 1024 → HasTable s d → s.pmm.isTaken (s.table d) = true
  hasTable_iff : ∀ d, d < 1023 → (HasTable s d ↔ ∃ i, i < 1024 ∧ s.slot d i ≠ none)
  zero : ∀ d, d < 1023 → ¬ HasTable s d → s.phys s.dir d = 0#32

theorem Inv.accounted {s : Vmm} (h : Inv s) (hc : Clean s) : Accounted s := by
  have hself : s.table 1023 = s.dir := h.self.frame
  refine ⟨?_, ?_, fun d hd => h.hasTable_iff hd, hc.dir⟩
  · intro d d' hd hd' ht ht' heq
    by_cases h1 : d < 1023 <;> by_cases h2 : d' < 1023
    · exact h.inj d d' h1 h2 ht ht' heq
    · obtain rfl : d' = 1023 := by omega
      rw [hself] at heq
      exact absurd heq (h.table d h1 ht).ne_dir
    · obtain rfl : d = 1023 := by omega
      rw [hself] at heq
      exact absurd heq.symm (h.table d' h2 ht').ne_dir
    · omega
  · intro d hd ht
    by_cases h1 : d < 1023
    · exact (h.table d h1 ht).taken
    · obtain rfl : d = 1023 := by omega
      rw [hself]
      exact h.dir_taken

/-- In every state that `vmm_map_page` and `vmm_unmap_page` reach from `vmm_init`, the frames of the
page tables are accounted for, and mapping any unmapped page and unmapping it puts everything back. -/
theorem tables_accounted {s0 s : Vmm} (hsz : s0.pmm.bitmapSz ≤ 2 ^ 20) (hfree : TwoFree s0.pmm)
    {calls : List Call} {os : List Int} (hadm : Machine.Admissible Pre step s0.vmmInit calls)
    (hrun : Machine.runAll step s0.vmmInit calls = .ok (os, s)) :
    Accounted s ∧ ∀ (pa va : Nat) (acl : Word), Pre s (.mapPage pa va acl) → s.walk va = none →
      ∃ s₁ s₂, s.vmmMapPage pa va acl = .ok (vmmSuccess, s₁) ∧
        s₁.vmmUnmapPage va = .ok (vmmSuccess, s₂) ∧ Restored s s₂ := by
  obtain ⟨k1, k2, hbuilt⟩ := vmmInit_built hsz hfree
  have hstep : ∀ (s : Vmm) (c : Call) (r : Int) (s' : Vmm), Inv s ∧ Clean s → Pre s c →
      step s c = .ok (r, s') → Inv s' ∧ Clean s' := fun s c r s' hI hpre hs =>
    ⟨step_inv hI.1 hpre hs, step_clean hI.1 hI.2 hpre hs⟩
  obtain ⟨h, hc⟩ := Machine.invariant hstep calls ⟨hbuilt.inv hsz, hbuilt.clean⟩ hadm hrun
  exact ⟨h.accounted hc, fun pa va acl hpre hun => map_unmap h hc hpre hun⟩

/-- With the first heap page mapped, the second one is mapped into its table and taken out again. -/
theorem tables_accounted_heapPage : ∃ s, Machine.runAll step sampleVmm.vmmInit
      [.mapPage 0x800000 heapStart x86PageWritable] = .ok ([vmmSuccess], s) ∧
    s.walk heapStart = some 0x800 ∧ Accounted s ∧
    ∃ s₁ s₂, s.vmmMapPage 0x801000 (heapStart + kb4) x86PageWritable = .ok (vmmSuccess, s₁) ∧
      s₁.vmmUnmapPage (heapStart + kb4) = .ok (vmmSuccess, s₂) ∧ Restored s s₂ := by
  have hR₀ := vmmInit_refines (s := sampleVmm) (by decide) sampleVmm_twoFree
  have hpre₀ : Pre sampleVmm.vmmInit (.mapPage 0x800000 heapStart x86PageWritable) :=
    ⟨by decide, by decide, by decide, aclOk_writable, fun _ => sampleVmm_hasFree⟩
  have hun₀ : initMap (heapStart / kb4) = none := by decide
  obtain ⟨s, hmap, hR⟩ := mapPage_refines hR₀ hpre₀
  rw [spec, if_pos hun₀] at hmap hR
  dsimp only at hmap hR
  have hstep : step sampleVmm.vmmInit (.mapPage 0x800000 heapStart x86PageWritable) =
      .ok (vmmSuccess, s) := hmap
  have hrun : Machine.runAll step sampleVmm.vmmInit [.mapPage 0x800000 heapStart x86PageWritable] =
      .ok ([vmmSuccess], s) := Machine.runAll_cons_of hstep rfl
  have hadm : Machine.Admissible Pre step sampleVmm.vmmInit
      [.mapPage 0x800000 heapStart x86PageWritable] := .cons_of hpre₀ hstep trivial
  obtain ⟨hacc, hround⟩ := tables_accounted (by decide) sampleVmm_twoFree hadm hrun
  have hpage : s.walk heapStart = some 0x800 := by
    rw [hR.walk (by decide), Function.update_self]
    rfl
  have hun : s.walk (heapStart + kb4) = none := by
    rw [hR.walk (by decide), Function.update_of_ne (by decide)]
    decide
  -- the page is in the same table
  have ht : HasTable s (heapStart / mb4) := by
    by_contra hno
    rw [walk_eq_slot, slot_none_of_not_hasTable hno] at hpage
    cases hpage
  exact ⟨s, hrun, hpage, hacc, hround _ _ _
    ⟨by decide, by decide, by decide, aclOk_writable, fun hno => absurd ht hno⟩ hun⟩

end Vmm
end Frod
