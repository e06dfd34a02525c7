import Mathlib.Data.List.Range
import Frod.Smp.Model

/-!
# Frod.Smp.Rsdp

How `apic_init` looks for the ACPI root pointer.

`find_rsdp` searches two areas, and `apic_init` calls it again with a higher skip count as long as
the checksum of what it returns is wrong. `findRsdp_eq`: the calls go through the list of
`candidates`. For the EBDA the source cuts the address to a `uint8_t` and the signature to a
`uint16_t`, so the candidates of that area are not root pointers of the EBDA, and one of them at
address 0 is taken for a null pointer. `finds_iff` says which memory images make up for that.
-/

namespace Frod
namespace Smp

open Bytes

/-- `BIOS_DATA_ADDR`, `MAIN_BIOS_START`, `MAIN_BIOS_END`, `RSDP_SIGNATURE`,
`sizeof(rsdp_descriptor)`. -/
def biosDataAddr : Nat := 0x400
def mainBiosStart : Nat := 0x400 * 0x380
def mainBiosEnd : Nat := 0x100000 - 1
def rsdpSignature : Nat := 0x2052545020445352
def rsdpDescriptorSz : Nat := 24

/-- `bda[7] << 4`. -/
def ebdaAddr (m : Mem) : Nat := rd m (biosDataAddr + 14) 2 <<< 4

/-- The loop of `checksum_8` at index `i`, with `n` bytes left. -/
def checksumLoop (m : Mem) (data : Nat) : Nat → Nat → Byte → Byte
  | 0, _, ret => ret
  | n + 1, i, ret => checksumLoop m data n (i + 1) (ret + m ((data + i) % 2 ^ 32))

/-- `checksum_8`. -/
def checksum8 (m : Mem) (data len : Nat) : Byte := checksumLoop m data len 0 0

/-- The two loops of `find_rsdp`, at index `i` with `n` left: the address the loop returns, if it
does, and `found`. -/
def rsdpLoop (m : Mem) (start sig ignore : Nat) : Nat → Nat → Nat → Option Nat × Nat
  | 0, _, found => (none, found)
  | n + 1, i, found =>
    if rd m (start + i) 8 = sig then
      if found = ignore then (some ((start + i) % 2 ^ 32), found)
      else rsdpLoop m start sig ignore n (i + 1) (found + 1)
    else rsdpLoop m start sig ignore n (i + 1) found

/-- `find_rsdp`. The variable `ebda` is a `uint8_t`, and the first loop compares eight bytes with
`(uint16_t)RSDP_SIGNATURE`. -/
def findRsdp (m : Mem) (ignore : Nat) : Nat :=
  let ebda := ebdaAddr m % 2 ^ 8
  match rsdpLoop m ebda (rsdpSignature % 2 ^ 16) ignore 1024 0 0 with
  | (some a, _) => a
  | (none, found) =>
    match rsdpLoop m mainBiosStart rsdpSignature ignore (mainBiosEnd - mainBiosStart) 0 found with
    | (some a, _) => a
    | (none, _) => 0

/-- The loop of `apic_init`: the address it leaves the loop with, or none. -/
def apicInitLoop (m : Mem) : Nat → Nat → Except Stop (Option Nat)
  | 0, _ => .error .diverges
  | fuel + 1, tries =>
    let trsdp := findRsdp m tries
    if trsdp = 0 then .ok none
    else if checksum8 m trsdp 20 ≠ 0 then apicInitLoop m fuel (tries + 1)
    else .ok (some trsdp)

/-- The bytes that `memcpy` puts into `rsdp`. -/
def copyRsdp (m : Mem) (trsdp : Nat) : List Byte :=
  (List.range rsdpDescriptorSz).map fun k => m ((trsdp + k) % 2 ^ 32)

/-- `apic_init`: what it returns, and `rsdp` after it. -/
def apicInit (fuel : Nat) (m : Mem) (rsdp : List Byte) : Except Stop (Bool × List Byte) :=
  match apicInitLoop m fuel 0 with
  | .error e => .error e
  | .ok none => .ok (false, rsdp)
  | .ok (some trsdp) => .ok (true, copyRsdp m trsdp)

/-! ## Where the root pointer is to be found -/

/-- A root pointer starts at `a`. -/
def isRsdp (m : Mem) (a : Nat) : Bool := rd m a 8 = rsdpSignature ∧ checksum8 m a 20 = 0

/-- The first 1 KB of the EBDA, and the main BIOS area. -/
def ebdaArea (m : Mem) : List Nat := List.range' (ebdaAddr m) 1024
def mainArea : List Nat := List.range' mainBiosStart (mainBiosEnd - mainBiosStart)

/-- `apic_init` returns, it says whether one of the areas has a root pointer, and if so `rsdp` is a
copy of the first one. -/
def Finds (m : Mem) (rsdp : List Byte) : Prop :=
  ∃ fuel found rsdp', apicInit fuel m rsdp = .ok (found, rsdp') ∧
    (found = true ↔ ∃ a ∈ ebdaArea m ++ mainArea, isRsdp m a = true) ∧
    ∀ a, (ebdaArea m ++ mainArea).find? (isRsdp m) = some a → rsdp' = copyRsdp m a

/-! ## What the search goes through -/

/-- The addresses the first loop of `find_rsdp` looks at. -/
def window (m : Mem) : List Nat := List.range' (ebdaAddr m % 2 ^ 8) 1024

/-- The eight bytes at `a` are `sig`. -/
def sigAt (m : Mem) (sig a : Nat) : Bool := rd m a 8 = sig

/-- The checksum over the first 20 bytes at `a` is right. -/
def sumAt (m : Mem) (a : Nat) : Bool := checksum8 m a 20 = 0

theorem sigAt_iff {m : Mem} {sig a : Nat} : sigAt m sig a = true ↔ rd m a 8 = sig := decide_eq_true_iff
theorem sumAt_iff {m : Mem} {a : Nat} : sumAt m a = true ↔ checksum8 m a 20 = 0 := decide_eq_true_iff
theorem isRsdp_iff {m : Mem} {a : Nat} :
    isRsdp m a = true ↔ rd m a 8 = rsdpSignature ∧ checksum8 m a 20 = 0 := decide_eq_true_iff

/-- What `find_rsdp` takes for root pointers in the two areas. -/
def cutCandidates (m : Mem) : List Nat := (window m).filter (sigAt m (rsdpSignature % 2 ^ 16))
def mainCandidates (m : Mem) : List Nat := mainArea.filter (sigAt m rsdpSignature)
def candidates (m : Mem) : List Nat := cutCandidates m ++ mainCandidates m

/-- A loop of `find_rsdp` returns the candidate at index `ignore`, less those found before. -/
theorem rsdpLoop_eq (m : Mem) (start sig ignore : Nat) : ∀ (n i found : Nat), start + i + n ≤ 2 ^ 32 →
    found ≤ ignore → rsdpLoop m start sig ignore n i found =
      (((List.range' (start + i) n).filter (sigAt m sig))[ignore - found]?,
        min ignore (found + ((List.range' (start + i) n).filter (sigAt m sig)).length)) := by
  intro n
  induction n with
  | zero =>
    intro i found _ hle
    rw [rsdpLoop, List.range'_zero, List.filter_nil, List.getElem?_nil, List.length_nil, Nat.add_zero,
      Nat.min_eq_right hle]
  | succ n ih =>
    intro i found hbound hle
    rw [rsdpLoop, List.range'_succ]
    split
    · rename_i hsig
      have hpos : sigAt m sig (start + i) = true := sigAt_iff.mpr hsig
      rw [List.filter_cons_of_pos hpos]
      split
      · rename_i heq
        rw [heq, Nat.sub_self, List.getElem?_cons_zero, Nat.mod_eq_of_lt (by omega),
          Nat.min_eq_left (Nat.le_add_right _ _)]
      · rename_i hne
        rw [ih (i + 1) (found + 1) (by omega) (by omega), ← Nat.add_assoc, List.length_cons,
          show ignore - found = (ignore - (found + 1)) + 1 by omega, List.getElem?_cons_succ,
          Nat.add_right_comm found 1, Nat.add_assoc found]
    · rename_i hsig
      have hneg : ¬ sigAt m sig (start + i) = true := fun h => hsig (sigAt_iff.mp h)
      rw [List.filter_cons_of_neg hneg, ih (i + 1) found (by omega) hle, ← Nat.add_assoc]

/-- The call with the skip count `k` returns the candidate number `k`, or null behind the last. -/
theorem findRsdp_eq (m : Mem) (k : Nat) : findRsdp m k = ((candidates m)[k]?).getD 0 := by
  have hcut := rsdpLoop_eq m (ebdaAddr m % 2 ^ 8) (rsdpSignature % 2 ^ 16) k 1024 0 0 (by omega)
    (Nat.zero_le k)
  rw [Nat.add_zero, Nat.sub_zero, Nat.zero_add, ← window, ← cutCandidates] at hcut
  rw [findRsdp, hcut, candidates]
  generalize cutCandidates m = cut
  by_cases hlt : k < cut.length
  · rw [List.getElem?_append_left hlt, List.getElem?_eq_getElem hlt]
    rfl
  · have hge : cut.length ≤ k := by omega
    have hmain := rsdpLoop_eq m mainBiosStart rsdpSignature k (mainBiosEnd - mainBiosStart) 0 cut.length
      (by decide) hge
    rw [Nat.add_zero, ← mainArea, ← mainCandidates] at hmain
    rw [List.getElem?_append_right hge, List.getElem?_eq_none hge, Nat.min_eq_right hge]
    dsimp only
    rw [hmain]
    generalize (mainCandidates m)[k - cut.length]? = c
    cases c with
    | none => rfl
    | some a => rfl

/-- What the loop of `apic_init` finds in a list of candidates: address 0 ends it. -/
def firstGood (m : Mem) : List Nat → Option Nat
  | [] => none
  | a :: as => if a = 0 then none else if checksum8 m a 20 ≠ 0 then firstGood m as else some a

theorem apicInitLoop_eq (m : Mem) : ∀ {cs : List Nat} {k fuel : Nat}, (candidates m).drop k = cs →
    (cs.length < fuel → apicInitLoop m fuel k = .ok (firstGood m cs)) ∧
      ∀ r, apicInitLoop m fuel k = .ok r → r = firstGood m cs := by
  intro cs
  induction cs with
  | nil =>
    intro k fuel hdrop
    have hzero : findRsdp m k = 0 := by
      rw [findRsdp_eq, ← List.head?_drop, hdrop]
      rfl
    cases fuel with
    | zero => exact ⟨fun h => absurd h (Nat.not_lt_zero _), nofun⟩
    | succ fuel =>
      have hloop : apicInitLoop m (fuel + 1) k = .ok none := by
        rw [apicInitLoop]
        exact if_pos hzero
      rw [hloop]
      exact ⟨fun _ => rfl, fun r hr => (Except.ok.inj hr).symm⟩
  | cons a cs ih =>
    intro k fuel hdrop
    have ha : findRsdp m k = a := by
      rw [findRsdp_eq, ← List.head?_drop, hdrop]
      rfl
    have hnext : (candidates m).drop (k + 1) = cs := by
      rw [← List.tail_drop, hdrop]
      rfl
    cases fuel with
    | zero => exact ⟨fun h => absurd h (Nat.not_lt_zero _), nofun⟩
    | succ fuel =>
      rw [apicInitLoop, firstGood, ha]
      split
      · exact ⟨fun _ => rfl, fun r hr => (Except.ok.inj hr).symm⟩
      · split
        · obtain ⟨hok, hall⟩ := @ih (k + 1) fuel hnext
          exact ⟨fun hlt => hok (Nat.lt_of_succ_lt_succ hlt), hall⟩
        · exact ⟨fun _ => rfl, fun r hr => (Except.ok.inj hr).symm⟩

/-- `apic_init` always returns, with what it finds among the candidates. -/
theorem apicInit_eq (m : Mem) (rsdp : List Byte) {r : Option Nat} (hr : firstGood m (candidates m) = r)
    {P : Bool → List Byte → Prop} :
    (∃ fuel found rsdp', apicInit fuel m rsdp = .ok (found, rsdp') ∧ P found rsdp') ↔
      P r.isSome ((r.map (copyRsdp m)).getD rsdp) := by
  have hdrop : (candidates m).drop 0 = candidates m := List.drop_zero
  constructor
  · rintro ⟨fuel, found, rsdp', hok, hP⟩
    have hall : ∀ r', apicInitLoop m fuel 0 = .ok r' → r' = r := by
      rw [← hr]
      exact (apicInitLoop_eq m hdrop).2
    rw [apicInit] at hok
    split at hok
    · cases hok
    · rename_i hloop
      rw [← hall _ hloop]
      cases hok
      exact hP
    · rename_i a hloop
      rw [← hall _ hloop]
      cases hok
      exact hP
  · intro hP
    have hloop := (apicInitLoop_eq m hdrop).1 (Nat.lt_succ_self _)
    rw [hr] at hloop
    refine ⟨(candidates m).length.succ, _, _, ?_, hP⟩
    rw [apicInit, hloop]
    cases r with
    | none => rfl
    | some a => rfl

/-! ## When the root pointer is found -/

theorem firstGood_eq_find {m : Mem} : ∀ {cs : List Nat}, 0 ∉ cs →
    firstGood m cs = cs.find? (sumAt m) := by
  intro cs
  induction cs with
  | nil => intro _; rfl
  | cons a cs ih =>
    intro h
    have ha : a ≠ 0 := fun ha => h (ha ▸ List.mem_cons_self)
    rw [firstGood, if_neg ha, List.find?_cons]
    by_cases hsum : checksum8 m a 20 = 0
    · rw [if_neg (not_not.mpr hsum), sumAt_iff.mpr hsum]
    · rw [if_pos hsum, Bool.eq_false_iff.mpr fun h => hsum (sumAt_iff.mp h)]
      exact ih fun hmem => h (List.mem_cons_of_mem _ hmem)

/-- The first loop finds a candidate at address 0. -/
def ZeroCandidate (m : Mem) : Prop := 0 ∈ window m ∧ rd m 0 8 = rsdpSignature % 2 ^ 16

theorem firstGood_of_zero {m : Mem} (h : ZeroCandidate m) : firstGood m (candidates m) = none := by
  have hstart : ebdaAddr m % 2 ^ 8 = 0 := by
    obtain ⟨i, _, hi⟩ := List.mem_range'.mp h.1
    omega
  have hpos : sigAt m (rsdpSignature % 2 ^ 16) 0 = true := sigAt_iff.mpr h.2
  rw [candidates, cutCandidates, window, hstart, List.range'_succ, List.filter_cons_of_pos hpos,
    List.cons_append, firstGood, if_pos rfl]

theorem zero_notMem_candidates {m : Mem} (h : ¬ ZeroCandidate m) : 0 ∉ candidates m := by
  intro hmem
  rcases List.mem_append.mp hmem with hmem | hmem
  · obtain ⟨hwin, hsig⟩ := List.mem_filter.mp hmem
    exact h ⟨hwin, sigAt_iff.mp hsig⟩
  · obtain ⟨i, _, hi⟩ := List.mem_range'.mp (List.mem_filter.mp hmem).1
    have hstart : mainBiosStart = 0xE0000 := by decide
    omega

theorem find_filter_sigAt (m : Mem) (as : List Nat) :
    (as.filter (sigAt m rsdpSignature)).find? (sumAt m) = as.find? (isRsdp m) := by
  have hboth : ∀ a, decide (sigAt m rsdpSignature a = true ∧ sumAt m a = true) = isRsdp m a := by
    intro a
    rw [isRsdp, decide_eq_decide, sigAt_iff, sumAt_iff]
  rw [List.find?_filter, funext hboth]

theorem signature_of_copy {m : Mem} {a b : Nat} (h : copyRsdp m a = copyRsdp m b) :
    rd m a 8 = rd m b 8 := by
  refine rd_eq_of_bytes fun k hk => ?_
  refine List.map_inj_left.mp h k (List.mem_range.mpr ?_)
  unfold rsdpDescriptorSz
  omega

theorem firstGood_candidates {m : Mem} (h : ¬ ZeroCandidate m) : firstGood m (candidates m) =
    ((cutCandidates m).find? (sumAt m)).or (mainArea.find? (isRsdp m)) := by
  rw [firstGood_eq_find (zero_notMem_candidates h), candidates, List.find?_append, mainCandidates,
    find_filter_sigAt]

/-- A candidate of the first loop is no copy of a root pointer. -/
theorem copyRsdp_cut_ne {m : Mem} {a b : Nat} (ha : a ∈ cutCandidates m) (hb : isRsdp m b = true) :
    copyRsdp m a ≠ copyRsdp m b := by
  intro hcopy
  have hcut : rd m a 8 = rsdpSignature % 2 ^ 16 := sigAt_iff.mp (List.mem_filter.mp ha).2
  have hsig : rd m b 8 = rsdpSignature := (isRsdp_iff.mp hb).1
  have h := signature_of_copy hcopy
  rw [hcut, hsig] at h
  exact absurd h (by decide)

theorem finds_of_none {m : Mem} {rsdp : List Byte} (h : firstGood m (candidates m) = none) :
    Finds m rsdp ↔ ∀ a ∈ ebdaArea m ++ mainArea, isRsdp m a = false := by
  rw [Finds, apicInit_eq m rsdp h]
  constructor
  · rintro ⟨hnone, _⟩ a ha
    rw [Bool.eq_false_iff]
    exact fun hrsdp => Bool.false_ne_true (hnone.mpr ⟨a, ha, hrsdp⟩)
  · intro hall
    refine ⟨⟨nofun, ?_⟩, fun a ha => ?_⟩
    · rintro ⟨a, ha, hrsdp⟩
      rw [hall a ha] at hrsdp
      cases hrsdp
    · have hrsdp := List.find?_some ha
      rw [hall a (List.mem_of_find?_eq_some ha)] at hrsdp
      cases hrsdp

theorem find_cut_eq_none {m : Mem} : (cutCandidates m).find? (sumAt m) = none ↔
    ∀ a ∈ window m, rd m a 8 = rsdpSignature % 2 ^ 16 → checksum8 m a 20 ≠ 0 := by
  rw [List.find?_eq_none]
  constructor
  · intro h a ha hsig hsum
    exact h a (List.mem_filter.mpr ⟨ha, sigAt_iff.mpr hsig⟩) (sumAt_iff.mpr hsum)
  · intro h a ha hsum
    obtain ⟨hwin, hsig⟩ := List.mem_filter.mp ha
    exact h a hwin (sigAt_iff.mp hsig) (sumAt_iff.mp hsum)

/-- A candidate of the first loop is returned, but it is no copy of a root pointer. -/
theorem not_finds_of_cut {m : Mem} {rsdp : List Byte} {c : Nat} (hzero : ¬ ZeroCandidate m)
    (hcut : (cutCandidates m).find? (sumAt m) = some c) : ¬ Finds m rsdp := by
  have hgood := firstGood_candidates hzero
  rw [hcut, Option.some_or] at hgood
  rw [Finds, apicInit_eq m rsdp hgood]
  rintro ⟨hfound, hcopy⟩
  obtain ⟨a, ha⟩ := Option.isSome_iff_exists.mp (List.find?_isSome.mpr (hfound.mp rfl))
  exact absurd (hcopy a ha) (copyRsdp_cut_ne (List.mem_of_find?_eq_some hcut) (List.find?_some ha))

/-- Without such a candidate the search finds what is in the main BIOS area. -/
theorem finds_of_main {m : Mem} {rsdp : List Byte} (hzero : ¬ ZeroCandidate m)
    (hcut : (cutCandidates m).find? (sumAt m) = none) :
    Finds m rsdp ↔ ∀ a, (ebdaArea m).find? (isRsdp m) = some a →
      ∃ b, mainArea.find? (isRsdp m) = some b ∧ copyRsdp m b = copyRsdp m a := by
  have hgood := firstGood_candidates hzero
  rw [hcut, Option.none_or] at hgood
  have hex : (∃ a ∈ ebdaArea m ++ mainArea, isRsdp m a = true) ↔
      (((ebdaArea m).find? (isRsdp m)).or (mainArea.find? (isRsdp m))).isSome = true := by
    rw [← List.find?_append, List.find?_isSome]
  rw [Finds, apicInit_eq m rsdp hgood, List.find?_append, hex]
  constructor
  · rintro ⟨hfound, hcopy⟩ a ha
    rw [ha, Option.some_or] at hfound hcopy
    obtain ⟨b, hb⟩ := Option.isSome_iff_exists.mp (hfound.mpr rfl)
    refine ⟨b, hb, ?_⟩
    rw [hb] at hcopy
    exact hcopy a rfl
  · intro hebda
    cases he : (ebdaArea m).find? (isRsdp m) with
    | none =>
      rw [Option.none_or]
      refine ⟨Iff.rfl, fun a ha => ?_⟩
      rw [ha]
      rfl
    | some a =>
      obtain ⟨b, hb, hsame⟩ := hebda a he
      rw [hb, Option.some_or]
      refine ⟨⟨fun _ => rfl, fun _ => rfl⟩, fun a' ha' => ?_⟩
      cases ha'
      exact hsame

/-- The search finds the root pointer exactly when a candidate at address 0 ends it and there is no
root pointer, or no candidate of the first loop has the checksum 0 and a root pointer of the EBDA
has a copy in the main BIOS area. -/
theorem finds_iff (m : Mem) (rsdp : List Byte) : Finds m rsdp ↔
    (ZeroCandidate m ∧ ∀ a ∈ ebdaArea m ++ mainArea, isRsdp m a = false) ∨
    (¬ ZeroCandidate m ∧
      (∀ a ∈ window m, rd m a 8 = rsdpSignature % 2 ^ 16 → checksum8 m a 20 ≠ 0) ∧
      ∀ a, (ebdaArea m).find? (isRsdp m) = some a →
        ∃ b, mainArea.find? (isRsdp m) = some b ∧ copyRsdp m b = copyRsdp m a) := by
  by_cases hzero : ZeroCandidate m
  · rw [finds_of_none (firstGood_of_zero hzero)]
    exact ⟨fun h => .inl ⟨hzero, h⟩, fun h => h.elim And.right fun h => absurd hzero h.1⟩
  · rw [← find_cut_eq_none]
    cases hcut : (cutCandidates m).find? (sumAt m) with
    | some c =>
      refine ⟨fun h => absurd h (not_finds_of_cut hzero hcut), ?_⟩
      rintro (⟨hz, _⟩ | ⟨_, hnone, _⟩)
      · exact absurd hz hzero
      · cases hnone
    | none =>
      rw [finds_of_main hzero hcut]
      exact ⟨fun h => .inr ⟨hzero, rfl, h⟩, fun h => h.elim (fun h => absurd h.1 hzero) fun h => h.2.2⟩

/-! ## A root pointer in the EBDA -/

/-- A signature with the byte that makes its checksum 0. -/
def signatureBytes : List Byte := [0x52, 0x53, 0x44, 0x20, 0x50, 0x54, 0x52, 0x20, 0xE1]

/-- The EBDA is at 0x9FC00, and a root pointer at its start. -/
def ebdaImage : Mem := fun x =>
  if x = 0x40E then 0xC0 else if x = 0x40F then 0x9F
  else if 0x9FC00 ≤ x then signatureBytes.getD (x - 0x9FC00) 0
  else 0

/-- Memory is clear where `find_rsdp` looks. -/
theorem ebdaImage_candidates : candidates ebdaImage = [] := by
  have hclear : ∀ a sig, (a < 0x400 ∨ 0xE0000 ≤ a ∧ a < 0x100000) → sig ≠ 0 →
      ¬ sigAt ebdaImage sig a = true := by
    intro a sig ha hsig h
    have hzero : rd ebdaImage a 8 = rd (fun _ => 0) 0 8 := by
      refine rd_eq_of_bytes fun k hk => ?_
      rw [Nat.mod_eq_of_lt (by omega), ebdaImage, if_neg (by omega), if_neg (by omega)]
      split
      · have hlen : signatureBytes.length ≤ a + k - 0x9FC00 := by
          rw [show signatureBytes.length = 9 from rfl]
          omega
        rw [List.getD_eq_getElem?_getD, List.getElem?_eq_none hlen]
        rfl
      · rfl
    rw [sigAt_iff, hzero] at h
    exact hsig h.symm
  have hebda : ebdaAddr ebdaImage % 2 ^ 8 = 0 := by decide
  rw [candidates, List.append_eq_nil_iff]
  refine ⟨List.filter_eq_nil_iff.mpr fun a ha => ?_, List.filter_eq_nil_iff.mpr fun a ha => ?_⟩
  · rw [window, hebda] at ha
    obtain ⟨i, hi, rfl⟩ := List.mem_range'.mp ha
    exact hclear _ _ (.inl (by omega)) (by decide)
  · obtain ⟨i, hi, rfl⟩ := List.mem_range'.mp ha
    have hstart : mainBiosStart = 0xE0000 := by decide
    have hend : mainBiosEnd = 0xFFFFF := by decide
    exact hclear _ _ (.inr (by omega)) (by decide)

/-- `apic_init` does not see it. -/
theorem not_finds_ebda : 0x9FC00 ∈ ebdaArea ebdaImage ∧ isRsdp ebdaImage 0x9FC00 = true ∧
    ¬ Finds ebdaImage (List.replicate rsdpDescriptorSz 0) := by
  have hmem : 0x9FC00 ∈ ebdaArea ebdaImage := by
    rw [ebdaArea, show ebdaAddr ebdaImage = 0x9FC00 by decide]
    exact List.mem_range'.mpr ⟨0, by decide, rfl⟩
  have hrsdp : isRsdp ebdaImage 0x9FC00 = true := by decide
  refine ⟨hmem, hrsdp, fun h => ?_⟩
  have hnone : firstGood ebdaImage (candidates ebdaImage) = none := by
    rw [ebdaImage_candidates]
    rfl
  have hall := (finds_of_none hnone).mp h 0x9FC00 (List.mem_append_left _ hmem)
  rw [hrsdp] at hall
  cases hall

end Smp
end Frod
