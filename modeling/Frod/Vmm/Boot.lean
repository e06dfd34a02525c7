import Frod.Vmm.Refine

/-!
# Frod.Vmm.Boot

The page tables `vmm_init` builds, and the refinement of whole runs from them.

`vmm_init` takes two frames, one for the directory and one for the table of the first 4 MB, which it
maps to themselves except for the page that shows the LAPIC. `vmmInit_refines` says that the result
refines `initMap`; with the step lemma and the simulation rule this gives `vmm_refines_pageMap`.
-/

namespace Frod
namespace Vmm

open Pmm (HasFree FirstFree blkSz)

/-- The identity map of the first 4 MB with the LAPIC page redirected. -/
def initMap : PageMap := fun p =>
  if p < 1024 then (if p = lapicPhysVirtAddr / kb4 then some (0xFEE00000 / kb4) else some p) else none

/-- Enough frames for `vmm_init`: one for the directory and then one for the first table. -/
def TwoFree (p : Pmm) : Prop := HasFree p ∧ HasFree p.allocFirst.2

/-- The permissions `vmm_init` gives to everything it maps. -/
def initFlags : Word := x86PagePresent ||| x86PageWritable ||| x86PageUser

theorem or_initFlags (w : Word) : w ||| x86PagePresent ||| x86PageWritable ||| x86PageUser = w ||| initFlags := by
  rw [BitVec.or_assoc, BitVec.or_assoc, ← BitVec.or_assoc x86PagePresent]
  rfl

theorem entryFor_init {k : Nat} (hk : k < 2 ^ 20) : EntryFor (BitVec.ofNat 32 (k * kb4) ||| initFlags) k := by
  have h : EntryFor (BitVec.ofNat 32 (k * kb4) ||| initFlags) (k * kb4 / kb4) :=
    entryFor_flags (Nat.mul_mod_left k kb4) (by unfold kb4; omega) (by decide) (by decide) (by decide)
  rwa [Nat.mul_div_cancel k (by decide)] at h

theorem identityLoop_other {f f' : Nat} (h : f' ≠ f) (m : Phys) : ∀ n,
    identityLoop f n m f' = m f' := by
  intro n
  induction n with
  | zero => rfl
  | succ n ih => funext j; rw [identityLoop, set_other_frame _ h, ih]

theorem identityLoop_same (f : Nat) (m : Phys) (i : Nat) : ∀ n, i < n →
    identityLoop f n m f i = BitVec.ofNat 32 (i * kb4) ||| initFlags := by
  intro n
  induction n with
  | zero => intro h; omega
  | succ n ih =>
    intro hi
    rw [identityLoop]
    by_cases hin : i = n
    · subst hin; rw [set_same]; rfl
    · rw [set_other_index _ _ _ hin]; exact ih (by omega)

/-- The entry that shows the LAPIC's registers. -/
def lapicEntry : Word :=
  0xFEE00000#32 ||| x86PagePresent ||| x86PageWritable ||| x86PageCacheDis ||| x86PageUser

theorem entryFor_lapic : EntryFor lapicEntry (0xFEE00000 / kb4) := ⟨by decide, by decide, by decide⟩

/-- What `vmm_init` leaves: the directory in frame `k1` and the first table in frame `k2`. -/
structure Built (s : Vmm) (p : Pmm) (k1 k2 : Nat) : Prop where
  dir : s.dir = k1
  ne : k1 ≠ k2
  lt1 : k1 < 2 ^ 20
  lt2 : k2 < 2 ^ 20
  first1 : FirstFree p k1
  free2 : p.isTaken k2 = false
  first2 : ∀ j, 1 ≤ j → j < k2 → j = k1 ∨ p.isTaken j = true
  sz : s.pmm.bitmapSz = p.bitmapSz
  taken : ∀ b, s.pmm.isTaken b = true ↔ b < 1024 ∨ b = k1 ∨ b = k2 ∨ p.isTaken b = true
  dirRow : ∀ j, j < 1024 → s.phys k1 j =
    if j = 1023 then BitVec.ofNat 32 (k1 * kb4) ||| initFlags
    else if j = 0 then BitVec.ofNat 32 (k2 * kb4) ||| initFlags else 0#32
  tableRow : ∀ i, i < 1024 → s.phys k2 i =
    if i = lapicPhysVirtAddr / kb4 then lapicEntry else BitVec.ofNat 32 (i * kb4) ||| initFlags

theorem vmmGetPhysicalPage_eq {s : Vmm} {k : Nat} (hk : FirstFree s.pmm k)
    (hsz : s.pmm.bitmapSz ≤ 2 ^ 20)
    (halloc : s.pmm.allocFirst = (k * blkSz % 2 ^ 32, { s.pmm with bitmap := s.pmm.bitmap.set k })) :
    s.vmmGetPhysicalPage = (k * kb4,
      { s with pmm := { s.pmm with bitmap := s.pmm.bitmap.set k }, phys := s.phys.clear k }) := by
  have hlt := hk.lt
  have hpos := hk.pos
  have h32 : k * blkSz % 2 ^ 32 = k * kb4 := Nat.mod_eq_of_lt (by unfold blkSz; omega)
  have h0 : k * kb4 ≠ 0 := by unfold kb4; omega
  have hdiv : k * kb4 / kb4 = k := Nat.mul_div_cancel k (by decide)
  simp only [vmmGetPhysicalPage, halloc, h32, if_neg h0, hdiv]

theorem vmmInit_built {s : Vmm} (hsz : s.pmm.bitmapSz ≤ 2 ^ 20) (hfree : TwoFree s.pmm) :
    ∃ k1 k2, Built s.vmmInit s.pmm k1 k2 := by
  obtain ⟨k1, hk1, ha1⟩ := Pmm.allocFirst_of_hasFree hfree.1
  have hf2 := hfree.2
  rw [ha1] at hf2
  obtain ⟨k2, hk2, ha2⟩ := Pmm.allocFirst_of_hasFree hf2
  have hlt1 : k1 < 2 ^ 20 := Nat.lt_of_lt_of_le hk1.lt hsz
  have hlt2 : k2 < 2 ^ 20 := Nat.lt_of_lt_of_le hk2.lt hsz
  -- the second frame was free after the first had been taken
  have hne : k1 ≠ k2 := (hk2.ne_of_taken ((Pmm.isTaken_set s.pmm k1 k1).mpr (.inl rfl))).symm
  have hfree2 : s.pmm.isTaken k2 = false := by
    rw [← Bool.not_eq_true]
    intro ht
    exact hk2.ne_of_taken ((Pmm.isTaken_set s.pmm k1 k2).mpr (.inr ht)) rfl
  have hp1 := vmmGetPhysicalPage_eq hk1 hsz ha1
  have hp2 := vmmGetPhysicalPage_eq (s := { s with
    pmm := { s.pmm with bitmap := s.pmm.bitmap.set k1 }, phys := s.phys.clear k1 }) hk2 hsz ha2
  have hd1 : k1 * kb4 / kb4 = k1 := Nat.mul_div_cancel k1 (by decide)
  have hd2 : k2 * kb4 / kb4 = k2 := Nat.mul_div_cancel k2 (by decide)
  have hbelow2 : ∀ j, 1 ≤ j → j < k2 → j = k1 ∨ s.pmm.isTaken j = true :=
    fun j h1 h2 => (Pmm.isTaken_set s.pmm k1 j).mp (hk2.below j h1 h2)
  refine ⟨k1, k2, ?_, hne, hlt1, hlt2, hk1, hfree2, hbelow2, ?_, ?_, ?_, ?_⟩
  · simp only [vmmInit, hp1, hp2, Vmm.dir, hd1]
  · simp only [vmmInit, hp1, hp2, Pmm.markMemTaken_bitmapSz]
  · intro b
    simp only [vmmInit, hp1, hp2]
    rw [Pmm.isTaken_markMemTaken, Pmm.markLo_eq, Pmm.markHi_of_dvd (by decide),
      Pmm.isTaken_set { s.pmm with bitmap := s.pmm.bitmap.set k1 } k2 b, Pmm.isTaken_set s.pmm k1 b]
    have : (0 / 4096 ≤ b ∧ b < mb4 / 4096) ↔ b < 1024 := by unfold mb4; omega
    rw [this, or_left_comm (a := b = k2)]
  · intro j hj
    simp only [vmmInit, hp1, hp2, hd1, hd2]
    by_cases h1 : j = 1023
    · subst h1
      rw [set_same, if_pos rfl, or_initFlags]
    · rw [set_other_index _ _ _ h1, if_neg h1]
      by_cases h0 : j = 0
      · subst h0
        rw [set_same, if_pos rfl, or_initFlags]
      · rw [set_other_index _ _ _ h0, if_neg h0, set_other_frame _ hne, identityLoop_other hne,
          clear_other _ hne, clear_same _ _ hj]
  · intro i hi
    simp only [vmmInit, hp1, hp2, hd1, hd2]
    rw [set_other_frame _ hne.symm, set_other_frame _ hne.symm]
    by_cases hl : i = lapicPhysVirtAddr / kb4
    · rw [hl, set_same, if_pos rfl]; rfl
    · rw [set_other_index _ _ _ hl, if_neg hl, identityLoop_same _ _ _ _ hi]

section Built

variable {s : Vmm} {p : Pmm} {k1 k2 : Nat} (h : Built s p k1 k2)
include h

theorem Built.dirEntry {d : Nat} (hd : d < 1023) :
    s.phys s.dir d = if d = 0 then BitVec.ofNat 32 (k2 * kb4) ||| initFlags else 0#32 := by
  rw [h.dir, h.dirRow d (by omega), if_neg (by omega)]

theorem Built.hasTable_iff {d : Nat} (hd : d < 1023) : HasTable s d ↔ d = 0 := by
  unfold HasTable
  rw [h.dirEntry hd]
  by_cases h0 : d = 0
  · simp [h0, (entryFor_init h.lt2).present]
  · simp [h0]

theorem Built.table_zero : s.table 0 = k2 := by
  rw [Vmm.table, h.dirEntry (by omega), if_pos rfl, (entryFor_init h.lt2).frame]

theorem Built.page {i : Nat} (hi : i < 1024) :
    EntryFor (s.phys k2 i) (if i = lapicPhysVirtAddr / kb4 then 0xFEE00000 / kb4 else i) := by
  rw [h.tableRow i hi]
  by_cases hl : i = lapicPhysVirtAddr / kb4
  · rw [if_pos hl, if_pos hl]; exact entryFor_lapic
  · rw [if_neg hl, if_neg hl]; exact entryFor_init (by omega)

theorem Built.inv (hsz : p.bitmapSz ≤ 2 ^ 20) : Inv s := by
  refine ⟨?_, by rw [h.sz]; exact hsz, (h.taken _).mpr (.inr (.inl h.dir)), ?_, ?_⟩
  · unfold SelfMap
    rw [h.dir, h.dirRow 1023 (by omega), if_pos rfl]
    exact entryFor_init h.lt1
  · intro d hd ht
    obtain rfl := (h.hasTable_iff hd).mp ht
    refine ⟨?_, by rw [h.table_zero, h.dir]; exact h.ne.symm,
      by rw [h.table_zero]; exact (h.taken _).mpr (.inr (.inr (.inl rfl))), ⟨0, by omega, ?_⟩, ?_⟩
    · rw [h.dirEntry hd, if_pos rfl]; exact (entryFor_init h.lt2).writable
    · unfold HasPage; rw [h.table_zero]; exact (h.page (by omega)).present
    · intro i hi _; rw [h.table_zero]; exact (h.page hi).writable
  · intro d d' hd hd' ht ht' _
    rw [(h.hasTable_iff hd).mp ht, (h.hasTable_iff hd').mp ht']

theorem Built.refines (hsz : p.bitmapSz ≤ 2 ^ 20) : Refines s initMap := by
  refine ⟨h.inv hsz, fun d i hd hi => ?_⟩
  by_cases h0 : d = 0
  · subst h0
    have hp := h.page hi
    have hmap : initMap (1024 * 0 + i) =
        if i = lapicPhysVirtAddr / kb4 then some (0xFEE00000 / kb4) else some i := by
      rw [Nat.mul_zero, Nat.zero_add, initMap, if_pos hi]
    rw [slot_of_hasTable ((h.hasTable_iff hd).mpr rfl), h.table_zero, hp.present, hp.frame, hmap]
    by_cases hl : i = lapicPhysVirtAddr / kb4
    · rw [if_pos hl, if_pos hl, if_pos rfl]
    · rw [if_neg hl, if_neg hl, if_pos rfl]
  · have hge : ¬ 1024 * d + i < 1024 := by omega
    rw [slot_none_of_not_hasTable (fun hc => h0 ((h.hasTable_iff hd).mp hc)), initMap, if_neg hge]

end Built

theorem vmmInit_refines {s : Vmm} (hsz : s.pmm.bitmapSz ≤ 2 ^ 20) (hfree : TwoFree s.pmm) :
    Refines s.vmmInit initMap := by
  obtain ⟨k1, k2, h⟩ := vmmInit_built hsz hfree
  exact h.refines hsz

/-- **Virtual memory refines a partial map.** From the tables `vmm_init` builds, every run of
`vmm_map_page` and `vmm_unmap_page` whose calls meet `Pre` returns, with the results the abstract
map gives, and afterwards the two-level walk of the loaded directory is the abstract map on every
address below the window. -/
theorem vmm_refines_pageMap {s : Vmm} (hsz : s.pmm.bitmapSz ≤ 2 ^ 20) (hfree : TwoFree s.pmm)
    (calls : List Call) (hadm : Machine.Admissible Pre step s.vmmInit calls) :
    ∃ s', Machine.runAll step s.vmmInit calls = .ok ((Machine.specAll spec initMap calls).1, s') ∧
      ∀ va, va < 0xFFC00000 → s'.walk va = (Machine.specAll spec initMap calls).2 (va / kb4) := by
  obtain ⟨s', hrun, hR⟩ :=
    Machine.simulation step_refines calls s.vmmInit initMap (vmmInit_refines hsz hfree) hadm
  exact ⟨s', hrun, fun va hva => hR.walk hva⟩

/-- A machine with 16 MB of free memory before `vmm_init`. -/
def sampleVmm : Vmm :=
  { phys := fun _ _ => 0#32, pmm := ⟨fun _ => 0#8, 4096⟩, kernelDir := 0, currentDir := 0, cr3 := 0 }

theorem sampleVmm_hasFree : HasFree sampleVmm.vmmInit.pmm := ⟨1030, by decide, by decide, by decide +kernel⟩

theorem sampleVmm_twoFree : TwoFree sampleVmm.pmm :=
  ⟨⟨1, by decide, by decide, by decide⟩, ⟨2, by decide, by decide, by decide⟩⟩

theorem vmm_refines_pageMap_heapPage :
    ∃ s', Machine.runAll step sampleVmm.vmmInit [.mapPage 0x800000 heapStart x86PageWritable] =
      .ok ([vmmSuccess], s') ∧ s'.walk heapStart = some 0x800 := by
  obtain ⟨s', hrun, hwalk⟩ := vmm_refines_pageMap (s := sampleVmm) (by decide) sampleVmm_twoFree
    [.mapPage 0x800000 heapStart x86PageWritable]
    ⟨⟨by decide, by decide, by decide, aclOk_writable, fun _ => sampleVmm_hasFree⟩, fun _ _ _ => trivial⟩
  exact ⟨s', hrun, hwalk heapStart (by decide)⟩

end Vmm
end Frod
