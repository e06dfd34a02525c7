import Frod.Pmm.Exact

/-!
# Frod.Pmm.Unusable

When `init_pmm` keeps memory that no available region covers out of the allocator's hands.

`protects_iff` gives the exact condition on the entries, for a map that the bitmap does not change
under the hands of `init_pmm` (`KeepsByte`). It fails on a machine with memory above 4 GB:
`not_protects_highMemory`.
-/

namespace Frod
namespace Ram

open BitArray
open Pmm (blkSz lowTop home Own Withheld Meets Marked lastBlock HoldsBlocks blocksBitmap)

/-- Every byte of block `b` lies in an available region. -/
def Usable (es : List MmapEntry) (b : Nat) : Prop :=
  ∀ a, a / blkSz = b → ∃ e ∈ es, e.type = 1 ∧ e.base ≤ a ∧ a < e.stop

/-- `init_pmm` returns, every block it manages that is not usable is taken, and `pmm_alloc_first` does
not hand it out, however often it is called. -/
def Protects (s : Ram) (mmap len : Nat) (es : List MmapEntry) : Prop :=
  ∃ fuel max s', s.initPmm fuel mmap len = .ok (max, s') ∧
    ∀ b < s'.bitmapSz, ¬ Usable es b → s'.pmmIsTaken b = true ∧
      (b ≠ 0 → ∀ n, ((fun t => t.pmmAllocFirst.2)^[n] s').pmmAllocFirst.1 ≠ b * blkSz)

/-- Block `b` is taken before the marking pass: it is one of the bitmap's own, or, if no entry has room
for the bitmap, it is marked in the bytes that `pmm_bitmap` points to before the call. -/
def Held (s : Ram) (es : List MmapEntry) (b : Nat) : Prop :=
  Own es b ∨ home es = none ∧ isSet s.bits b = true

/-- No range that is withheld ends above the last block, and each block below the end of the last
available entry that is not usable is block 0, held, or meets a range that is withheld. -/
structure Covered (s : Ram) (es : List MmapEntry) : Prop where
  noWrap : ∀ lo hi, Withheld es lo hi → hi ≤ lastBlock
  covers : ∀ b < lowTop es / blkSz, ¬ Usable es b →
    b = 0 ∨ Held s es b ∨ ∃ lo hi, Withheld es lo hi ∧ Meets (lo, hi) b

/-! ## The allocator -/

theorem pmmIsTaken_allocFirst {s : Ram} {b : Nat} (h : s.pmmIsTaken b = true) :
    s.pmmAllocFirst.2.pmmIsTaken b = true := by
  rw [pmmAllocFirst]
  split
  · rw [pmmIsTaken, isSet_eq_getLsbD] at h ⊢
    simp only [bits, bitmapSet, Function.update_apply] at h ⊢
    split
    · rename_i heq
      rw [← heq, BitVec.getLsbD_or, h, Bool.true_or]
    · exact h
  · exact h

theorem bitmapSz_allocFirst (s : Ram) : s.pmmAllocFirst.2.bitmapSz = s.bitmapSz := by
  rw [pmmAllocFirst]
  split <;> rfl

theorem allocFirst_ne_of_isTaken {p : Pmm} {b : Nat} (hsz : p.bitmapSz ≤ 2 ^ 20) (h0 : b ≠ 0)
    (h : p.isTaken b = true) : p.allocFirst.1 ≠ b * blkSz := by
  intro heq
  rcases Pmm.allocFirst_spec p with ⟨k, hk, halloc⟩ | ⟨_, halloc⟩
  · have hlt := hk.lt
    simp only [halloc, blkSz] at heq
    exact hk.ne_of_taken h (by omega)
  · simp only [halloc, blkSz] at heq
    omega

theorem pmmAllocFirst_fst (s : Ram) : s.pmmAllocFirst.1 = (Pmm.allocFirst ⟨s.bits, s.bitmapSz⟩).1 := by
  rw [pmmAllocFirst, Pmm.allocFirst]
  split
  · rename_i hi
    rw [hi]
  · rename_i hi
    rw [hi]

/-- A block that is taken is not handed out, however often `pmm_alloc_first` is called. -/
theorem allocFirst_iterate_ne {b : Nat} (h0 : b ≠ 0) : ∀ {n : Nat} {s : Ram}, s.bitmapSz ≤ 2 ^ 20 →
    s.pmmIsTaken b = true → ((fun t => t.pmmAllocFirst.2)^[n] s).pmmAllocFirst.1 ≠ b * blkSz := by
  intro n
  induction n with
  | zero =>
    intro s hsz h
    rw [Function.iterate_zero, id_eq, pmmAllocFirst_fst]
    exact allocFirst_ne_of_isTaken hsz h0 h
  | succ n ih =>
    intro s hsz h
    rw [Function.iterate_succ_apply]
    exact ih (by rw [bitmapSz_allocFirst]; exact hsz) (pmmIsTaken_allocFirst h)

/-! ## What is taken -/

section Taken

variable {s : Ram} {es : List MmapEntry} {mmap len : Nat} (hbitmap : s.bitmap < 2 ^ 32)
  (hes : MapAt s.mem ((mmap + len) % 2 ^ 32) mmap es)
  (hkept : ∀ x, InEntry s.mem ((mmap + len) % 2 ^ 32) mmap x → KeepsByte s es x)
include hbitmap hes hkept

/-- On a map that is kept `init_pmm` leaves these blocks taken. -/
theorem isTaken_initPmm {fuel max : Nat} {s' : Ram} (hok : s.initPmm fuel mmap len = .ok (max, s')) :
    (∀ lo hi, Withheld es lo hi → hi ≤ lastBlock) ∧ s'.bitmapSz = lowTop es / blkSz ∧
      ∀ b < lowTop es / blkSz, (s'.pmmIsTaken b = true ↔
        b = 0 ∨ Held s es b ∨ ∃ lo hi, Withheld es lo hi ∧ Meets (lo, hi) b) := by
  have hlt := Pmm.lowTop_lt es
  obtain ⟨hwrap, a, rfl, hbits⟩ := initPmm_kept_ok (bitmapAt_lt hbitmap es) hes hkept hok
  refine ⟨hwrap, rfl, fun b hb => ?_⟩
  have hb8 : b / 8 < 2 ^ 32 := by
    simp only [blkSz] at hb
    omega
  have hview := isSet_overlay (m := s.mem) (n := cleared es) (a := a) (bitmapAt_lt hbitmap es) hb8
  have hsweeps : ∀ lo hi, Withheld es lo hi → (Pmm.Sweeps lo hi b ↔ Meets (lo, hi) b) := by
    intro lo hi h
    have := hwrap lo hi h
    exact or_iff_left fun hs => by omega
  have hmarked : Marked es b ↔ b = 0 ∨ Own es b ∨ ∃ lo hi, Withheld es lo hi ∧ Meets (lo, hi) b := by
    refine or_congr_right (or_congr_right (exists_congr fun lo => exists_congr fun hi => ?_))
    exact and_congr_right fun h => hsweeps lo hi h
  refine hview.trans ?_
  rw [hbits, hmarked, Held, or_left_comm]
  refine or_congr_right ?_
  rw [or_assoc, ← or_assoc (b := Own es b), or_comm (b := Own es b), or_assoc]
  refine or_congr_right (or_congr_left ?_)
  rw [cleared, bitmapAt]
  cases hhome : home es with
  | none =>
    rw [Option.elim_none, Option.getD_none]
    exact ⟨fun h => ⟨rfl, h.2⟩, fun h => ⟨Nat.not_lt_zero _, h.2⟩⟩
  | some base =>
    rw [Option.elim_some]
    exact ⟨fun h => absurd (Pmm.div_lt_pmmBytes hb) h.1, fun h => absurd h.1 (Option.some_ne_none _)⟩

end Taken

/-- On a map that the bitmap does not change, `init_pmm` protects what is not usable exactly when the
entries cover it. -/
theorem protects_iff {s : Ram} {es : List MmapEntry} {mmap len : Nat} (hbitmap : s.bitmap < 2 ^ 32)
    (hes : MapAt s.mem ((mmap + len) % 2 ^ 32) mmap es)
    (hkept : ∀ x, InEntry s.mem ((mmap + len) % 2 ^ 32) mmap x → KeepsByte s es x) :
    Protects s mmap len es ↔ Covered s es := by
  constructor
  · rintro ⟨fuel, max, s', hok, h⟩
    obtain ⟨hwrap, hsz, htaken⟩ := isTaken_initPmm hbitmap hes hkept hok
    rw [hsz] at h
    exact ⟨hwrap, fun b hb hu => (htaken b hb).mp (h b hb hu).1⟩
  · intro hcov
    rcases initPmm_kept (bitmapAt_lt hbitmap es) hes hkept (Nat.lt_succ_self _) with ⟨a, _, hok, _⟩ | ⟨⟨lo, hi, h, hlast⟩, _⟩
    · obtain ⟨_, _, htaken⟩ := isTaken_initPmm hbitmap hes hkept hok
      refine ⟨_, _, _, hok, fun b hb hu => ?_⟩
      have hset := (htaken b hb).mpr (hcov.covers b hb hu)
      refine ⟨hset, fun h0 n => allocFirst_iterate_ne h0 ?_ hset⟩
      have := Pmm.lowTop_lt es
      simp only [blkSz]
      omega
    · exact absurd (hcov.noWrap lo hi h) (Nat.not_le.mpr hlast)

/-- A well-formed map covers what is not usable. -/
theorem covered_of_wellFormed {es : List MmapEntry} (h : Pmm.WellFormed es) (ht : ∃ e ∈ es, e.type = 1)
    (s : Ram) : Covered s es := by
  obtain ⟨hblk, hlt⟩ := h.topAvailable_bounds ht
  refine ⟨fun lo hi hw => ?_, fun b hb hu => .inr (.inr ?_)⟩
  · have := (h.withheld_le ht hw).2
    simp only [lastBlock]
    omega
  · simp only [Usable, not_forall, not_exists, not_and] at hu
    obtain ⟨a, hab, hno⟩ := hu
    refine (h.withheld_meets_iff ht b).mpr ⟨a, ?_, hab, fun e he ht hc => hno e he ht hc.1 hc.2⟩
    rw [h.lowTop_eq] at hb
    simp only [blkSz] at hb hab
    omega

theorem protects_iff_sample : Protects Pmm.sampleRam 0x5000 48 Pmm.sampleMap := by
  have hwf : Pmm.WellFormed Pmm.sampleMap := ⟨by decide, by decide, by decide, by decide, by decide⟩
  refine (protects_iff (by decide) (sample_holdsMap.mapAt (by decide) (by decide)) fun x hx => ?_).mpr
    (covered_of_wellFormed hwf ⟨_, List.mem_cons_self, rfl⟩ _)
  obtain ⟨h1, h2⟩ := sample_holdsMap.inMap (by decide) (by decide) (.inr hx)
  exact sample_keepsByte h1 h2

/-- 3 GB of memory below the reserved range for devices, and 3.125 GB above 4 GB, and the map of it in a
buffer at the end of low memory. -/
def highMemory : List MmapEntry :=
  [⟨0, 0, 0xA0000, 0, 1⟩, ⟨0x100000, 0, 0xBFF00000, 0, 1⟩, ⟨0xC0000000, 0, 0x20000000, 0, 2⟩,
    ⟨0, 1, 0xC8000000, 0, 1⟩]
def highRam : Ram where
  mem a := [0x14, 0, 0, 0, 0, 0, 0, 0, 0, 0, 0, 0, 0, 0, 0xA, 0, 0, 0, 0, 0, 1, 0, 0, 0,
    0x14, 0, 0, 0, 0, 0, 0x10, 0, 0, 0, 0, 0, 0, 0, 0xF0, 0xBF, 0, 0, 0, 0, 1, 0, 0, 0,
    0x14, 0, 0, 0, 0, 0, 0, 0xC0, 0, 0, 0, 0, 0, 0, 0, 0x20, 0, 0, 0, 0, 2, 0, 0, 0,
    0x14, 0, 0, 0, 0, 0, 0, 0, 1, 0, 0, 0, 0, 0, 0, 0xC8, 0, 0, 0, 0, 1, 0, 0, 0].getD (a - 0x9F000) 0
  bitmap := 0
  bitmapSz := 0

/-- The end of the region above 4 GB, cut to 32 bits, is taken for the end of memory; the reserved
range crosses it and is not marked. -/
theorem not_protects_highMemory :
    HoldsMap highRam.mem 0x9F000 highMemory ∧
    highMemory.Pairwise (fun e f => e.stop ≤ f.base ∨ f.stop ≤ e.base) ∧
    (∃ e ∈ highMemory, e.type = 1 ∧ e.stop ≤ 2 ^ 32 ∧
      HoldsBlocks (blocksBitmap (lowTop highMemory / blkSz)) e) ∧
    ¬ Protects highRam 0x9F000 96 highMemory := by
  have hmap : HoldsMap highRam.mem 0x9F000 highMemory :=
    ⟨by decide, by decide, by decide, by decide, by decide, by decide, by decide, by decide, trivial⟩
  refine ⟨hmap, by decide, ⟨⟨0, 0, 0xA0000, 0, 1⟩, by decide, rfl, by decide, 0, by decide⟩, ?_⟩
  have hhome : home highMemory = some 0 := by decide
  have hunusable : ¬ Usable highMemory 0xC0000 := by
    intro hu
    have := hu 0xC0000000 (by decide)
    revert this
    decide
  -- the buffer lies behind the bitmap
  have hkept : ∀ x, InEntry highRam.mem ((0x9F000 + 96) % 2 ^ 32) 0x9F000 x →
      KeepsByte highRam highMemory x := by
    intro x hx
    obtain ⟨h1, h2⟩ := hmap.inMap (by decide) (by decide) (.inr hx)
    refine keepsByte_of_far ?_
    rw [bitmapAt, hhome, Option.getD_some, byteNo]
    omega
  rintro ⟨fuel, max, s', hok, h⟩
  obtain ⟨_, hsz, htaken⟩ :=
    isTaken_initPmm (by decide) (hmap.mapAt (by decide) (by decide)) hkept hok
  have hb : 0xC0000 < lowTop highMemory / blkSz := by decide
  rcases (htaken _ hb).mp (h _ (by rw [hsz]; exact hb) hunusable).1 with
    h0 | (⟨base, hbase, h1, h2⟩ | ⟨hnone, _⟩) | ⟨lo, hi, hw, hmeets⟩
  · cases h0
  · rw [hhome] at hbase
    obtain rfl := Option.some.inj hbase
    revert h2
    decide
  · rw [hhome] at hnone
    cases hnone
  · rw [Pmm.withheld_iff, show Pmm.markedRanges (Pmm.getMaxSpace highMemory) 0 highMemory =
      [(0xA0000, 0x100000)] by decide, List.mem_singleton] at hw
    obtain ⟨rfl, rfl⟩ := Prod.mk.inj hw
    revert hmeets
    decide

end Ram
end Frod
