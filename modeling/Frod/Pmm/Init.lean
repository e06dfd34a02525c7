import Frod.Layout
import Frod.Lib.Bytes
import Frod.Pmm.Alloc

/-!
# Frod.Pmm.Init

The three passes of `init_pmm` of `sys/pmm.c` over a list of entries: the highest available address,
the place of the bitmap, and the marking of what is not available. All of them look at the low words of
the entries only. `init_pmm` itself, which reads the entries from memory and writes the bitmap into the
same memory, is the subject of `Frod.Pmm.Buffer`.

* `markLoop_ok`, `markLoop_diverges`: the two inner loops set the blocks of one address range, or
  never end because their counter wraps.
* `markEntries_eq`: the third pass is the marking of its ranges, one after the other.
-/

namespace Frod

/-- A `multiboot_mmap`, without the `size` field that leads to the next one. -/
structure MmapEntry where
  baseAddrL : Word
  baseAddrH : Word
  lengthL : Word
  lengthH : Word
  type : Word
  deriving DecidableEq

namespace MmapEntry

/-- The region an entry describes, in 64-bit addresses. -/
def base (e : MmapEntry) : Nat := e.baseAddrH.toNat * 2 ^ 32 + e.baseAddrL.toNat
def length (e : MmapEntry) : Nat := e.lengthH.toNat * 2 ^ 32 + e.lengthL.toNat
def stop (e : MmapEntry) : Nat := e.base + e.length

/-- `base_addr_l + length_l`, a `uint32_t`. -/
def endL (e : MmapEntry) : Nat := (e.baseAddrL + e.lengthL).toNat

theorem endL_lt (e : MmapEntry) : e.endL < 2 ^ 32 := (e.baseAddrL + e.lengthL).isLt

/-- Below 4 GB the low words are the region. -/
theorem low_words {e : MmapEntry} (h : e.stop < 2 ^ 32) :
    e.baseAddrL.toNat = e.base ∧ e.lengthL.toNat = e.length ∧ e.endL = e.stop := by
  have h1 := e.baseAddrL.isLt
  have h2 := e.lengthL.isLt
  simp only [stop, base, length, endL, BitVec.toNat_add] at h ⊢
  have hb : e.baseAddrH.toNat = 0 := by omega
  have hl : e.lengthH.toNat = 0 := by omega
  rw [hb, hl]
  omega

end MmapEntry

namespace Pmm

open BitArray

/-! ## The three passes -/

/-- The loop of `pmm_get_max_space`. -/
def getMaxSpaceLoop (max : Nat) : List MmapEntry → Nat
  | [] => max
  | e :: es => getMaxSpaceLoop (if e.type = 1 then e.endL else max) es

/-- `pmm_get_max_space`. -/
def getMaxSpace (es : List MmapEntry) : Nat := getMaxSpaceLoop 0 es

/-- `pmm_bytes` and `blocks_bitmap` of `init_pmm`. -/
def pmmBytes (sz : Nat) : Nat := sz / 8 + if sz % 8 ≠ 0 then 1 else 0
def blocksBitmap (sz : Nat) : Nat := pmmBytes sz / blkSz + if sz % (blkSz * 8) ≠ 0 then 1 else 0

/-- The test of the second pass on one entry, and the address it finds for the bitmap. The source
aligns `base` a second time where it means to align `end`. -/
def bitmapBase (blocks : Nat) (e : MmapEntry) : Option Nat :=
  if e.type = 1 ∧ e.lengthL.toNat / blkSz ≥ blocks then
    let base := alignDownwards (alignUpwards e.baseAddrL.toNat blkSz) blkSz
    if (e.endL + 2 ^ 32 - base) % 2 ^ 32 / blkSz ≥ blocks then some base else none
  else none

/-- The entry has room for `n` aligned blocks. -/
def HoldsBlocks (n : Nat) (e : MmapEntry) : Prop :=
  ∃ k, e.base ≤ k * blkSz ∧ (k + n) * blkSz ≤ e.stop

/-- The second pass stops at the first entry that is large enough. -/
def placeBitmap (blocks : Nat) (es : List MmapEntry) : Option Nat := es.findSome? (bitmapBase blocks)

/-- `while(x < stop) { bitmap_set(pmm_bitmap, x/PMM_BLK_SZ); x += PMM_BLK_SZ; }` in `uint32_t`
arithmetic. An aligned `x` takes `2^20` values, so a loop that has not ended after one more
iteration never ends. -/
def markLoop (stop : Nat) : Nat → Nat → BitArray → Except Stop BitArray
  | 0, _, _ => .error .diverges
  | n + 1, x, a =>
    if x < stop then markLoop stop n ((x + blkSz) % 2 ^ 32) (set a (x / blkSz)) else .ok a

/-- Marking the blocks of the addresses from `lo` to `hi`. -/
def markRange (a : BitArray) (lo hi : Nat) : Except Stop BitArray :=
  markLoop hi (2 ^ 20 + 1) (alignDownwards lo blkSz) a

/-- The third pass: gaps before an entry and entries that are not available. -/
def markEntries (max : Nat) : List MmapEntry → Nat → BitArray → Except Stop BitArray
  | [], _, a => .ok a
  | e :: es, expected, a =>
    if e.baseAddrL.toNat < (max + 2 ^ 32 - 1) % 2 ^ 32 then do
      let a ← (if e.baseAddrL.toNat > expected then markRange a expected e.baseAddrL.toNat else .ok a)
      let a ← (if e.type ≠ 1 ∧ e.endL < (max + 2 ^ 32 - 1) % 2 ^ 32 then
          markRange a e.baseAddrL.toNat e.endL else .ok a)
      markEntries max es e.endL a
    else .ok a

/-! ## The marking loops -/

/-- The last address a block can start at: a range that ends above it makes the loop's counter
wrap. -/
def lastBlock : Nat := 2 ^ 32 - blkSz

/-- Block `b` has an address of the range from `r.1` to `r.2`, which is not empty. -/
def Meets (r : Nat × Nat) (b : Nat) : Prop := r.1 / blkSz ≤ b ∧ b * blkSz < r.2

instance (r : Nat × Nat) (b : Nat) : Decidable (Meets r b) := by unfold Meets; infer_instance

theorem markLoop_ok {stop : Nat} (hstop : stop ≤ lastBlock) : ∀ {n x : Nat} {a : BitArray},
    x % blkSz = 0 → (stop - x + (blkSz - 1)) / blkSz < n →
      markLoop stop n x a = .ok (setRange a (x / blkSz) ((stop - x + (blkSz - 1)) / blkSz)) := by
  simp only [lastBlock, blkSz] at *
  intro n
  induction n with
  | zero => intro x a _ h; omega
  | succ n ih =>
    intro x a hx hn
    rw [markLoop]
    by_cases h : x < stop
    · obtain ⟨c, hc⟩ : ∃ c, (stop - x + (4096 - 1)) / 4096 = c + 1 :=
        ⟨(stop - x + (4096 - 1)) / 4096 - 1, by omega⟩
      have hnext : (x + blkSz) % 2 ^ 32 = x + 4096 := Nat.mod_eq_of_lt (by unfold blkSz; omega)
      have hc' : (stop - (x + 4096) + (4096 - 1)) / 4096 = c := by omega
      rw [if_pos h, hnext, ih (by omega) (by omega), hc', hc, setRange, blkSz,
        show (x + 4096) / 4096 = x / 4096 + 1 by omega]
    · rw [if_neg h, show (stop - x + (4096 - 1)) / 4096 = 0 by omega]
      rfl

theorem markLoop_diverges {stop : Nat} (hstop : lastBlock < stop) : ∀ {n x : Nat} {a : BitArray},
    x % blkSz = 0 → x < 2 ^ 32 → markLoop stop n x a = .error .diverges := by
  simp only [lastBlock, blkSz] at *
  intro n
  induction n with
  | zero => intro x a _ _; rfl
  | succ n ih =>
    intro x a hx hlt
    rw [markLoop, if_pos (by omega), blkSz, ih (by omega) (by omega)]

theorem markRange_ok (a : BitArray) (lo : Nat) {hi : Nat} (hhi : hi ≤ lastBlock) :
    ∃ a', markRange a lo hi = .ok a' ∧
      ∀ b, isSet a' b = true ↔ Meets (lo, hi) b ∨ isSet a b = true := by
  have halign : alignDownwards lo blkSz % blkSz = 0 := by
    simp only [alignDownwards, blkSz]; omega
  refine ⟨_, markLoop_ok hhi halign ?_, fun b => ?_⟩
  · simp only [lastBlock, blkSz] at *
    omega
  · rw [isSet_setRange]
    apply or_congr_left
    simp only [Meets, alignDownwards, blkSz]
    omega

theorem markRange_diverges {lo hi : Nat} (a : BitArray) (hlo : lo < 2 ^ 32) (hhi : lastBlock < hi) :
    markRange a lo hi = .error .diverges :=
  markLoop_diverges hhi (by simp only [alignDownwards, blkSz]; omega)
    (by unfold alignDownwards; omega)

/-- The address ranges the third pass marks, in its order: gaps and entries that are not
available. It sees the low words only, stops at the first entry from `max - 1` on, and leaves out
an entry that ends there or later. -/
def markedRanges (max : Nat) : Nat → List MmapEntry → List (Nat × Nat)
  | _, [] => []
  | expected, e :: es =>
    if e.baseAddrL.toNat < (max + 2 ^ 32 - 1) % 2 ^ 32 then
      (if e.baseAddrL.toNat > expected then [(expected, e.baseAddrL.toNat)] else []) ++
      (if e.type ≠ 1 ∧ e.endL < (max + 2 ^ 32 - 1) % 2 ^ 32 then [(e.baseAddrL.toNat, e.endL)] else []) ++
      markedRanges max e.endL es
    else []

theorem markedRanges_lt {max : Nat} : ∀ {es : List MmapEntry} {expected : Nat},
    expected < 2 ^ 32 → ∀ r ∈ markedRanges max expected es, r.1 < 2 ^ 32 := by
  intro es
  induction es with
  | nil => intro x _ r hr; cases hr
  | cons e es ih =>
    intro x hx r hr
    rw [markedRanges] at hr
    split at hr
    · simp only [List.mem_append] at hr
      rcases hr with (hr | hr) | hr
      · split at hr <;> simp_all
      · split at hr
        · simp only [List.mem_singleton] at hr
          rw [hr]
          exact e.baseAddrL.isLt
        · cases hr
      · exact ih e.endL_lt r hr
    · cases hr

/-- The third pass is the marking of its ranges, one after the other. -/
theorem markEntries_eq (max : Nat) : ∀ (es : List MmapEntry) (expected : Nat) (a : BitArray),
    markEntries max es expected a =
      (markedRanges max expected es).foldlM (fun a r => markRange a r.1 r.2) a := by
  intro es
  induction es with
  | nil => intro x a; rfl
  | cons e es ih =>
    intro x a
    rw [markEntries, markedRanges]
    split
    · simp only [List.foldlM_append, ih]
      split <;> split <;> simp only [List.foldlM_cons, List.foldlM_nil, bind_pure, bind_assoc] <;> rfl
    · rfl

theorem markRanges_ok : ∀ {l : List (Nat × Nat)} (a : BitArray), (∀ r ∈ l, r.2 ≤ lastBlock) →
    ∃ a', l.foldlM (fun a r => markRange a r.1 r.2) a = .ok a' ∧
      ∀ b, isSet a' b = true ↔ (∃ r ∈ l, Meets r b) ∨ isSet a b = true := by
  intro l
  induction l with
  | nil => intro a _; exact ⟨a, rfl, by simp⟩
  | cons r l ih =>
    intro a h
    obtain ⟨a₁, h1, hb1⟩ := markRange_ok a r.1 (h r (by simp))
    obtain ⟨a₂, h2, hb2⟩ := ih a₁ fun r hr => h r (by simp [hr])
    refine ⟨a₂, ?_, fun b => ?_⟩
    · rw [List.foldlM_cons, h1]
      exact h2
    · rw [hb2, hb1]
      simp only [List.mem_cons, exists_eq_or_imp, or_assoc, or_left_comm]

theorem markRanges_diverges : ∀ {l : List (Nat × Nat)} (a : BitArray), (∀ r ∈ l, r.1 < 2 ^ 32) →
    (∃ r ∈ l, lastBlock < r.2) →
    l.foldlM (fun a r => markRange a r.1 r.2) a = .error .diverges := by
  intro l
  induction l with
  | nil => rintro a _ ⟨r, hr, _⟩; cases hr
  | cons r l ih =>
    intro a hlt h
    rw [List.foldlM_cons]
    by_cases hr : r.2 ≤ lastBlock
    · obtain ⟨a₁, h1, _⟩ := markRange_ok a r.1 hr
      rw [h1]
      refine ih a₁ (fun r hr => hlt r (by simp [hr])) ?_
      obtain ⟨q, hq, hlast⟩ := h
      rcases List.mem_cons.mp hq with rfl | hq
      · omega
      · exact ⟨q, hq, hlast⟩
    · rw [markRange_diverges a (hlt r (by simp)) (by omega)]
      rfl

/-! ## Bounds -/

theorem getMaxSpaceLoop_lt : ∀ {es : List MmapEntry} {max : Nat}, max < 2 ^ 32 →
    getMaxSpaceLoop max es < 2 ^ 32 := by
  intro es
  induction es with
  | nil => intro max h; exact h
  | cons e es ih =>
    intro max h
    apply ih
    split
    · exact e.endL_lt
    · exact h

theorem getMaxSpace_lt (es : List MmapEntry) : getMaxSpace es < 2 ^ 32 :=
  getMaxSpaceLoop_lt (by decide)

theorem div_lt_pmmBytes {sz b : Nat} (h : b < sz) : b / 8 < pmmBytes sz := by
  unfold pmmBytes
  split <;> omega

end Pmm
end Frod
