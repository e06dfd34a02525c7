import Frod.Pmm.Init

/-!
# Frod.Pmm.Mark

When `pmm_mark_mem_taken` marks the range it is given.

It rounds the end upwards in 32-bit arithmetic and does not look at `pmm_bitmap_sz`, so
`marksExactly_iff` asks for a range that ends inside the memory the bitmap stands for. From the last
block of the address space on the rounded end is 0, and nothing is marked at all.
-/

namespace Frod
namespace Pmm

open BitArray

/-- Block `b` has an address from `start` on and before `stop`. -/
def Touches (start stop b : Nat) : Prop := ∃ a, start ≤ a ∧ a < stop ∧ a / blkSz = b

/-- The blocks `pmm_mark_mem_taken` calls `bitmap_set` with, in the order of its loop. -/
def markBits (start stop : Nat) : List Nat := List.range' (markLo start) (markHi stop - markLo start)

/-- The blocks that are taken afterwards are those that were and those of the range, and no bit
outside the bitmap is accessed. -/
def MarksExactly (p : Pmm) (start stop : Nat) : Prop :=
  (∀ b < p.bitmapSz, (p.markMemTaken start stop).isTaken b = true ↔
    p.isTaken b = true ∨ Touches start stop b) ∧
  ∀ b ∈ markBits start stop, b < p.bitmapSz

theorem setRange_eq_foldl : ∀ (n lo : Nat) (a : BitArray),
    setRange a lo n = (List.range' lo n).foldl set a := by
  intro n
  induction n with
  | zero => intro lo a; rfl
  | succ n ih =>
    intro lo a
    rw [setRange, ih, List.range'_succ, List.foldl_cons]

/-- The loop sets the bits of `markBits` and no others. -/
theorem markMemTaken_eq_foldl (p : Pmm) (start stop : Nat) :
    p.markMemTaken start stop = { p with bitmap := (markBits start stop).foldl set p.bitmap } := by
  rw [markMemTaken, markBits, ← setRange_eq_foldl]
  rfl

theorem mem_markBits {start stop b : Nat} : b ∈ markBits start stop ↔ markLo start ≤ b ∧ b < markHi stop := by
  rw [markBits, List.mem_range'_1]
  omega

theorem touches_iff {start stop b : Nat} (hlt : start < stop) :
    Touches start stop b ↔ markLo start ≤ b ∧ b * blkSz < stop := by
  rw [markLo_eq]
  unfold blkSz
  constructor
  · rintro ⟨a, ha1, ha2, rfl⟩
    unfold blkSz
    omega
  · rintro ⟨hlo, hhi⟩
    refine ⟨max start (b * 4096), by omega, by omega, ?_⟩
    unfold blkSz
    omega

/-- Up to the last block the end is rounded to the next block. -/
theorem lt_markHi_iff {stop b : Nat} (h : stop ≤ lastBlock) : b < markHi stop ↔ b * blkSz < stop := by
  unfold lastBlock blkSz at h
  unfold markHi alignUpwards blkSz
  split
  · omega
  · omega

/-- Above it the rounded end is 0. -/
theorem markHi_of_lastBlock_lt {stop : Nat} (h : lastBlock < stop) (hstop : stop < 2 ^ 32) :
    markHi stop = 0 := by
  unfold lastBlock blkSz at h
  unfold markHi alignUpwards blkSz
  split
  · omega
  · omega

/-- `pmm_mark_mem_taken` marks exactly its range when the range ends in the memory the bitmap stands
for, or ends so high that nothing is marked and nothing was left to mark. -/
theorem marksExactly_iff {p : Pmm} {start stop : Nat} (hlt : start < stop) (hstop : stop < 2 ^ 32) :
    MarksExactly p start stop ↔
      (stop ≤ lastBlock ∧ stop ≤ p.bitmapSz * blkSz) ∨
        (lastBlock < stop ∧ ∀ b < p.bitmapSz, Touches start stop b → p.isTaken b = true) := by
  by_cases hlast : stop ≤ lastBlock
  · have hbits : ∀ b, b ∈ markBits start stop ↔ Touches start stop b := by
      intro b
      rw [mem_markBits, touches_iff hlt, lt_markHi_iff hlast]
    have hmarks : ∀ b, (p.markMemTaken start stop).isTaken b = true ↔
        p.isTaken b = true ∨ Touches start stop b := by
      intro b
      rw [isTaken_markMemTaken, ← mem_markBits, hbits, or_comm]
    constructor
    · rintro ⟨_, hin⟩
      -- the last address of the range lies in a block that is marked
      have hb := hin ((stop - 1) / blkSz) ((hbits _).mpr ⟨stop - 1, by omega, by omega, rfl⟩)
      refine .inl ⟨hlast, ?_⟩
      unfold blkSz at hb ⊢
      omega
    · rintro (⟨_, hsz⟩ | ⟨hgt, _⟩)
      · refine ⟨fun b _ => hmarks b, fun b hb => ?_⟩
        obtain ⟨a, _, ha, rfl⟩ := (hbits b).mp hb
        exact (Nat.div_lt_iff_lt_mul (by decide)).mpr (by omega)
      · omega
  · have hgt : lastBlock < stop := by omega
    have hnone : ∀ b, b ∉ markBits start stop := by
      intro b hb
      rw [mem_markBits, markHi_of_lastBlock_lt hgt hstop] at hb
      omega
    have hsame : ∀ b, (p.markMemTaken start stop).isTaken b = true ↔ p.isTaken b = true := by
      intro b
      rw [isTaken_markMemTaken, ← mem_markBits]
      exact or_iff_right (hnone b)
    constructor
    · rintro ⟨hmarks, _⟩
      exact .inr ⟨hgt, fun b hb ht => (hsame b).mp ((hmarks b hb).mpr (.inr ht))⟩
    · rintro (⟨hle, _⟩ | ⟨_, hall⟩)
      · omega
      · refine ⟨fun b hb => ?_, fun b hb => absurd hb (hnone b)⟩
        rw [hsame b]
        exact ⟨.inl, fun h => h.elim id (hall b hb)⟩

/-- 16 MB of memory, all of it free. -/
def freeBitmap : Pmm := ⟨fun _ => 0, 0x1000⟩

theorem marksExactly_iff_image : MarksExactly freeBitmap 0x100000 0x123456 :=
  (marksExactly_iff (by decide) (by decide)).mpr (.inl ⟨by decide, by decide⟩)

/-- Almost 4 GB of memory, all of it free, and a range that ends in the last block: the rounded end
wraps, and the managed blocks of the range stay free. -/
theorem not_marksExactly_last : ¬ MarksExactly ⟨fun _ => 0, 0xFFFFF⟩ 0xFFFFD000 0xFFFFF800 := by
  rintro ⟨hmarks, _⟩
  have htouch : Touches 0xFFFFD000 0xFFFFF800 0xFFFFD := ⟨0xFFFFD000, by decide, by decide, by decide⟩
  have htaken := (hmarks 0xFFFFD (by decide)).mpr (.inr htouch)
  rw [isTaken_markMemTaken] at htaken
  revert htaken
  decide

end Pmm
end Frod
