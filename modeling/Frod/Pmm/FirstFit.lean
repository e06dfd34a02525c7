import Frod.Pmm.Alloc

/-!
# Frod.Pmm.FirstFit

`pmm_alloc_first_n_blocks` is first fit and complete.

`Frod.Pmm.Alloc` says that what the function takes was free. Here is the other half: the scan keeps
only a count of free blocks, reset at every taken one, and still misses no run. `Scan` is the loop
invariant that says so, and `allocFirstNBlocks_firstFit` the result.
-/

namespace Frod
namespace Pmm

open BitArray

/-- The `n` blocks from `s` on are not all free. -/
def Blocked (a : BitArray) (n s : Nat) : Prop := ∃ j, s ≤ j ∧ j < s + n ∧ isSet a j = true

/-- The state of the scan at index `i`: no run of `n` blocks ends before `i`, and the count stopped
growing downwards at block 1 or at a taken block. -/
structure Scan (a : BitArray) (n i found : Nat) : Prop where
  lt : found < i
  count : found < n
  start : 1 < i - found → isSet a (i - found - 1) = true
  blocked : ∀ s, 1 ≤ s → s + n ≤ i → Blocked a n s

theorem Scan.first {a : BitArray} {n : Nat} (hn : 1 ≤ n) : Scan a n 1 0 := by
  refine ⟨by omega, by omega, fun h => ?_, fun s h1 h2 => ?_⟩
  · omega
  · omega

/-- Passing a taken block resets the count. -/
theorem Scan.taken {a : BitArray} {n i found : Nat} (h : Scan a n i found)
    (hi : isSet a i = true) : Scan a n (i + 1) 0 := by
  have hlt := h.lt
  have hcount := h.count
  refine ⟨by omega, by omega, fun _ => hi, fun s h1 h2 => ?_⟩
  by_cases hend : s + n ≤ i
  · exact h.blocked s h1 hend
  · exact ⟨i, by omega, by omega, hi⟩

/-- Passing a free block that does not complete a run counts it. A run that ends at that block would
reach below the count, where the scan met a taken block. -/
theorem Scan.passed {a : BitArray} {n i found : Nat} (h : Scan a n i found) (hn : found + 1 ≠ n) :
    Scan a n (i + 1) (found + 1) := by
  have hlt := h.lt
  have hcount := h.count
  refine ⟨by omega, by omega, fun hs => ?_, fun s h1 h2 => ?_⟩
  · rw [show i + 1 - (found + 1) - 1 = i - found - 1 by omega]
    exact h.start (by omega)
  · by_cases hend : s + n ≤ i
    · exact h.blocked s h1 hend
    · exact ⟨i - found - 1, by omega, by omega, h.start (by omega)⟩

/-- No run ends before the block at which the scan stops, or before its end if it finds nothing. -/
theorem allocFirstNLoop_blocked {a : BitArray} {n : Nat} : ∀ {k i found : Nat}, Scan a n i found →
    ∀ s, 1 ≤ s → s + n ≤ (allocFirstNLoop a n k i found).getD (i + k) → Blocked a n s := by
  intro k
  induction k with
  | zero => intro i found hscan; exact hscan.blocked
  | succ k ih =>
    intro i found hscan
    simp only [allocFirstNLoop]
    rw [show i + (k + 1) = i + 1 + k by omega]
    split
    · rename_i hi
      exact ih (hscan.taken hi)
    · split
      · exact hscan.blocked
      · rename_i hn
        exact ih (hscan.passed hn)

theorem FreeRun.not_blocked {p : Pmm} {n s : Nat} (h : FreeRun p n s) : ¬ Blocked p.bitmap n s := by
  rintro ⟨j, h1, h2, h3⟩
  have := h.clear j h1 h2
  rw [isTaken, h3] at this
  cases this

/-- The lowest run of `n` free blocks. -/
structure FirstRun (p : Pmm) (n s : Nat) : Prop extends FreeRun p n s where
  first : ∀ t, FreeRun p n t → s ≤ t

/-- What the scan finds ends the lowest run. -/
theorem allocFirstNLoop_firstRun {p : Pmm} {n e : Nat} (hn : 1 ≤ n)
    (h : allocFirstNLoop p.bitmap n (p.bitmapSz - 1) 1 0 = some e) :
    n ≤ e ∧ FirstRun p n (e + 1 - n) := by
  obtain ⟨h1, h2, h3⟩ := allocFirstNLoop_some h (by omega) hn (fun j h1 h2 => absurd h2 (by omega))
  have hrun : FreeRun p n (e + 1 - n) :=
    ⟨hn, by omega, by omega, fun j hj1 hj2 => h3 j hj1 (by omega)⟩
  refine ⟨h2, hrun, fun t ht => ?_⟩
  refine Nat.le_of_not_lt fun hlt => ?_
  have hbl := allocFirstNLoop_blocked (k := p.bitmapSz - 1) (.first hn) t ht.pos (by
    rw [h, Option.getD_some]
    omega)
  exact ht.not_blocked hbl

/-- When the scan finds nothing there is no run. -/
theorem allocFirstNLoop_noRun {p : Pmm} {n : Nat} (hn : 1 ≤ n)
    (h : allocFirstNLoop p.bitmap n (p.bitmapSz - 1) 1 0 = none) (s : Nat) : ¬ FreeRun p n s := by
  intro hs
  have hpos := hs.pos
  have hle := hs.le
  have hbl := allocFirstNLoop_blocked (k := p.bitmapSz - 1) (.first hn) s hpos (by
    rw [h, Option.getD_none]
    omega)
  exact hs.not_blocked hbl

/-- Counting to one is taking the first free block. -/
theorem allocFirstNLoop_one (a : BitArray) : ∀ k i,
    allocFirstNLoop a 1 k i 0 = allocFirstLoop a k i := by
  intro k
  induction k with
  | zero => intro i; rfl
  | succ k ih =>
    intro i
    simp only [allocFirstNLoop, allocFirstLoop, ih]
    rfl

theorem allocFirstNBlocks_one (p : Pmm) : p.allocFirstNBlocks 1 = p.allocFirst := by
  rw [allocFirstNBlocks, allocFirst, allocFirstNLoop_one]
  cases allocFirstLoop p.bitmap (p.bitmapSz - 1) 1 with
  | none => rfl
  | some i => rfl

/-- **Run allocation is first fit and complete.** With a run of `n` free blocks below the end of the
bitmap, the lowest one is returned and exactly its bits are set; `NULL` comes back, with the
allocator as it was, just when there is no run. A run of one block is what `pmm_alloc_first` takes. -/
theorem allocFirstNBlocks_firstFit (p : Pmm) (hsz : p.bitmapSz ≤ 2 ^ 20) (n : Nat) (hn : 1 ≤ n) :
    ((∃ s, FreeRun p n s) →
      ∃ s, FirstRun p n s ∧ (p.allocFirstNBlocks n).1 = 4096 * s ∧
        (p.allocFirstNBlocks n).2.bitmapSz = p.bitmapSz ∧
        ∀ b, (p.allocFirstNBlocks n).2.isTaken b = true ↔
          (s ≤ b ∧ b < s + n) ∨ p.isTaken b = true) ∧
    ((p.allocFirstNBlocks n).1 = 0 ↔ ¬ ∃ s, FreeRun p n s) ∧
    ((¬ ∃ s, FreeRun p n s) → (p.allocFirstNBlocks n).2 = p) ∧
    p.allocFirstNBlocks 1 = p.allocFirst := by
  have hone := allocFirstNBlocks_one p
  have hbs := allocFirstNBlocks_bitmapSz p n
  revert hbs
  rw [allocFirstNBlocks]
  cases h : allocFirstNLoop p.bitmap n (p.bitmapSz - 1) 1 0 with
  | none =>
    intro hbs
    have hno : ¬ ∃ s, FreeRun p n s := fun ⟨s, hs⟩ => allocFirstNLoop_noRun hn h s hs
    exact ⟨fun hs => absurd hs hno, ⟨fun _ => hno, fun _ => rfl⟩, fun _ => rfl, hone⟩
  | some e =>
    intro hbs
    obtain ⟨he, hfirst⟩ := allocFirstNLoop_firstRun hn h
    have hpos := hfirst.pos
    have hle := hfirst.le
    have haddr : (e - (n - 1)) * blkSz % 2 ^ 32 = 4096 * (e + 1 - n) := by unfold blkSz; omega
    have hyes : ∃ s, FreeRun p n s := ⟨_, hfirst.toFreeRun⟩
    refine ⟨fun _ => ⟨_, hfirst, haddr, hbs, fun b => ?_⟩, ?_, fun hno => absurd hyes hno, hone⟩
    · have hin : e + 1 - n ≤ b ∧ b < e + 1 - n + n ↔ e + 1 - n ≤ b ∧ b ≤ e := by omega
      rw [hin]
      exact isSet_backfill b e n p.bitmap (by omega)
    · show (e - (n - 1)) * blkSz % 2 ^ 32 = 0 ↔ _
      rw [haddr]
      exact ⟨fun h0 => by omega, fun hno => absurd hyes hno⟩

/-- In a bitmap with blocks 1 and 3 taken, two blocks are found at 4 and not at 2. -/
theorem allocFirstNBlocks_skips :
    ∃ s, FirstRun ⟨fun _ => 0x0A#8, 16⟩ 2 s ∧
      (allocFirstNBlocks ⟨fun _ => 0x0A#8, 16⟩ 2).1 = 4096 * s ∧ s = 4 := by
  have hrun : FreeRun ⟨fun _ => 0x0A#8, 16⟩ 2 4 := by
    refine ⟨by omega, by omega, by decide, fun j h1 h2 => ?_⟩
    obtain rfl | rfl : j = 4 ∨ j = 5 := by omega
    · rfl
    · rfl
  obtain ⟨s, hs, haddr, _⟩ :=
    (allocFirstNBlocks_firstFit ⟨fun _ => 0x0A#8, 16⟩ (by decide) 2 (by omega)).1 ⟨4, hrun⟩
  have h4 : (allocFirstNBlocks ⟨fun _ => 0x0A#8, 16⟩ 2).1 = 4096 * 4 := by decide
  rw [h4] at haddr
  exact ⟨s, hs, by rw [h4, haddr], by omega⟩

end Pmm
end Frod
