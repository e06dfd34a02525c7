import Frod.Lib.BitArray

/-!
# Frod.Pmm.Alloc

The physical memory manager of `sys/pmm.c`: one bit per 4 KB block, set when the block is taken.

Addresses and counters are `uint32_t` in the source; here they are `Nat`, reduced modulo `2^32`
where the source's arithmetic can wrap. Each function has one spec lemma, stated over block numbers:

* `allocFirst_spec`: `pmm_alloc_first` takes the lowest free block from 1 on, or changes nothing.
* `allocFirstNBlocks_spec`: `pmm_alloc_first_n_blocks` takes `n` consecutive free blocks, or
  changes nothing.
* `isSet_markMemTaken`, `isSet_free`: what the two remaining operations do to every bit.
-/

namespace Frod

/-- The globals `pmm_bitmap` and `pmm_bitmap_sz`. The bitmap is an object of its own: its bytes,
counted from its base. -/
structure Pmm where
  bitmap : BitArray
  bitmapSz : Nat

namespace Pmm

open BitArray

/-- `PMM_BLK_SZ`. -/
def blkSz : Nat := 4096

/-- `align_downwards(a,b)`. -/
def alignDownwards (a b : Nat) : Nat := a - a % b

/-- `align_upwards(a,b)`, in `uint32_t` arithmetic. -/
def alignUpwards (a b : Nat) : Nat := if a % b ≠ 0 then (a / b * b + b) % 2 ^ 32 else a

/-- `pmm_is_taken`. -/
def isTaken (p : Pmm) (block : Nat) : Bool := isSet p.bitmap block

/-- The loop of `pmm_alloc_first` at index `i`, with `n` iterations left. -/
def allocFirstLoop (a : BitArray) : Nat → Nat → Option Nat
  | 0, _ => none
  | n + 1, i => if isSet a i then allocFirstLoop a n (i + 1) else some i

/-- `pmm_alloc_first`. Address 0 is `NULL`. -/
def allocFirst (p : Pmm) : Nat × Pmm :=
  match allocFirstLoop p.bitmap (p.bitmapSz - 1) 1 with
  | some i => (i * blkSz % 2 ^ 32, { p with bitmap := set p.bitmap i })
  | none => (0, p)

/-- `pmm_free`. -/
def free (p : Pmm) (block : Nat) : Pmm := { p with bitmap := unset p.bitmap (block / blkSz) }

/-- The inner loop of `pmm_alloc_first_n_blocks`, which sets the bits of the run ending at `i`
while `found` counts down. -/
def backfill (a : BitArray) (i : Nat) : Nat → BitArray
  | 0 => a
  | found + 1 => backfill (set a (i - found)) i found

/-- The outer loop of `pmm_alloc_first_n_blocks` at index `i`, with `k` iterations left; the result
is the index at which `found` reached `n`. -/
def allocFirstNLoop (a : BitArray) (n : Nat) : Nat → Nat → Nat → Option Nat
  | 0, _, _ => none
  | k + 1, i, found =>
    if isSet a i then allocFirstNLoop a n k (i + 1) 0
    else if found + 1 = n then some i
    else allocFirstNLoop a n k (i + 1) (found + 1)

/-- `pmm_alloc_first_n_blocks`. -/
def allocFirstNBlocks (p : Pmm) (n : Nat) : Nat × Pmm :=
  match allocFirstNLoop p.bitmap n (p.bitmapSz - 1) 1 0 with
  | some i => ((i - (n - 1)) * blkSz % 2 ^ 32, { p with bitmap := backfill p.bitmap i n })
  | none => (0, p)

/-- `pmm_mark_mem_taken`. -/
def markMemTaken (p : Pmm) (start stop : Nat) : Pmm :=
  let i := alignDownwards start blkSz / blkSz
  let j := alignUpwards stop blkSz / blkSz
  { p with bitmap := setRange p.bitmap i (j - i) }

@[simp] theorem free_bitmapSz (p : Pmm) (b : Nat) : (p.free b).bitmapSz = p.bitmapSz := rfl

@[simp] theorem markMemTaken_bitmapSz (p : Pmm) (a b : Nat) :
    (p.markMemTaken a b).bitmapSz = p.bitmapSz := rfl

@[simp] theorem allocFirst_bitmapSz (p : Pmm) : p.allocFirst.2.bitmapSz = p.bitmapSz := by
  unfold allocFirst; split <;> rfl

@[simp] theorem allocFirstNBlocks_bitmapSz (p : Pmm) (n : Nat) :
    (p.allocFirstNBlocks n).2.bitmapSz = p.bitmapSz := by
  unfold allocFirstNBlocks; split <;> rfl

theorem isTaken_free (p : Pmm) (f b : Nat) :
    (p.free f).isTaken b = true ↔ b ≠ f / blkSz ∧ p.isTaken b = true :=
  isSet_unset p.bitmap (f / blkSz) b

/-! ## `pmm_alloc_first` -/

theorem allocFirstLoop_some {a : BitArray} {k : Nat} : ∀ {n i : Nat},
    allocFirstLoop a n i = some k →
      i ≤ k ∧ k < i + n ∧ isSet a k = false ∧ ∀ j, i ≤ j → j < k → isSet a j = true := by
  intro n
  induction n with
  | zero => intro i h; simp [allocFirstLoop] at h
  | succ n ih =>
    intro i h
    simp only [allocFirstLoop] at h
    split at h
    · rename_i hi
      obtain ⟨h1, h2, h3, h4⟩ := ih h
      refine ⟨by omega, by omega, h3, ?_⟩
      intro j hij hjk
      by_cases hj : j = i
      · rw [hj]; exact hi
      · exact h4 j (by omega) hjk
    · rename_i hi
      cases h
      exact ⟨Nat.le_refl _, by omega, by simpa using hi, fun j h1 h2 => absurd h2 (by omega)⟩

theorem allocFirstLoop_none {a : BitArray} : ∀ {n i : Nat},
    allocFirstLoop a n i = none → ∀ j, i ≤ j → j < i + n → isSet a j = true := by
  intro n
  induction n with
  | zero => intro i _ j h1 h2; omega
  | succ n ih =>
    intro i h j hij hj
    simp only [allocFirstLoop] at h
    split at h
    · rename_i hi
      by_cases hji : j = i
      · rw [hji]; exact hi
      · exact ih h j (by omega) (by omega)
    · cases h

/-- Block `k` is the lowest free block that `pmm_alloc_first` may hand out. -/
structure FirstFree (p : Pmm) (k : Nat) : Prop where
  pos : 1 ≤ k
  lt : k < p.bitmapSz
  clear : p.isTaken k = false
  below : ∀ j, 1 ≤ j → j < k → p.isTaken j = true

theorem FirstFree.ne_of_taken {p : Pmm} {k b : Nat} (h : FirstFree p k) (hb : p.isTaken b = true) :
    k ≠ b := by
  rintro rfl
  rw [h.clear] at hb
  cases hb

theorem FirstFree.unique {p : Pmm} {k k' : Nat} (h : FirstFree p k) (h' : FirstFree p k') : k = k' := by
  have hle : ∀ {i j : Nat}, FirstFree p i → FirstFree p j → i ≤ j := by
    intro i j hi hj
    exact Nat.le_of_not_lt fun hlt => hj.ne_of_taken (hi.below j hj.pos hlt) rfl
  exact Nat.le_antisymm (hle h h') (hle h' h)

/-- Some block other than 0 is free. -/
def HasFree (p : Pmm) : Prop := ∃ b, 1 ≤ b ∧ b < p.bitmapSz ∧ p.isTaken b = false

/-- `pmm_alloc_first` either takes the lowest free block, or returns `NULL` because none is free
and leaves the bitmap alone. -/
theorem allocFirst_spec (p : Pmm) :
    (∃ k, FirstFree p k ∧
      p.allocFirst = (k * blkSz % 2 ^ 32, { p with bitmap := set p.bitmap k })) ∨
    (¬ HasFree p ∧ p.allocFirst = (0, p)) := by
  unfold allocFirst
  cases h : allocFirstLoop p.bitmap (p.bitmapSz - 1) 1 with
  | some k =>
    obtain ⟨h1, h2, h3, h4⟩ := allocFirstLoop_some h
    exact .inl ⟨k, ⟨h1, by omega, h3, h4⟩, rfl⟩
  | none =>
    refine .inr ⟨?_, rfl⟩
    rintro ⟨b, hb1, hb2, hb3⟩
    have := allocFirstLoop_none h b hb1 (by omega)
    rw [isTaken] at hb3
    rw [hb3] at this
    cases this

theorem allocFirst_of_hasFree {p : Pmm} (h : HasFree p) :
    ∃ k, FirstFree p k ∧
      p.allocFirst = (k * blkSz % 2 ^ 32, { p with bitmap := set p.bitmap k }) := by
  rcases allocFirst_spec p with hk | ⟨hn, _⟩
  · exact hk
  · exact absurd h hn

theorem isTaken_set (p : Pmm) (k b : Nat) :
    isTaken { p with bitmap := set p.bitmap k } b = true ↔ b = k ∨ p.isTaken b = true :=
  isSet_set p.bitmap k b

/-! ## `pmm_alloc_first_n_blocks` -/

theorem isSet_backfill (c i : Nat) : ∀ (found : Nat) (a : BitArray), found ≤ i + 1 →
    (isSet (backfill a i found) c = true ↔ (i + 1 - found ≤ c ∧ c ≤ i) ∨ isSet a c = true) := by
  intro found
  induction found with
  | zero =>
    intro a _
    have : ¬ (i + 1 - 0 ≤ c ∧ c ≤ i) := by omega
    simp only [backfill, this, false_or]
  | succ f ih =>
    intro a hf
    have : i + 1 - (f + 1) ≤ c ∧ c ≤ i ↔ (i + 1 - f ≤ c ∧ c ≤ i) ∨ c = i - f := by omega
    rw [backfill, ih _ (by omega), isSet_set, this, or_assoc]

/-- The loop stops at the end of a run of `n` free blocks. The invariant is that the `found` blocks
before `i` are free and lie from block 1 on. -/
theorem allocFirstNLoop_some {a : BitArray} {n e : Nat} : ∀ {k i found : Nat},
    allocFirstNLoop a n k i found = some e → found < i → found < n →
      (∀ j, i - found ≤ j → j < i → isSet a j = false) →
      e < i + k ∧ n ≤ e ∧ ∀ j, e + 1 - n ≤ j → j ≤ e → isSet a j = false := by
  intro k
  induction k with
  | zero => intro i found h; simp [allocFirstNLoop] at h
  | succ k ih =>
    intro i found h hfi hfn hrun
    simp only [allocFirstNLoop] at h
    split at h
    · obtain ⟨h1, h2, h3⟩ := ih h (by omega) (by omega) (fun j h1 h2 => absurd h2 (by omega))
      exact ⟨by omega, h2, h3⟩
    · rename_i hi
      have hi : isSet a i = false := by simpa using hi
      have hrun' : ∀ j, i - found ≤ j → j ≤ i → isSet a j = false := by
        intro j hj1 hj2
        by_cases hji : j = i
        · rw [hji]; exact hi
        · exact hrun j hj1 (by omega)
      split at h
      · rename_i hn
        cases h
        exact ⟨by omega, by omega, fun j hj1 hj2 => hrun' j (by omega) hj2⟩
      · rename_i hn
        obtain ⟨h1, h2, h3⟩ := ih h (by omega) (by omega)
          (fun j hj1 hj2 => hrun' j (by omega) (by omega))
        exact ⟨by omega, h2, h3⟩

/-- `n = 0` is never reached by the count, so the loop runs to its end. -/
theorem allocFirstNLoop_zero (a : BitArray) : ∀ k i found, allocFirstNLoop a 0 k i found = none := by
  intro k
  induction k with
  | zero => intro i found; rfl
  | succ k ih =>
    intro i found
    simp only [allocFirstNLoop, ih]
    simp

/-- The `n` blocks from `s` on are free blocks that `pmm_alloc_first_n_blocks` may hand out. -/
structure FreeRun (p : Pmm) (n s : Nat) : Prop where
  len : 1 ≤ n
  pos : 1 ≤ s
  le : s + n ≤ p.bitmapSz
  clear : ∀ j, s ≤ j → j < s + n → p.isTaken j = false

/-- `pmm_alloc_first_n_blocks` either takes a run of `n` free blocks and changes no other bit, or
returns `NULL` and leaves the bitmap alone. -/
theorem allocFirstNBlocks_spec (p : Pmm) (n : Nat) :
    (∃ s, FreeRun p n s ∧ (p.allocFirstNBlocks n).1 = s * blkSz % 2 ^ 32 ∧
      ∀ b, (p.allocFirstNBlocks n).2.isTaken b = true ↔
        (s ≤ b ∧ b < s + n) ∨ p.isTaken b = true) ∨
    p.allocFirstNBlocks n = (0, p) := by
  unfold allocFirstNBlocks
  cases h : allocFirstNLoop p.bitmap n (p.bitmapSz - 1) 1 0 with
  | none => exact .inr rfl
  | some e =>
    have hn : 0 < n := by
      rcases Nat.eq_zero_or_pos n with h0 | h0
      · rw [h0, allocFirstNLoop_zero] at h; cases h
      · exact h0
    obtain ⟨h1, h2, h3⟩ := allocFirstNLoop_some h (by omega) hn (fun j h1 h2 => absurd h2 (by omega))
    refine .inl ⟨e + 1 - n, ⟨hn, by omega, by omega, fun j hj1 hj2 => h3 j hj1 (by omega)⟩, ?_, ?_⟩
    · simp only [show e - (n - 1) = e + 1 - n by omega]
    · intro b
      have : e + 1 - n ≤ b ∧ b < e + 1 - n + n ↔ e + 1 - n ≤ b ∧ b ≤ e := by omega
      rw [this]
      exact isSet_backfill b e n p.bitmap (by omega)

/-! ## `pmm_mark_mem_taken` -/

/-- First block that `pmm_mark_mem_taken(start, stop)` sets, and the first it does not. -/
def markLo (start : Nat) : Nat := alignDownwards start blkSz / blkSz
def markHi (stop : Nat) : Nat := alignUpwards stop blkSz / blkSz

theorem isTaken_markMemTaken (p : Pmm) (start stop b : Nat) :
    (p.markMemTaken start stop).isTaken b = true ↔
      (markLo start ≤ b ∧ b < markHi stop) ∨ p.isTaken b = true := by
  have h := isSet_setRange b (markHi stop - markLo start) p.bitmap (markLo start)
  have : (markLo start ≤ b ∧ b < markLo start + (markHi stop - markLo start)) ↔
      (markLo start ≤ b ∧ b < markHi stop) := by omega
  rw [this] at h
  exact h

theorem markLo_eq (start : Nat) : markLo start = start / 4096 := by
  unfold markLo alignDownwards blkSz; omega

theorem markHi_of_dvd {stop : Nat} (h : stop % 4096 = 0) : markHi stop = stop / 4096 := by
  simp [markHi, alignUpwards, blkSz, h]

end Pmm
end Frod
