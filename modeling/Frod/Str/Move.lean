import Frod.Boot.Model

/-!
# Frod.Str.Move

`memcpy` and `memmove` of `lib/string.c` on ranges that may overlap.

`memcpy` copies upwards, one byte after the other, and `memmove` calls it. Where the destination
begins inside the source, `d` bytes above its start, the copy reads bytes it has written, and what
arrives are the first `d` bytes over and over (`memcpyLoop_copied`). Addresses are taken modulo
`2^32`, as is the distance `d`.
-/

namespace Frod
namespace Str

open Ram (memcpy memcpyLoop)

def memmove (m : Mem) (dst src num : Nat) : Mem := memcpy m dst src num

/-- How far `dst` is above `src`. -/
def dist (src dst : Nat) : Nat := (dst + 2 ^ 32 - src) % 2 ^ 32

/-- Each byte of the `num` from `src` on is the one `d` bytes further up among them. -/
def Repeats (m : Mem) (src num d : Nat) : Prop :=
  ∀ i, i + d < num → m ((src + (i + d)) % 2 ^ 32) = m ((src + i) % 2 ^ 32)

/-! ## The copy loop -/

/-- Memory after `i` bytes are copied: they are the first ones of the source over and over. Nothing
else has changed. -/
structure Copied (m₀ m : Mem) (dst src i : Nat) : Prop where
  copied : ∀ j < i, m ((dst + j) % 2 ^ 32) = m₀ ((src + j % dist src dst) % 2 ^ 32)
  outside : ∀ x, (∀ j < i, x ≠ (dst + j) % 2 ^ 32) → m x = m₀ x

section Loop

variable {m₀ m : Mem} {dst src i : Nat}

theorem dist_lt (src dst : Nat) : dist src dst < 2 ^ 32 := Nat.mod_lt _ (by decide)

theorem add_dist (hsrc : src < 2 ^ 32) (dst k : Nat) :
    (src + (k + dist src dst)) % 2 ^ 32 = (dst + k) % 2 ^ 32 := by
  unfold dist
  omega

/-- Before the copy comes to what it has written itself, counting with `% d` is counting. -/
theorem mod_of_not_le {i d : Nat} (h : ¬ (0 < d ∧ d ≤ i)) : i % d = i := by
  rcases Nat.eq_zero_or_pos d with rfl | hpos
  · exact Nat.mod_zero i
  · exact Nat.mod_eq_of_lt (by omega)

theorem Copied.start (m : Mem) (dst src : Nat) : Copied m m dst src 0 :=
  ⟨fun _ hj => absurd hj (Nat.not_lt_zero _), fun _ _ => rfl⟩

/-- What the loop reads next. Counting with `% dist` also covers the distance 0. -/
theorem Copied.read (h : Copied m₀ m dst src i) (hsrc : src < 2 ^ 32) (hi : i < 2 ^ 32) :
    m ((src + i) % 2 ^ 32) = m₀ ((src + i % dist src dst) % 2 ^ 32) := by
  have hd := dist_lt src dst
  by_cases hlt : 0 < dist src dst ∧ dist src dst ≤ i
  · -- the byte was written before
    have hread : (src + i) % 2 ^ 32 = (dst + (i - dist src dst)) % 2 ^ 32 := by
      rw [← add_dist hsrc dst, Nat.sub_add_cancel hlt.2]
    rw [hread, h.copied _ (by omega), ← Nat.mod_eq_sub_mod hlt.2]
  · rw [mod_of_not_le hlt]
    refine h.outside _ fun j hj heq => ?_
    rw [← add_dist hsrc dst] at heq
    omega

theorem Copied.step (h : Copied m₀ m dst src i) (hsrc : src < 2 ^ 32) (hi : i < 2 ^ 32) :
    Copied m₀ (Function.update m ((dst + i) % 2 ^ 32) (m ((src + i) % 2 ^ 32))) dst src (i + 1) := by
  constructor
  · intro j hj
    by_cases hji : j = i
    · subst hji
      rw [Function.update_self, h.read hsrc hi]
    · have hne : (dst + j) % 2 ^ 32 ≠ (dst + i) % 2 ^ 32 := by omega
      rw [Function.update_of_ne hne]
      exact h.copied j (by omega)
  · intro x hx
    rw [Function.update_of_ne (hx i (Nat.lt_succ_self i))]
    exact h.outside x fun j hj => hx j (by omega)

theorem memcpyLoop_copied (hsrc : src < 2 ^ 32) : ∀ {n i : Nat} {m : Mem}, Copied m₀ m dst src i →
    i + n ≤ 2 ^ 32 → Copied m₀ (memcpyLoop dst src n i m) dst src (i + n) := by
  intro n
  induction n with
  | zero => intro i m h _; exact h
  | succ n ih =>
    intro i m h hn
    rw [memcpyLoop, ← Nat.add_assoc, Nat.add_right_comm]
    exact ih (h.step hsrc (by omega)) (by omega)

end Loop

theorem memcpy_copied {m : Mem} {dst src num : Nat} (hdst : dst ≠ 0) (hsrc : src ≠ 0)
    (hlt : src < 2 ^ 32) (hnum : num < 2 ^ 32) : Copied m (memcpy m dst src num) dst src num := by
  have h := memcpyLoop_copied hlt (Copied.start m dst src) (n := num) (by omega)
  rw [Nat.zero_add] at h
  rw [memcpy, if_neg (not_or.mpr ⟨hdst, hsrc⟩)]
  exact h

/-! ## `memmove` -/

theorem repeats_iff {m : Mem} {src num d : Nat} : Repeats m src num d ↔
    ∀ i < num, m ((src + i % d) % 2 ^ 32) = m ((src + i) % 2 ^ 32) := by
  constructor
  · intro h i
    induction i using Nat.strongRecOn with
    | ind i ih =>
      intro hi
      by_cases hd : 0 < d ∧ d ≤ i
      · rw [Nat.mod_eq_sub_mod hd.2, ih (i - d) (by omega) (by omega), ← h (i - d) (by omega),
          Nat.sub_add_cancel hd.2]
      · rw [mod_of_not_le hd]
  · intro h i hi
    rw [← h (i + d) hi, Nat.add_mod_right, h i (by omega)]

/-- The destination holds what the source held, and no other byte has changed. -/
def Moves (m : Mem) (dst src num : Nat) : Prop :=
  (∀ i < num, memmove m dst src num ((dst + i) % 2 ^ 32) = m ((src + i) % 2 ^ 32)) ∧
  ∀ x, (∀ i < num, x ≠ (dst + i) % 2 ^ 32) → memmove m dst src num x = m x

/-- `memmove` moves its bytes exactly when the destination does not begin inside the source, above
its start, or the source repeats itself at that distance. -/
theorem moves_iff {m : Mem} {dst src num : Nat} (hdst : dst ≠ 0) (hsrc : src ≠ 0)
    (hlt : src < 2 ^ 32) (hnum : num < 2 ^ 32) : Moves m dst src num ↔
      dist src dst = 0 ∨ num ≤ dist src dst ∨ Repeats m src num (dist src dst) := by
  have hcopied := memcpy_copied (m := m) hdst hsrc hlt hnum
  have hrep : Repeats m src num (dist src dst) ↔ Moves m dst src num := by
    rw [repeats_iff]
    constructor
    · intro h
      refine ⟨fun i hi => ?_, hcopied.outside⟩
      rw [memmove, hcopied.copied i hi, h i hi]
    · rintro ⟨h, _⟩ i hi
      rw [← hcopied.copied i hi]
      exact h i hi
  constructor
  · exact fun h => .inr (.inr (hrep.mpr h))
  · rintro (h0 | hle | h)
    · refine hrep.mp fun i _ => ?_
      rw [h0, Nat.add_zero]
    · exact hrep.mp fun i hi => by omega
    · exact hrep.mp h

/-- The bytes 1, 2, 3 at 0x100. -/
def threeBytes : Mem :=
  fun x => if x = 0x100 then 1 else if x = 0x101 then 2 else if x = 0x102 then 3 else 0

/-- A move down over the source's own start. -/
theorem moves_iff_down : Moves threeBytes 0xFF 0x100 3 := by
  exact (moves_iff (by decide) (by decide) (by decide) (by decide)).mpr (.inr (.inl (by decide)))

/-- A move up by one byte: all three are the first one. -/
theorem not_moves_up : ¬ Moves threeBytes 0x101 0x100 3 := by
  rintro ⟨h, _⟩
  exact absurd (h 1 (by decide)) (by decide)

end Str
end Frod
