import Mathlib.Data.List.Range

/-!
# Frod.Lib.Countdown

Loops that count down in fixed steps, `for(i = top; i >= limit; i -= g)`, on unsigned numbers below
`N`.

Unsigned numbers wrap around below 0, so the loop ends only if it meets a number below `limit` before
that: if the last number it can reach, `top % g`, is one (`countdown_eq`). Otherwise it goes on for ever
(`countdown_stuck`).
-/

namespace Frod

section Countdown

variable {σ ε : Type}

/-- The loop with body `f`, given a number of iterations after which it counts as stuck. -/
def countdown (stuck : ε) (N g limit : Nat) (f : Nat → σ → Except ε σ) : Nat → Nat → σ → Except ε σ
  | 0, _, _ => .error stuck
  | n + 1, i, s =>
    if limit ≤ i then f i s >>= countdown stuck N g limit f n ((i + N - g) % N) else .ok s

/-- The numbers from `i` down to `limit` in steps of `g`. -/
def downTo (g limit i : Nat) : List Nat :=
  if limit ≤ i then (List.range ((i - limit) / g + 1)).map fun t => i - g * t else []

theorem downTo_of_lt {g limit i : Nat} (h : i < limit) : downTo g limit i = [] :=
  if_neg (Nat.not_le.mpr h)

theorem downTo_cons {g limit i : Nat} (hg : 0 < g) (h : limit ≤ i) (hi : g ≤ i) :
    downTo g limit i = i :: downTo g limit (i - g) := by
  rw [downTo, if_pos h, List.range_succ_eq_map, List.map_cons, List.map_map, Nat.mul_zero, Nat.sub_zero,
    downTo]
  congr 1
  by_cases hnext : limit ≤ i - g
  · have hdiv : (i - limit) / g = (i - g - limit) / g + 1 := by
      rw [show i - limit = i - g - limit + g by omega, Nat.add_div_right _ hg]
    rw [if_pos hnext, hdiv]
    refine List.map_congr_left fun t _ => ?_
    simp only [Function.comp_apply, Nat.mul_succ]
    omega
  · rw [if_neg hnext, Nat.div_eq_of_lt (by omega)]
    rfl

theorem mem_downTo {g limit top i : Nat} (hg : 0 < g) :
    i ∈ downTo g limit top ↔ limit ≤ i ∧ ∃ t, i + g * t = top := by
  by_cases h : limit ≤ top
  · rw [downTo, if_pos h]
    simp only [List.mem_map, List.mem_range, Nat.lt_succ_iff, Nat.le_div_iff_mul_le hg]
    constructor
    · rintro ⟨t, ht, rfl⟩
      rw [Nat.mul_comm] at ht
      exact ⟨by omega, t, by omega⟩
    · rintro ⟨hi, t, ht⟩
      refine ⟨t, ?_, by omega⟩
      rw [Nat.mul_comm]
      omega
  · rw [downTo_of_lt (by omega)]
    refine iff_of_false List.not_mem_nil ?_
    rintro ⟨hi, t, ht⟩
    omega

/-- They lie `g` apart. -/
theorem pairwise_downTo {g limit top : Nat} (hg : 0 < g) :
    (downTo g limit top).Pairwise fun i j => j + g ≤ i := by
  by_cases h : limit ≤ top
  · rw [downTo, if_pos h, List.pairwise_map]
    refine List.pairwise_lt_range.imp_of_mem fun {t t'} _ ht' hlt => ?_
    rw [List.mem_range, Nat.lt_succ_iff, Nat.le_div_iff_mul_le hg, Nat.mul_comm] at ht'
    have hmul : g * t + g ≤ g * t' := by
      rw [← Nat.mul_succ]
      exact Nat.mul_le_mul_left g hlt
    omega
  · rw [downTo_of_lt (by omega)]
    exact List.Pairwise.nil

/-- With a number below `limit` at its end the loop runs over `downTo`. -/
theorem countdown_eq {stuck : ε} {N g limit : Nat} (hg : 0 < g) (f : Nat → σ → Except ε σ) :
    ∀ {n i : Nat} {s : σ}, i < N → i / g < n → (limit ≤ i → i % g < limit) →
      countdown stuck N g limit f n i s = (downTo g limit i).foldlM (fun s i => f i s) s := by
  intro n
  induction n with
  | zero => intro i s _ hn _; exact absurd hn (Nat.not_lt_zero _)
  | succ n ih =>
    intro i s hN hn hend
    rw [countdown]
    by_cases h : limit ≤ i
    · have hle : g ≤ i := by
        by_contra hlt
        have hmod := hend h
        rw [Nat.mod_eq_of_lt (by omega)] at hmod
        omega
      have hdiv : (i - g) / g + 1 = i / g := by
        rw [← Nat.add_div_right _ hg, Nat.sub_add_cancel hle]
      have hmod : (i - g) % g = i % g := by
        rw [← Nat.mod_eq_sub_mod hle]
      have hstep : (i + N - g) % N = i - g := by
        rw [show i + N - g = i - g + N by omega, Nat.add_mod_right, Nat.mod_eq_of_lt (by omega)]
      rw [if_pos h, downTo_cons hg h hle, List.foldlM_cons, hstep]
      congr 1
      funext s
      refine ih (by omega) (by omega) fun hnext => ?_
      rw [hmod]
      exact hend (by omega)
    · rw [if_neg h, downTo_of_lt (by omega)]
      rfl

/-- Without one it does not return. -/
theorem countdown_stuck {stuck : ε} {N g limit : Nat} (hpos : 0 < N) (hN : g ∣ N) (f : Nat → σ → Except ε σ) :
    ∀ {n i : Nat} {s s' : σ}, limit ≤ i % g → countdown stuck N g limit f n i s ≠ .ok s' := by
  intro n
  induction n with
  | zero => intro i s s' _ h; cases h
  | succ n ih =>
    intro i s s' hlimit h
    have hle : limit ≤ i := hlimit.trans (Nat.mod_le i g)
    rw [countdown, if_pos hle] at h
    cases hf : f i s with
    | error e =>
      rw [hf] at h
      cases h
    | ok s₁ =>
      rw [hf] at h
      have hmod : (i + N - g) % N % g = i % g := by
        have hle : g ≤ N := Nat.le_of_dvd hpos hN
        obtain ⟨k, hk⟩ := Nat.dvd_sub hN (Nat.dvd_refl g)
        rw [Nat.mod_mod_of_dvd _ hN, Nat.add_sub_assoc hle, hk, Nat.add_mul_mod_self_left]
      refine ih ?_ h
      rw [hmod]
      exact hlimit

end Countdown
end Frod
