/-!
# Frod.Lib.Interleave

Parties that share a state and take their turns in any order.

A system is a step function `π → σ → σ`, the turn of a party; a party that has to wait uses its turn
to look again. `run` is a finite schedule and `upTo` the first turns of an infinite one. `invariant`
is the rule for what holds at all times. `fair_reaches` is the rule for what happens in the end: if
a turn changes nothing or lowers a measure, and in a state that is not final some party's turn
lowers it, then a schedule in which no party is left out reaches a final state.
-/

namespace Frod
namespace Interleave

variable {π σ : Type} {step : π → σ → σ}

/-- The turns of a finite schedule. -/
def run (step : π → σ → σ) : σ → List π → σ
  | s, [] => s
  | s, p :: ps => run step (step p s) ps

/-- The first `n` turns of an infinite schedule. -/
def upTo (step : π → σ → σ) (s : σ) (sched : Nat → π) : Nat → σ
  | 0 => s
  | n + 1 => step (sched n) (upTo step s sched n)

/-- Every party gets a turn again and again. -/
def Fair (sched : Nat → π) : Prop := ∀ p n, ∃ m, n ≤ m ∧ sched m = p

theorem run_append (s : σ) (ps qs : List π) :
    run step s (ps ++ qs) = run step (run step s ps) qs := by
  induction ps generalizing s with
  | nil => rfl
  | cons p ps ih => exact ih (step p s)

/-- What every turn keeps, every schedule keeps. -/
theorem invariant {I : σ → Prop} (hstep : ∀ p s, I s → I (step p s)) :
    ∀ {ps : List π} {s : σ}, I s → I (run step s ps) := by
  intro ps
  induction ps with
  | nil => intro s h; exact h
  | cons p ps ih => intro s h; exact ih (hstep p s h)

theorem invariant_upTo {I : σ → Prop} (hstep : ∀ p s, I s → I (step p s)) {s : σ}
    {sched : Nat → π} (h : I s) : ∀ n, I (upTo step s sched n) := by
  intro n
  induction n with
  | zero => exact h
  | succ n ih => exact hstep _ _ ih

/-- Up to a later turn the measure has become smaller, or nothing has changed. -/
theorem lower_or_same {I : σ → Prop} {f : σ → Nat} (hI : ∀ p s, I s → I (step p s))
    (hle : ∀ p s, I s → step p s = s ∨ f (step p s) < f s) {s : σ} {sched : Nat → π} (h : I s)
    (n k : Nat) :
    upTo step s sched (n + k) = upTo step s sched n ∨
      f (upTo step s sched (n + k)) < f (upTo step s sched n) := by
  induction k with
  | zero => exact .inl rfl
  | succ k ih =>
    have hI' : I (upTo step s sched (n + k)) := invariant_upTo hI h (n + k)
    have hturn := hle (sched (n + k)) _ hI'
    rw [← Nat.add_assoc, upTo]
    rcases ih with hsame | hlow
    · rw [hsame] at hturn ⊢
      exact hturn
    · rcases hturn with hsame' | hlow'
      · rw [hsame']
        exact .inr hlow
      · exact .inr (Nat.lt_trans hlow' hlow)

/-- Under a fair schedule the system reaches a final state. -/
theorem fair_reaches {I Final : σ → Prop} {f : σ → Nat} (hI : ∀ p s, I s → I (step p s))
    (hle : ∀ p s, I s → step p s = s ∨ f (step p s) < f s)
    (hprog : ∀ s, I s → ¬ Final s → ∃ p, f (step p s) < f s) {s : σ} {sched : Nat → π} (h : I s)
    (hfair : Fair sched) : ∃ n, Final (upTo step s sched n) := by
  have hall : ∀ k n, f (upTo step s sched n) ≤ k → ∃ n, Final (upTo step s sched n) := by
    intro k
    induction k with
    | zero =>
      intro n hf
      refine Classical.byContradiction fun hno => ?_
      obtain ⟨p, hp⟩ := hprog _ (invariant_upTo hI h n) fun hfin => hno ⟨n, hfin⟩
      omega
    | succ k ih =>
      intro n hf
      by_cases hfin : Final (upTo step s sched n)
      · exact ⟨n, hfin⟩
      · obtain ⟨p, hp⟩ := hprog _ (invariant_upTo hI h n) hfin
        obtain ⟨m, hm, hturn⟩ := hfair p n
        obtain ⟨d, rfl⟩ := Nat.exists_eq_add_of_le hm
        rcases lower_or_same hI hle h n d with hsame | hlow
        · refine ih (n + d + 1) ?_
          rw [upTo, hturn, hsame]
          omega
        · exact ih (n + d) (by omega)
  exact hall _ 0 (Nat.le_refl _)

end Interleave
end Frod
