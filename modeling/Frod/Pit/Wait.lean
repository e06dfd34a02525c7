import Mathlib.Data.List.Induction
import Frod.Layout

/-!
# Frod.Pit.Wait

`kwait` of `sys/pit.c` beside the timer interrupt.

`kwait` computes the value of `ticks` it waits for, modulo `2^32`, and compares `ticks` with it until
it is not below. A run is any interleaving of its tests with interrupts. The test only looks at the
current value of the counter, so it is misled when the counter has still to wrap around before the
deadline, and when it wraps around again before the test that should end the loop (`waits_iff`).
-/

namespace Frod
namespace Pit

/-- The counter, the local `end` of `kwait`, and whether `kwait` has returned. -/
structure Timer where
  ticks : Nat
  stop : Nat
  returned : Bool
  deriving DecidableEq

/-- The interrupt handler `increment_tick`, and one evaluation of the loop condition of `kwait`. -/
inductive Act where
  | incrementTick
  | test
  deriving DecidableEq

def step (s : Timer) : Act → Timer
  | .incrementTick => { s with ticks := (s.ticks + 1) % 2 ^ 32 }
  | .test => if s.returned ∨ s.ticks < s.stop then s else { s with returned := true }

/-- `kwait(nticks)` after its first statement. -/
def kwait (ticks nticks : Nat) : Timer := ⟨ticks, (ticks + nticks) % 2 ^ 32, false⟩

def run (ticks nticks : Nat) (as : List Act) : Timer := as.foldl step (kwait ticks nticks)

/-- The number of increments. -/
def increments (as : List Act) : Nat := as.count .incrementTick

/-- In the run `as`, `kwait` has not returned before `nticks` increments, and a test after them lets it
return. -/
def Waits (ticks nticks : Nat) (as : List Act) : Prop :=
  (∀ p q, as = p ++ q → (run ticks nticks p).returned = true → nticks ≤ increments p) ∧
  ∀ p q, as = p ++ .test :: q → nticks ≤ increments p →
    (run ticks nticks (p ++ [.test])).returned = true

/-- A test that comes before `nticks` increments does not come before the counter wraps around to the
deadline, and the first one after them comes before the counter is below the deadline again. -/
def InTime (ticks nticks : Nat) (as : List Act) : Prop :=
  ∀ p q, as = p ++ .test :: q →
    (increments p < nticks → ticks + nticks < 2 ^ 32 ∨ 2 ^ 32 ≤ ticks + increments p) ∧
    (nticks ≤ increments p → (∀ p' q', p = p' ++ .test :: q' → increments p' < nticks) →
      (increments p - nticks) % 2 ^ 32 < 2 ^ 32 - (ticks + nticks) % 2 ^ 32)

section Run

variable {ticks nticks : Nat} {as : List Act}

theorem run_append (p : List Act) (a : Act) :
    run ticks nticks (p ++ [a]) = step (run ticks nticks p) a := by
  simp [run, List.foldl_append]

theorem increments_append (p q : List Act) : increments (p ++ q) = increments p + increments q :=
  List.count_append

theorem increments_test (q : List Act) : increments (.test :: q) = increments q := by
  simp [increments]

theorem run_stop (as : List Act) : (run ticks nticks as).stop = (ticks + nticks) % 2 ^ 32 := by
  induction as using List.reverseRecOn with
  | nil => rfl
  | append_singleton as a ih =>
    rw [run_append]
    cases a with
    | incrementTick => exact ih
    | test =>
      rw [step]
      split
      · exact ih
      · exact ih

theorem run_ticks (hticks : ticks < 2 ^ 32) (as : List Act) :
    (run ticks nticks as).ticks = (ticks + increments as) % 2 ^ 32 := by
  induction as using List.reverseRecOn with
  | nil => exact (Nat.mod_eq_of_lt hticks).symm
  | append_singleton as a ih =>
    rw [run_append, increments_append]
    cases a with
    | incrementTick =>
      rw [step, ih]
      simp only [increments, List.count_singleton_self]
      omega
    | test =>
      rw [step]
      simp only [increments, List.count_singleton, beq_iff_eq, reduceCtorEq, if_false, Nat.add_zero]
      split
      · exact ih
      · exact ih

/-- The loop condition does not hold after `c` increments. -/
def Expired (ticks nticks c : Nat) : Prop := (ticks + nticks) % 2 ^ 32 ≤ (ticks + c) % 2 ^ 32

/-- A test in a run is its last action or comes before that. -/
theorem append_eq_test {as p q : List Act} {a : Act} : as ++ [a] = p ++ .test :: q ↔
    (∃ q', q = q' ++ [a] ∧ as = p ++ .test :: q') ∨ (q = [] ∧ as = p ∧ a = .test) := by
  constructor
  · intro h
    rcases List.eq_nil_or_concat q with rfl | ⟨q', b, rfl⟩
    · obtain ⟨h1, h2⟩ := List.append_inj' h rfl
      exact .inr ⟨rfl, h1, List.cons.inj h2 |>.1⟩
    · rw [List.concat_eq_append, ← List.cons_append, ← List.append_assoc] at h
      obtain ⟨h1, h2⟩ := List.append_inj' h rfl
      cases h2
      exact .inl ⟨q', List.concat_eq_append, h1⟩
  · rintro (⟨q', rfl, rfl⟩ | ⟨rfl, rfl, rfl⟩)
    · simp
    · rfl

/-- `kwait` has returned when some test found the deadline reached. -/
theorem returned_iff (hticks : ticks < 2 ^ 32) (as : List Act) :
    (run ticks nticks as).returned = true ↔
      ∃ p q, as = p ++ .test :: q ∧ Expired ticks nticks (increments p) := by
  induction as using List.reverseRecOn with
  | nil => simp [run, kwait]
  | append_singleton as a ih =>
    have hsplit : (∃ p q, as ++ [a] = p ++ .test :: q ∧ Expired ticks nticks (increments p)) ↔
        (run ticks nticks as).returned = true ∨ (a = .test ∧ Expired ticks nticks (increments as)) := by
      rw [ih]
      constructor
      · rintro ⟨p, q, h, hexp⟩
        rcases append_eq_test.mp h with ⟨q', _, h'⟩ | ⟨_, rfl, ha⟩
        · exact .inl ⟨p, q', h', hexp⟩
        · exact .inr ⟨ha, hexp⟩
      · rintro (⟨p, q, h, hexp⟩ | ⟨ha, hexp⟩)
        · exact ⟨p, q ++ [a], append_eq_test.mpr (.inl ⟨q, rfl, h⟩), hexp⟩
        · exact ⟨as, [], append_eq_test.mpr (.inr ⟨rfl, rfl, ha⟩), hexp⟩
    rw [hsplit, run_append]
    cases a with
    | incrementTick => simp [step]
    | test =>
      have hcond : (run ticks nticks as).ticks < (run ticks nticks as).stop ↔
          ¬ Expired ticks nticks (increments as) := by
        rw [run_ticks hticks, run_stop, Expired]
        exact Nat.not_le.symm
      rw [step]
      split
      · rename_i h
        rw [hcond] at h
        refine ⟨.inl, ?_⟩
        rintro (hret | ⟨_, hexp⟩)
        · exact hret
        · exact h.elim id (absurd hexp)
      · rename_i h
        rw [hcond, not_or, not_not] at h
        exact ⟨fun _ => .inr ⟨rfl, h.2⟩, fun _ => rfl⟩

/-- Before `nticks` increments the deadline is found reached when it is still to wrap around. -/
theorem expired_early {c : Nat} (hticks : ticks < 2 ^ 32) (hn : nticks < 2 ^ 32) (hc : c < nticks) :
    ¬ Expired ticks nticks c ↔ ticks + nticks < 2 ^ 32 ∨ 2 ^ 32 ≤ ticks + c := by
  unfold Expired
  omega

/-- After them it is found reached until the counter has come round to 0 again. -/
theorem expired_late {c : Nat} (hc : nticks ≤ c) :
    Expired ticks nticks c ↔ (c - nticks) % 2 ^ 32 < 2 ^ 32 - (ticks + nticks) % 2 ^ 32 := by
  unfold Expired
  omega

/-- Among the tests up to one after `nticks` increments there is a first one. -/
theorem exists_first_test : ∀ {k : Nat} {p : List Act}, p.length ≤ k → nticks ≤ increments p →
    ∃ p' q', p ++ [.test] = p' ++ .test :: q' ∧ nticks ≤ increments p' ∧
      ∀ p'' q'', p' = p'' ++ .test :: q'' → increments p'' < nticks := by
  intro k
  induction k with
  | zero =>
    intro p hk hle
    obtain rfl := List.length_eq_zero_iff.mp (Nat.le_zero.mp hk)
    exact ⟨[], [], rfl, hle, fun p'' q'' h => by simp at h⟩
  | succ k ih =>
    intro p hk hle
    by_cases hfirst : ∀ p'' q'', p = p'' ++ .test :: q'' → increments p'' < nticks
    · exact ⟨p, [], rfl, hle, hfirst⟩
    · simp only [not_forall, Nat.not_lt] at hfirst
      obtain ⟨p₁, q₁, rfl, hle₁⟩ := hfirst
      rw [List.length_append, List.length_cons] at hk
      obtain ⟨p', q', heq, hle', hmin⟩ := ih (show p₁.length ≤ k by omega) hle₁
      refine ⟨p', q' ++ (q₁ ++ [.test]), ?_, hle', hmin⟩
      calc p₁ ++ .test :: q₁ ++ [.test] = (p₁ ++ [.test]) ++ (q₁ ++ [.test]) := by simp
        _ = p' ++ .test :: (q' ++ (q₁ ++ [.test])) := by rw [heq]; simp

/-- `kwait` waits for `nticks` increments in exactly the runs whose tests come in time. -/
theorem waits_iff (hticks : ticks < 2 ^ 32) (hn : nticks < 2 ^ 32) (as : List Act) :
    Waits ticks nticks as ↔ InTime ticks nticks as := by
  constructor
  · rintro ⟨hearly, hprompt⟩ p q has
    refine ⟨fun hlt => ?_, fun hle hfirst => ?_⟩
    · refine (expired_early hticks hn hlt).mp fun hexp => ?_
      have hret : (run ticks nticks (p ++ [.test])).returned = true :=
        (returned_iff hticks _).mpr ⟨p, [], rfl, hexp⟩
      have hcount := hearly (p ++ [.test]) q (by simp [has]) hret
      rw [increments_append, increments_test] at hcount
      exact absurd hlt (Nat.not_lt.mpr hcount)
    · refine (expired_late hle).mp ?_
      obtain ⟨p', q', hp, hexp⟩ := (returned_iff hticks _).mp (hprompt p q has hle)
      rcases append_eq_test.mp hp with ⟨q'', rfl, hp'⟩ | ⟨_, rfl, _⟩
      · -- an earlier test that found the deadline reached came too early
        exfalso
        have hlt := hfirst p' q'' hp'
        have hret : (run ticks nticks (p' ++ [.test])).returned = true :=
          (returned_iff hticks _).mpr ⟨p', [], rfl, hexp⟩
        have hcount := hearly (p' ++ [.test]) (q'' ++ .test :: q) (by simp [has, hp']) hret
        rw [increments_append, increments_test] at hcount
        exact absurd hlt (Nat.not_lt.mpr hcount)
      · exact hexp
  · intro h
    constructor
    · rintro p q rfl hret
      obtain ⟨p', q', rfl, hexp⟩ := (returned_iff hticks _).mp hret
      by_contra hlt
      rw [increments_append, increments_test] at hlt
      have hearly := (h p' (q' ++ q) (by simp)).1 (by omega)
      exact (expired_early hticks hn (by omega)).mpr hearly hexp
    · intro p q has hle
      obtain ⟨p', q', heq, hle', hmin⟩ := exists_first_test (Nat.le_refl p.length) hle
      have has' : as = p' ++ .test :: (q' ++ q) := by
        calc as = (p ++ [.test]) ++ q := by rw [has]; simp
          _ = p' ++ .test :: (q' ++ q) := by rw [heq]; simp
      have hlate := (h p' (q' ++ q) has').2 hle' hmin
      exact (returned_iff hticks _).mpr ⟨p', q', heq, (expired_late hle').mpr hlate⟩

/-- Two ticks from 5, with a test after each. -/
theorem waits_iff_two : Waits 5 2 [.incrementTick, .test, .incrementTick, .test] := by
  refine (waits_iff (by decide) (by decide) _).mpr fun p q h => ⟨fun _ => .inl (by decide), ?_⟩
  intro hle _
  have hcount : increments p + increments q = 2 := by
    have := congrArg increments h
    rw [increments_append, increments_test] at this
    exact this.symm
  omega

/-- The counter is about to wrap around: the first test ends the loop. -/
theorem not_waits_wrap : ¬ Waits 0xFFFFFFFF 2 [.test] := by
  rintro ⟨h, _⟩
  exact absurd (h [.test] [] rfl (by decide)) (by decide)

end Run
end Pit
end Frod
