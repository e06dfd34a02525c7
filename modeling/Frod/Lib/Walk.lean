import Mathlib.Computability.StateTransition

/-!
# Frod.Lib.Walk

Loops as partial step functions `σ → Option σ`: `none` says that the loop makes no further pass.
What is reached is Mathlib's `StateTransition.Reaches`.

`Fuelled.returns_iff_ends` connects such a loop to a function that runs it on fuel.

A table of records is walked by the length each record gives. `Records` says of the lengths alone that
they lead through the table: such a walk ends and stays in the table (`Records.ends`,
`Records.inside`), and a walk that does has followed records (`records_of_ends`).
-/

namespace Frod

open StateTransition Relation

section Walk

variable {σ : Type} {f : σ → Option σ} {s : σ}

/-- The loop makes finitely many passes from `s` on. -/
def Ends (f : σ → Option σ) (s : σ) : Prop := ∃ t, Reaches f s t ∧ f t = none

/-- A property of `s` that every pass keeps holds wherever the loop comes. -/
theorem reaches_induction {P : σ → Prop} (hs : P s) (hstep : ∀ t u, P t → f t = some u → P u) {t : σ}
    (h : Reaches f s t) : P t := by
  induction h with
  | refl => exact hs
  | tail _ hu ih => exact hstep _ _ ih hu

theorem reaches_mono {g : σ → Option σ} (hsub : ∀ t u, f t = some u → g t = some u) {t : σ}
    (h : Reaches f s t) : Reaches g s t := ReflTransGen.mono hsub _ _ h

/-- A loop that steps on the spot does not end. -/
theorem not_ends_of_self (h : f s = some s) : ¬ Ends f s := by
  rintro ⟨t, ht, hnone⟩
  have hself : t = s := by
    refine reaches_induction (P := fun t => t = s) rfl (fun t u ht hu => ?_) ht
    rw [ht, h] at hu
    exact (Option.some.inj hu).symm
  rw [hself, h] at hnone
  cases hnone

/-- The loop run on fuel, by a function that carries more data than decides its way. -/
structure Fuelled {δ ρ ε : Type} (f : σ → Option σ) (run : Nat → σ → δ → Except ε ρ) : Prop where
  zero : ∀ t d, ∃ e, run 0 t d = .error e
  next : ∀ t u d, f t = some u → ∃ d', ∀ n, run (n + 1) t d = run n u d'
  done : ∀ t d, f t = none → ∃ r, ∀ n, run (n + 1) t d = .ok r

namespace Fuelled

variable {δ ρ ε : Type} {run : Nat → σ → δ → Except ε ρ}

theorem mono (h : Fuelled f run) {k : Nat} : ∀ {n : Nat} {s : σ} {d : δ} {r : ρ},
    run n s d = .ok r → run (n + k) s d = .ok r := by
  intro n
  induction n with
  | zero =>
    intro s d r hok
    obtain ⟨e, he⟩ := h.zero s d
    rw [he] at hok
    cases hok
  | succ n ih =>
    intro s d r hok
    rw [Nat.add_right_comm]
    cases hf : f s with
    | none =>
      obtain ⟨r', hr'⟩ := h.done s d hf
      rw [hr'] at hok ⊢
      exact hok
    | some u =>
      obtain ⟨d', hd'⟩ := h.next s u d hf
      rw [hd'] at hok ⊢
      exact ih hok

/-- With enough fuel the function returns exactly when the loop ends. -/
theorem returns_iff_ends (h : Fuelled f run) {d : δ} : (∃ n r, run n s d = .ok r) ↔ Ends f s := by
  constructor
  · rintro ⟨n, r, hok⟩
    induction n generalizing s d with
    | zero =>
      obtain ⟨e, he⟩ := h.zero s d
      rw [he] at hok
      cases hok
    | succ n ih =>
      cases hf : f s with
      | none => exact ⟨s, .refl, hf⟩
      | some u =>
        obtain ⟨d', hd'⟩ := h.next s u d hf
        rw [hd'] at hok
        obtain ⟨t, ht, hnone⟩ := ih hok
        exact ⟨t, .head hf ht, hnone⟩
  · rintro ⟨t, ht, hnone⟩
    induction ht using ReflTransGen.head_induction_on generalizing d with
    | refl =>
      obtain ⟨r, hr⟩ := h.done t d hnone
      exact ⟨1, r, hr 0⟩
    | head hu _ ih =>
      obtain ⟨d', hd'⟩ := h.next _ _ d hu
      obtain ⟨n, r, hok⟩ := @ih d'
      exact ⟨n + 1, r, (hd' n).trans hok⟩

end Fuelled
end Walk

/-! ## Tables of records -/

section Record

variable {next : Nat → Nat} {stop p : Nat}

/-- A walk over the records of a table from one to the next, up to `stop`. -/
def recordStep (next : Nat → Nat) (stop p : Nat) : Option Nat := if p < stop then some (next p) else none

theorem recordStep_eq_some {q : Nat} : recordStep next stop p = some q ↔ p < stop ∧ next p = q := by
  rw [recordStep]
  split
  · rename_i h
    rw [Option.some.injEq]
    exact ⟨fun hq => ⟨h, hq⟩, fun hq => hq.2⟩
  · rename_i h
    exact ⟨nofun, fun hq => absurd hq.1 h⟩

theorem recordStep_eq_none : recordStep next stop p = none ↔ stop ≤ p := by
  rw [recordStep]
  split
  · rename_i h
    exact ⟨nofun, fun hq => by omega⟩
  · rename_i h
    exact ⟨fun _ => by omega, fun _ => rfl⟩

end Record

section Records

variable {len : Nat → Nat} {h bound stop p q : Nat}

/-- From `p` up to `stop` there are records, one behind the other: each has its header of `h` bytes
before `stop`, and a length that is not 0 and leads to an address below `bound`. The last one may
reach beyond `stop`. -/
inductive Records (len : Nat → Nat) (h bound stop : Nat) : Nat → Prop
  | done {p : Nat} : stop ≤ p → Records len h bound stop p
  | record {p : Nat} : p + h ≤ stop → 0 < len p → p + len p < bound →
      Records len h bound stop (p + len p) → Records len h bound stop p

/-- The step from a record to the next, in arithmetic modulo `bound`. -/
def lengthStep (len : Nat → Nat) (bound stop : Nat) : Nat → Option Nat :=
  recordStep (fun p => (p + len p) % bound) stop

theorem Records.ends (hrec : Records len h bound stop p) : Ends (lengthStep len bound stop) p := by
  induction hrec with
  | done hstop => exact ⟨_, .refl, recordStep_eq_none.mpr hstop⟩
  | @record p _ _ hlt _ ih =>
    by_cases hp : p < stop
    · obtain ⟨t, ht, hnone⟩ := ih
      exact ⟨t, .head (recordStep_eq_some.mpr ⟨hp, Nat.mod_eq_of_lt hlt⟩) ht, hnone⟩
    · exact ⟨p, .refl, recordStep_eq_none.mpr (Nat.le_of_not_lt hp)⟩

/-- The walk comes to headers inside the table only. -/
theorem Records.inside (hrec : Records len h bound stop p)
    (hreach : Reaches (lengthStep len bound stop) p q) (hq : q < stop) : p ≤ q ∧ q + h ≤ stop := by
  induction hrec with
  | @done p hstop =>
    rcases ReflTransGen.cases_head hreach with rfl | ⟨u, hu, _⟩
    · omega
    · have := (recordStep_eq_some.mp hu).1
      omega
  | @record p hin _ hlt _ ih =>
    rcases ReflTransGen.cases_head hreach with rfl | ⟨u, hu, huq⟩
    · exact ⟨Nat.le_refl _, hin⟩
    · obtain ⟨_, rfl⟩ := recordStep_eq_some.mp hu
      rw [Nat.mod_eq_of_lt hlt] at huq
      have := ih huq
      exact ⟨by omega, this.2⟩

/-- A walk that ends and comes to headers before `stop` only has followed records, unless a length led
beyond `bound`. -/
theorem records_of_ends (hends : Ends (lengthStep len bound stop) p)
    (hin : ∀ q, Reaches (lengthStep len bound stop) p q → q < stop → q + h ≤ stop)
    (hlt : ∀ q, Reaches (lengthStep len bound stop) p q → q < stop → q + len q < bound) :
    Records len h bound stop p := by
  obtain ⟨t, ht, hnone⟩ := hends
  induction ht using ReflTransGen.head_induction_on with
  | refl => exact .done (recordStep_eq_none.mp hnone)
  | @head p q hq _ ih =>
    have hrec := ih (fun r hr => hin r (.head hq hr)) (fun r hr => hlt r (.head hq hr))
    obtain ⟨hp, rfl⟩ := recordStep_eq_some.mp hq
    have hbound := hlt p .refl hp
    rw [Nat.mod_eq_of_lt hbound] at hrec
    refine .record (hin p .refl hp) ?_ hbound hrec
    -- from a record of length 0 the walk would not get away
    by_contra h0
    rw [show p + len p = p by omega] at hrec
    cases hrec with
    | done hstop => omega
    | record _ hpos _ _ => omega

end Records
end Frod
