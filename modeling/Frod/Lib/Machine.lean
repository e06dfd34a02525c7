/-!
# Frod.Lib.Machine

Deterministic machines with outputs, and refinement between them.

A machine is its step function `σ → ι → Except ε (ο × σ)`: from a state and an input, an output and
the next state, or a reason to stop. `runAll` feeds it a list of inputs. A specification is a total
step function `α → ι → ο × α`. `simulation` is the rule the refinement proofs use: a relation kept
by every admissible step, with equal outputs, is kept by every admissible run, with equal outputs.
`always_iff` is the rule for conditions on runs that are exact.
-/

namespace Frod
namespace Machine

variable {σ α ι ο ε : Type}

/-- Feed `is` to the machine from `s`, collecting the outputs. -/
def runAll (step : σ → ι → Except ε (ο × σ)) : σ → List ι → Except ε (List ο × σ)
  | s, [] => .ok ([], s)
  | s, i :: is =>
    match step s i with
    | .error e => .error e
    | .ok (o, s') =>
      match runAll step s' is with
      | .error e => .error e
      | .ok (os, s'') => .ok (o :: os, s'')

/-- Every input satisfies `pre` in the state the machine gives it to. -/
def Admissible (pre : σ → ι → Prop) (step : σ → ι → Except ε (ο × σ)) : σ → List ι → Prop
  | _, [] => True
  | s, i :: is => pre s i ∧ ∀ o s', step s i = .ok (o, s') → Admissible pre step s' is

/-- `P` holds in every state of the run. -/
def Always (P : σ → Prop) (step : σ → ι → Except ε (ο × σ)) : σ → List ι → Prop
  | s, [] => P s
  | s, i :: is => P s ∧ ∀ o s', step s i = .ok (o, s') → Always P step s' is

/-- The specification's outputs and final state on `is`. -/
def specAll (spec : α → ι → ο × α) : α → List ι → List ο × α
  | a, [] => ([], a)
  | a, i :: is => ((spec a i).1 :: (specAll spec (spec a i).2 is).1, (specAll spec (spec a i).2 is).2)

theorem simulation {pre : σ → ι → Prop} {step : σ → ι → Except ε (ο × σ)} {spec : α → ι → ο × α}
    {R : σ → α → Prop}
    (hstep : ∀ s a i, R s a → pre s i → ∃ s', step s i = .ok ((spec a i).1, s') ∧ R s' (spec a i).2) :
    ∀ (is : List ι) (s : σ) (a : α), R s a → Admissible pre step s is →
      ∃ s', runAll step s is = .ok ((specAll spec a is).1, s') ∧ R s' (specAll spec a is).2 := by
  intro is
  induction is with
  | nil => intro s a hR _; exact ⟨s, rfl, hR⟩
  | cons i is ih =>
    intro s a hR hadm
    obtain ⟨s1, h1, hR1⟩ := hstep s a i hR hadm.1
    obtain ⟨s2, h2, hR2⟩ := ih s1 (spec a i).2 hR1 (hadm.2 _ _ h1)
    exact ⟨s2, by simp only [runAll, h1, h2, specAll], hR2⟩

/-- Two machines whose steps agree, with equal outputs or equal reasons to stop, agree on every run. -/
theorem agreement {valid : ι → Prop} {step : σ → ι → Except ε (ο × σ)}
    {step' : α → ι → Except ε (ο × α)} {R : σ → α → Prop}
    (hstep : ∀ s a i, R s a → valid i →
      (∃ o s' a', step s i = .ok (o, s') ∧ step' a i = .ok (o, a') ∧ R s' a') ∨
        ∃ e, step s i = .error e ∧ step' a i = .error e) :
    ∀ (is : List ι) (s : σ) (a : α), R s a → (∀ i ∈ is, valid i) →
      (∃ os s' a', runAll step s is = .ok (os, s') ∧ runAll step' a is = .ok (os, a') ∧ R s' a') ∨
        ∃ e, runAll step s is = .error e ∧ runAll step' a is = .error e := by
  intro is
  induction is with
  | nil => intro s a hR _; exact .inl ⟨[], s, a, rfl, rfl, hR⟩
  | cons i is ih =>
    intro s a hR hvalid
    rcases hstep s a i hR (hvalid i List.mem_cons_self) with ⟨o, s₁, a₁, h, h', hR₁⟩ | ⟨e, h, h'⟩
    · rcases ih s₁ a₁ hR₁ (fun j hj => hvalid j (List.mem_cons_of_mem i hj)) with
        ⟨os, s₂, a₂, hs, ha, hR₂⟩ | ⟨e, hs, ha⟩
      · exact .inl ⟨o :: os, s₂, a₂, by simp only [runAll, h, hs], by simp only [runAll, h', ha], hR₂⟩
      · exact .inr ⟨e, by simp only [runAll, h, hs], by simp only [runAll, h', ha]⟩
    · exact .inr ⟨e, by simp only [runAll, h], by simp only [runAll, h']⟩

theorem ok_bind {β γ : Type} (b : β) (f : β → Except ε γ) : (Except.ok b >>= f) = f b := rfl

/-- A computation that returns has returned at its first step, and then from there. -/
theorem bind_eq_ok {β γ : Type} {x : Except ε β} {f : β → Except ε γ} {c : γ} :
    x >>= f = .ok c ↔ ∃ b, x = .ok b ∧ f b = .ok c := by
  cases x with
  | error e =>
    constructor
    · intro h; cases h
    · rintro ⟨_, h, _⟩; cases h
  | ok b =>
    constructor
    · intro h; exact ⟨b, rfl, h⟩
    · rintro ⟨_, h, hf⟩; cases h; exact hf

theorem ok_inj {β γ : Type} {x : Except ε (β × γ)} {b b' : β} {c c' : γ} (h : x = .ok (b, c))
    (h' : x = .ok (b', c')) : b = b' ∧ c = c' :=
  Prod.mk.inj (Except.ok.inj (h.symm.trans h'))

theorem runAll_cons {step : σ → ι → Except ε (ο × σ)} {s s' : σ} {i : ι} {is : List ι} {os : List ο}
    (h : runAll step s (i :: is) = .ok (os, s')) :
    ∃ o s₁ os', os = o :: os' ∧ step s i = .ok (o, s₁) ∧ runAll step s₁ is = .ok (os', s') := by
  rw [runAll] at h
  split at h
  · cases h
  · rename_i o s₁ h₁
    split at h
    · cases h
    · rename_i os' s₂ h₂
      cases h
      exact ⟨o, s₁, os', rfl, h₁, h₂⟩

theorem runAll_cons_of {step : σ → ι → Except ε (ο × σ)} {s s₁ s' : σ} {i : ι} {is : List ι} {o : ο}
    {os : List ο} (h₁ : step s i = .ok (o, s₁)) (h : runAll step s₁ is = .ok (os, s')) :
    runAll step s (i :: is) = .ok (o :: os, s') := by
  simp only [runAll, h₁, h]

theorem runAll_append {step : σ → ι → Except ε (ο × σ)} : ∀ {is js : List ι} {s s₁ s₂ : σ}
    {os os' : List ο}, runAll step s is = .ok (os, s₁) → runAll step s₁ js = .ok (os', s₂) →
      runAll step s (is ++ js) = .ok (os ++ os', s₂) := by
  intro is
  induction is with
  | nil => intro js s s₁ s₂ os os' h h'; cases h; exact h'
  | cons i is ih =>
    intro js s s₁ s₂ os os' h h'
    obtain ⟨o, s₀, os₀, rfl, hstep, hrun⟩ := runAll_cons h
    exact runAll_cons_of hstep (ih hrun h')

/-- An output for each input. -/
theorem runAll_length {step : σ → ι → Except ε (ο × σ)} : ∀ {is : List ι} {s s' : σ} {os : List ο},
    runAll step s is = .ok (os, s') → os.length = is.length := by
  intro is
  induction is with
  | nil => intro s s' os h; cases h; rfl
  | cons i is ih =>
    intro s s' os h
    obtain ⟨o, s₀, os₀, rfl, _, hrun⟩ := runAll_cons h
    rw [List.length_cons, List.length_cons, ih hrun]

theorem Admissible.cons_of {pre : σ → ι → Prop} {step : σ → ι → Except ε (ο × σ)} {s s₁ : σ} {i : ι}
    {is : List ι} {o : ο} (hp : pre s i) (h₁ : step s i = .ok (o, s₁))
    (h : Admissible pre step s₁ is) : Admissible pre step s (i :: is) := by
  refine ⟨hp, fun o' s' h' => ?_⟩
  rw [h₁] at h'
  cases h'
  exact h

theorem Admissible.imp {pre pre' : σ → ι → Prop} {step : σ → ι → Except ε (ο × σ)} :
    ∀ {is : List ι} {s : σ}, (∀ s, ∀ i ∈ is, pre s i → pre' s i) → Admissible pre step s is →
      Admissible pre' step s is := by
  intro is
  induction is with
  | nil => intro s _ _; trivial
  | cons i is ih =>
    intro s himp h
    refine ⟨himp s i (by simp) h.1, fun o s' hs => ?_⟩
    exact ih (fun s j hj => himp s j (by simp [hj])) (h.2 o s' hs)

theorem Always.head {P : σ → Prop} {step : σ → ι → Except ε (ο × σ)} {s : σ} {is : List ι}
    (h : Always P step s is) : P s := by
  cases is with
  | nil => exact h
  | cons i is => exact h.1

/-- What every admissible step keeps, every admissible run keeps. -/
theorem invariant {pre : σ → ι → Prop} {step : σ → ι → Except ε (ο × σ)} {I : σ → Prop}
    (hstep : ∀ s i o s', I s → pre s i → step s i = .ok (o, s') → I s') :
    ∀ (is : List ι) {s s' : σ} {os : List ο}, I s → Admissible pre step s is →
      runAll step s is = .ok (os, s') → I s' := by
  intro is
  induction is with
  | nil => intro s s' os hI _ h; simp only [runAll] at h; cases h; exact hI
  | cons i is ih =>
    intro s s' os hI hadm h
    obtain ⟨o, s₁, _, _, h₁, h₂⟩ := runAll_cons h
    exact ih (hstep s i o s₁ hI hadm.1 h₁) (hadm.2 o s₁ h₁) h₂

/-- The inputs of a run that returns are given to steps that return. -/
theorem Admissible.returns {pre : σ → ι → Prop} {step : σ → ι → Except ε (ο × σ)} :
    ∀ {is : List ι} {s s' : σ} {os : List ο}, Admissible pre step s is →
      runAll step s is = .ok (os, s') →
      Admissible (fun s i => pre s i ∧ ∃ o s', step s i = .ok (o, s')) step s is := by
  intro is
  induction is with
  | nil => intro s s' os _ _; trivial
  | cons i is ih =>
    intro s s' os hadm h
    obtain ⟨o, s₁, _, _, h₁, h₂⟩ := runAll_cons h
    exact .cons_of ⟨hadm.1, o, s₁, h₁⟩ h₁ (ih (hadm.2 o s₁ h₁) h₂)

/-- The rule for an exact condition on runs. `I` gives `P` and is kept by every step that meets `Q`,
and a step that does not meet `Q` returns and leaves `P`. -/
theorem always_iff {pre Q : σ → ι → Prop} {step : σ → ι → Except ε (ο × σ)} {I P : σ → Prop}
    (hP : ∀ s, I s → P s)
    (hstep : ∀ s i o s', I s → pre s i → Q s i → step s i = .ok (o, s') → I s')
    (hleave : ∀ s i, I s → pre s i → ¬ Q s i → ∃ o s', step s i = .ok (o, s') ∧ ¬ P s') :
    ∀ {is : List ι} {s : σ}, I s → Admissible pre step s is →
      (Always P step s is ↔ Admissible Q step s is) := by
  intro is
  induction is with
  | nil => intro s hI _; exact ⟨fun _ => trivial, fun _ => hP s hI⟩
  | cons i is ih =>
    intro s hI hadm
    constructor
    · rintro ⟨_, hrest⟩
      have hQ : Q s i := by
        refine Classical.byContradiction fun hQ => ?_
        obtain ⟨o, s', hs, hnot⟩ := hleave s i hI hadm.1 hQ
        exact hnot (hrest o s' hs).head
      refine ⟨hQ, fun o s' hs => ?_⟩
      exact (ih (hstep s i o s' hI hadm.1 hQ hs) (hadm.2 o s' hs)).mp (hrest o s' hs)
    · rintro ⟨hQ, hrest⟩
      refine ⟨hP s hI, fun o s' hs => ?_⟩
      exact (ih (hstep s i o s' hI hadm.1 hQ hs) (hadm.2 o s' hs)).mpr (hrest o s' hs)

/-- What every admissible step from a state with `I` returns, every admissible run returns. -/
theorem outputs {pre : σ → ι → Prop} {step : σ → ι → Except ε (ο × σ)} {I : σ → Prop} {Q : ο → Prop}
    (hstep : ∀ s i o s', I s → pre s i → step s i = .ok (o, s') → I s' ∧ Q o) :
    ∀ (is : List ι) {s s' : σ} {os : List ο}, I s → Admissible pre step s is →
      runAll step s is = .ok (os, s') → ∀ o ∈ os, Q o := by
  intro is
  induction is with
  | nil => intro s s' os _ _ h o ho; simp only [runAll] at h; cases h; cases ho
  | cons i is ih =>
    intro s s' os hI hadm h
    obtain ⟨o, s₁, os', rfl, h₁, h₂⟩ := runAll_cons h
    obtain ⟨hI₁, hQ⟩ := hstep s i o s₁ hI hadm.1 h₁
    intro o' ho'
    rcases List.mem_cons.mp ho' with rfl | ho'
    · exact hQ
    · exact ih hI₁ (hadm.2 o s₁ h₁) h₂ o' ho'

/-- An input that returns and lowers the measure `f` as long as `P` holds is given until it fails. -/
theorem exists_replicate {pre : σ → ι → Prop} {step : σ → ι → Except ε (ο × σ)} {I P : σ → Prop}
    {i : ι} {f : σ → Nat}
    (hstep : ∀ s, I s → P s → pre s i ∧ ∃ o s', step s i = .ok (o, s') ∧ I s' ∧ f s' < f s) :
    ∀ {m : Nat} {s : σ}, I s → f s ≤ m → ∃ n os s', n ≤ m ∧
      Admissible pre step s (List.replicate n i) ∧
      runAll step s (List.replicate n i) = .ok (os, s') ∧ I s' ∧ ¬ P s' := by
  intro m
  induction m with
  | zero =>
    intro s hI hf
    refine ⟨0, [], s, Nat.le_refl 0, trivial, rfl, hI, fun hP => ?_⟩
    obtain ⟨_, _, _, _, _, hlt⟩ := hstep s hI hP
    omega
  | succ m ih =>
    intro s hI hf
    by_cases hP : P s
    · obtain ⟨hpre, o, s₁, h₁, hI₁, hlt⟩ := hstep s hI hP
      obtain ⟨n, os, s', hn, hadm, hrun, hI', hP'⟩ := ih hI₁ (by omega)
      exact ⟨n + 1, o :: os, s', by omega, .cons_of hpre h₁ hadm, runAll_cons_of h₁ hrun, hI', hP'⟩
    · exact ⟨0, [], s, by omega, trivial, rfl, hI, hP⟩

/-- What every step keeps, every run keeps. -/
theorem runAll_keeps {step : σ → ι → Except ε (ο × σ)} {I : σ → Prop}
    (hstep : ∀ s i o s', I s → step s i = .ok (o, s') → I s') {is : List ι} {s s' : σ} {os : List ο}
    (hI : I s) (h : runAll step s is = .ok (os, s')) : I s' := by
  have hadm : ∀ (is : List ι) (s : σ), Admissible (fun _ _ => True) step s is := by
    intro is
    induction is with
    | nil => intro s; trivial
    | cons i is ih => intro s; exact ⟨trivial, fun _ s' _ => ih s'⟩
  exact invariant (fun s i o s' hI _ => hstep s i o s' hI) is hI (hadm is s) h

end Machine
end Frod
