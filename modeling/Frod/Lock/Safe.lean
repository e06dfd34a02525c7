import Mathlib.Data.Finset.Max
import Mathlib.Algebra.Order.BigOperators.Group.Finset
import Frod.Lock.Model

/-!
# Frod.Lock.Safe

What the spinlock guarantees, for any number of processors and locks and in any order of turns.

`Sound` is the invariant: a lock is 1 exactly while one processor holds it. It needs only that
nobody releases a lock it does not hold. Processors that wait for each other wait for ever
(`deadlock_forever`); with the order of `lock.h` there are none, and every processor gets through
its program (`ordered_finish`).
-/

namespace Frod
namespace Lock

open Interleave

variable {cpu lock : Type} [DecidableEq cpu] [DecidableEq lock]

/-! ## The three kinds of turns -/

section Step

variable {s : State cpu lock} {c : cpu} {l : lock} {rest : List (Op lock)}

/-- The processor waits: it writes the 1 that is there. -/
theorem step_wait (h : s.todo c = .acquire l :: rest) (hl : (s.locks l).locked = 1) :
    s.step c = s := by
  have hsame : ({ s.locks l with locked := 1 } : Spinlock) = s.locks l := by
    rw [← hl]
  rw [State.step, h]
  simp only [State.spinlockAcquire, State.alock, hl, hsame, Function.update_eq_self]
  exact if_pos (by decide)

theorem step_take (h : s.todo c = .acquire l :: rest) (hl : (s.locks l).locked = 0) :
    s.step c = ⟨Function.update s.locks l { s.locks l with locked := 1 },
      Function.update s.todo c rest, Function.update s.held c (l :: s.held c)⟩ := by
  rw [State.step, h]
  simp only [State.spinlockAcquire, State.alock, hl]
  rfl

theorem step_drop (h : s.todo c = .release l :: rest) :
    s.step c = ⟨Function.update s.locks l { s.locks l with locked := 0 },
      Function.update s.todo c rest, Function.update s.held c ((s.held c).erase l)⟩ := by
  rw [State.step, h]
  rfl

theorem step_done (h : s.todo c = []) : s.step c = s := by
  rw [State.step, h]

end Step

/-! ## Mutual exclusion -/

structure Sound (s : State cpu lock) : Prop where
  value : ∀ l, (s.locks l).locked = 0 ∨ (s.locks l).locked = 1
  taken : ∀ l, (s.locks l).locked = 1 ↔ ∃ c, l ∈ s.held c
  one : ∀ l c c', l ∈ s.held c → l ∈ s.held c' → c = c'
  nodup : ∀ c, (s.held c).Nodup
  brackets : ∀ c, Bracketed (s.held c) (s.todo c)

omit [DecidableEq cpu] in
theorem Sound.free {s : State cpu lock} (h : Sound s) {l : lock} (hl : (s.locks l).locked = 0) (c : cpu) :
    l ∉ s.held c := by
  intro hc
  have h1 := (h.taken l).mpr ⟨c, hc⟩
  rw [hl] at h1
  cases h1

omit [DecidableEq cpu] in
theorem sound_start (id : lock → LockResource) {prog : cpu → List (Op lock)}
    (hp : ∀ c, Bracketed [] (prog c)) : Sound (start id prog) := by
  refine ⟨fun l => .inl rfl, fun l => ?_, fun l c c' hc => ?_, fun c => List.nodup_nil, hp⟩
  · constructor
    · intro h
      cases h
    · rintro ⟨c, hc⟩
      cases hc
  · cases hc

/-- A turn that changes whether the processor holds `l`, which no other processor does. -/
theorem Sound.change {s : State cpu lock} (h : Sound s) {c : cpu} {l : lock} {rest : List (Op lock)}
    {locked : Word} {held : List lock} (hothers : ∀ c', c' ≠ c → l ∉ s.held c')
    (hsame : ∀ l', l' ≠ l → (l' ∈ held ↔ l' ∈ s.held c)) (hvalue : locked = 0 ∨ locked = 1)
    (htaken : locked = 1 ↔ l ∈ held) (hnodup : held.Nodup) (hb : Bracketed held rest) :
    Sound ⟨Function.update s.locks l { s.locks l with locked := locked },
      Function.update s.todo c rest, Function.update s.held c held⟩ := by
  have hother : ∀ l' c', l' ≠ l → (l' ∈ Function.update s.held c held c' ↔ l' ∈ s.held c') := by
    intro l' c' hl'
    by_cases hc : c' = c
    · rw [hc, Function.update_self]
      exact hsame l' hl'
    · rw [Function.update_of_ne hc]
  have hself : ∀ c', l ∈ Function.update s.held c held c' ↔ c' = c ∧ l ∈ held := by
    intro c'
    by_cases hc : c' = c
    · rw [hc, Function.update_self, and_iff_right rfl]
    · rw [Function.update_of_ne hc]
      exact ⟨fun hm => absurd hm (hothers c' hc), fun hm => absurd hm.1 hc⟩
  refine ⟨fun l' => ?_, fun l' => ?_, fun l' c₁ c₂ h₁ h₂ => ?_, fun c' => ?_, fun c' => ?_⟩
  · by_cases hl' : l' = l
    · subst hl'
      simpa only [Function.update_self] using hvalue
    · simpa only [Function.update_of_ne hl'] using h.value l'
  · by_cases hl' : l' = l
    · subst hl'
      simp only [Function.update_self, hself, htaken]
      exact ⟨fun hm => ⟨c, rfl, hm⟩, fun ⟨_, _, hm⟩ => hm⟩
    · simp only [Function.update_of_ne hl', hother l' _ hl', h.taken l']
  · by_cases hl' : l' = l
    · subst hl'
      exact ((hself c₁).mp h₁).1.trans ((hself c₂).mp h₂).1.symm
    · exact h.one l' c₁ c₂ ((hother l' c₁ hl').mp h₁) ((hother l' c₂ hl').mp h₂)
  · by_cases hc : c' = c
    · subst hc
      simpa only [Function.update_self] using hnodup
    · simpa only [Function.update_of_ne hc] using h.nodup c'
  · by_cases hc : c' = c
    · subst hc
      simpa only [Function.update_self] using hb
    · simpa only [Function.update_of_ne hc] using h.brackets c'

theorem Sound.take {s : State cpu lock} (h : Sound s) {c : cpu} {l : lock} {rest : List (Op lock)}
    (ht : s.todo c = .acquire l :: rest) (hl : (s.locks l).locked = 0) : Sound (s.step c) := by
  have hb := h.brackets c
  rw [ht] at hb
  rw [step_take ht hl]
  refine h.change (fun c' _ => h.free hl c') (fun l' hl' => ?_) (.inr rfl) ?_
    (List.nodup_cons.mpr ⟨h.free hl c, h.nodup c⟩) hb
  · rw [List.mem_cons, or_iff_right hl']
  · exact ⟨fun _ => List.mem_cons_self, fun _ => rfl⟩

theorem Sound.drop {s : State cpu lock} (h : Sound s) {c : cpu} {l : lock} {rest : List (Op lock)}
    (ht : s.todo c = .release l :: rest) : Sound (s.step c) := by
  obtain ⟨hmem, hb⟩ : l ∈ s.held c ∧ Bracketed ((s.held c).erase l) rest := by
    have hb := h.brackets c
    rwa [ht] at hb
  rw [step_drop ht]
  refine h.change (fun c' hc hm => hc (h.one l c' c hm hmem))
    (fun l' hl' => List.mem_erase_of_ne hl') (.inl rfl) ?_ ((h.nodup c).erase l) hb
  -- its only holder has given it back
  have hgone : l ∉ (s.held c).erase l := fun hm => ((h.nodup c).mem_erase_iff.mp hm).1 rfl
  exact ⟨fun h0 => absurd h0 (by decide), fun hm => absurd hm hgone⟩

/-- Every turn keeps the invariant. -/
theorem Sound.step {s : State cpu lock} (c : cpu) (h : Sound s) : Sound (s.step c) := by
  cases ht : s.todo c with
  | nil => rwa [step_done ht]
  | cons o rest =>
    cases o with
    | release l => exact h.drop ht
    | acquire l =>
      rcases h.value l with hl | hl
      · exact h.take ht hl
      · rwa [step_wait ht hl]

/-- **Mutual exclusion.** However many processors there are and in whatever order they take their
turns, if nobody releases a lock it does not hold, then a lock is 1 exactly while a processor holds
it, and no two processors hold it. -/
theorem mutual_exclusion (id : lock → LockResource) {prog : cpu → List (Op lock)}
    (hp : ∀ c, Bracketed [] (prog c)) (sched : List cpu) (l : lock) :
    (((run State.step (start id prog) sched).locks l).locked = 1 ↔
        ∃ c, l ∈ (run State.step (start id prog) sched).held c) ∧
      (((run State.step (start id prog) sched).locks l).locked = 0 ↔
        ∀ c, l ∉ (run State.step (start id prog) sched).held c) ∧
      ∀ c c', l ∈ (run State.step (start id prog) sched).held c →
        l ∈ (run State.step (start id prog) sched).held c' → c = c' := by
  have h : Sound (run State.step (start id prog) sched) :=
    invariant (fun c _ hs => hs.step c) (sound_start id hp)
  refine ⟨h.taken l, ⟨h.free, fun hno => ?_⟩, h.one l⟩
  refine (h.value l).elim (fun h0 => h0) fun h1 => ?_
  obtain ⟨c, hc⟩ := (h.taken l).mp h1
  exact absurd hc (hno c)

/-- Two processors and one lock. -/
theorem mutual_exclusion_two :
    ((run State.step (start (fun _ : Unit => .heap) fun _ : Bool => [.acquire (), .release ()])
      [true, false]).locks ()).locked = 1 ∧
    ∀ c c', () ∈ (run State.step (start (fun _ : Unit => .heap) fun _ : Bool =>
        [.acquire (), .release ()]) [true, false]).held c →
      () ∈ (run State.step (start (fun _ : Unit => .heap) fun _ : Bool =>
        [.acquire (), .release ()]) [true, false]).held c' → c = c' := by
  have hp : ∀ _ : Bool, Bracketed [] [.acquire (), .release ()] := fun _ => ⟨by decide, trivial⟩
  have h := mutual_exclusion (fun _ : Unit => .heap) hp [true, false] ()
  exact ⟨h.1.mpr ⟨true, by decide⟩, h.2.2⟩

/-! ## Deadlock -/

/-- The processor waits for the lock. -/
def Waits (s : State cpu lock) (c : cpu) (l : lock) : Prop := ∃ rest, s.todo c = .acquire l :: rest

/-- Processors that each wait for a lock that one of them holds. -/
def Deadlocked (s : State cpu lock) (D : Set cpu) : Prop :=
  ∀ c ∈ D, ∃ l, Waits s c l ∧ ∃ c' ∈ D, l ∈ s.held c'

/-- A turn leaves the other processors' programs and locks alone. -/
theorem step_others {s : State cpu lock} {c c' : cpu} (hc : c' ≠ c) :
    (s.step c).todo c' = s.todo c' ∧ (s.step c).held c' = s.held c' := by
  rw [State.step]
  split
  · exact ⟨rfl, rfl⟩
  · rw [State.spinlockAcquire]
    dsimp only [State.alock]
    split
    · exact ⟨rfl, rfl⟩
    · exact ⟨Function.update_of_ne hc _ _, Function.update_of_ne hc _ _⟩
  · exact ⟨Function.update_of_ne hc _ _, Function.update_of_ne hc _ _⟩

theorem Deadlocked.step {s : State cpu lock} {D : Set cpu} (h : Sound s) (hd : Deadlocked s D)
    (c : cpu) : Deadlocked (s.step c) D ∧
      ∀ c' ∈ D, (s.step c).todo c' = s.todo c' ∧ (s.step c).held c' = s.held c' := by
  have hkeep : ∀ c' ∈ D, (s.step c).todo c' = s.todo c' ∧ (s.step c).held c' = s.held c' := by
    intro c' hc'
    by_cases hne : c' = c
    · subst hne
      obtain ⟨l, ⟨rest, ht⟩, holder, _, hl⟩ := hd c' hc'
      rw [step_wait ht ((h.taken l).mpr ⟨holder, hl⟩)]
      exact ⟨rfl, rfl⟩
    · exact step_others hne
  refine ⟨fun c' hc' => ?_, hkeep⟩
  obtain ⟨l, ⟨rest, ht⟩, holder, hholder, hl⟩ := hd c' hc'
  refine ⟨l, ⟨rest, by rw [(hkeep c' hc').1, ht]⟩, holder, hholder, ?_⟩
  rwa [(hkeep holder hholder).2]

/-- **A deadlock is for ever.** Processors that wait for each other, one that waits for a lock it
holds itself among them, do nothing more, whatever the others do and however often they try. -/
theorem deadlock_forever (id : lock → LockResource) {prog : cpu → List (Op lock)}
    (hp : ∀ c, Bracketed [] (prog c)) {sched : List cpu} {D : Set cpu}
    (hd : Deadlocked (run State.step (start id prog) sched) D) (more : List cpu) :
    Deadlocked (run State.step (start id prog) (sched ++ more)) D ∧
      ∀ c ∈ D, (run State.step (start id prog) (sched ++ more)).todo c =
        (run State.step (start id prog) sched).todo c := by
  have hstep : ∀ (c : cpu) (s : State cpu lock),
      (Sound s ∧ Deadlocked s D ∧ ∀ c ∈ D, s.todo c = (run State.step (start id prog) sched).todo c) →
      Sound (s.step c) ∧ Deadlocked (s.step c) D ∧
        ∀ c' ∈ D, (s.step c).todo c' = (run State.step (start id prog) sched).todo c' := by
    rintro c s ⟨hsound, hdead, hsame⟩
    obtain ⟨hdead', hkeep⟩ := hdead.step hsound c
    exact ⟨hsound.step c, hdead', fun c' hc' => (hkeep c' hc').1.trans (hsame c' hc')⟩
  have hsound : Sound (run State.step (start id prog) sched) :=
    invariant (fun c _ hs => hs.step c) (sound_start id hp)
  rw [run_append]
  exact (invariant hstep ⟨hsound, hd, fun _ _ => rfl⟩).2

/-- A processor that takes a lock twice, beside one that wants it. -/
theorem deadlock_forever_again :
    Deadlocked (run State.step (start (fun _ : Unit => .heap) fun c : Bool =>
      if c then [.acquire (), .acquire ()] else [.acquire (), .release ()])
        ([true] ++ [false, true])) {true} := by
  have hd : Deadlocked (run State.step (start (fun _ : Unit => .heap) fun c : Bool =>
      if c then [.acquire (), .acquire ()] else [.acquire (), .release ()]) [true]) {true} := by
    rintro c rfl
    exact ⟨(), ⟨[], rfl⟩, true, rfl, by decide⟩
  refine (deadlock_forever (fun _ => .heap) (fun c => ?_) hd [false, true]).1
  cases c with
  | true => exact trivial
  | false => exact ⟨by decide, trivial⟩

/-! ## The order of the locks -/

section Order

variable {id : lock → LockResource} [Fintype cpu]

/-- The operations that are still to be done. -/
def State.left (s : State cpu lock) : Nat := ∑ c, (s.todo c).length

omit [DecidableEq lock] in
theorem left_lt {s s' : State cpu lock} {c : cpu} {o : Op lock} {rest : List (Op lock)}
    (h : s.todo c = o :: rest) (h' : s'.todo = Function.update s.todo c rest) : s'.left < s.left := by
  refine Finset.sum_lt_sum (fun c' _ => ?_) ⟨c, Finset.mem_univ c, ?_⟩
  · rw [h']
    by_cases hc : c' = c
    · subst hc
      rw [Function.update_self, h]
      exact Nat.le_succ _
    · rw [Function.update_of_ne hc]
  · rw [h', Function.update_self, h]
    exact Nat.lt_succ_self _

/-- The invariant and the order. -/
def InOrder (id : lock → LockResource) (s : State cpu lock) : Prop :=
  Sound s ∧ ∀ c, Ordered id (s.held c) (s.todo c)

theorem InOrder.turn {s : State cpu lock} (h : InOrder id s) (c : cpu) :
    InOrder id (s.step c) ∧ (s.step c = s ∨ (s.step c).left < s.left) := by
  obtain ⟨hsound, hord⟩ := h
  have hc := hord c
  have hothers : ∀ c', Ordered id ((s.step c).held c) ((s.step c).todo c) →
      Ordered id ((s.step c).held c') ((s.step c).todo c') := by
    intro c' hcc
    by_cases hne : c' = c
    · rwa [hne]
    · rw [(step_others hne).1, (step_others hne).2]
      exact hord c'
  cases ht : s.todo c with
  | nil =>
    rw [step_done ht]
    exact ⟨⟨hsound, hord⟩, .inl rfl⟩
  | cons o rest =>
    rw [ht] at hc
    cases o with
    | release l =>
      refine ⟨⟨hsound.step c, fun c' => hothers c' ?_⟩, .inr (left_lt ht (by rw [step_drop ht]))⟩
      rw [step_drop ht]
      simpa only [Function.update_self] using hc.2
    | acquire l =>
      rcases hsound.value l with hl | hl
      · refine ⟨⟨hsound.step c, fun c' => hothers c' ?_⟩, .inr (left_lt ht (by rw [step_take ht hl]))⟩
        rw [step_take ht hl]
        simpa only [Function.update_self] using hc.2
      · rw [step_wait ht hl]
        exact ⟨⟨hsound, hord⟩, .inl rfl⟩

/-- The id of the lock a processor waits for. -/
def wanted (id : lock → LockResource) (s : State cpu lock) (c : cpu) : Nat :=
  match s.todo c with
  | .acquire l :: _ => (id l).value
  | _ => 0

/-- Of the processors that are not done, one that wants a lock with the highest id does not wait. -/
theorem InOrder.progress {s : State cpu lock} (h : InOrder id s) {c₀ : cpu} (h₀ : s.todo c₀ ≠ []) :
    ∃ c, (s.step c).left < s.left := by
  refine Classical.byContradiction fun hno => ?_
  have hwait : ∀ c, s.todo c ≠ [] → ∃ l, Waits s c l ∧ (s.locks l).locked = 1 := by
    intro c hc
    cases ht : s.todo c with
    | nil => exact absurd ht hc
    | cons o rest =>
      cases o with
      | release l => exact absurd ⟨c, left_lt ht (by rw [step_drop ht])⟩ hno
      | acquire l =>
        refine ⟨l, ⟨rest, ht⟩, (h.1.value l).resolve_left fun hl => ?_⟩
        exact hno ⟨c, left_lt ht (by rw [step_take ht hl])⟩
  have hne : (Finset.univ.filter fun c => s.todo c ≠ []).Nonempty :=
    ⟨c₀, Finset.mem_filter.mpr ⟨Finset.mem_univ c₀, h₀⟩⟩
  obtain ⟨c, hc, hmax⟩ := Finset.exists_max_image _ (wanted id s) hne
  obtain ⟨l, ⟨rest, ht⟩, hl⟩ := hwait c (Finset.mem_filter.mp hc).2
  obtain ⟨c', hc'⟩ := (h.1.taken l).mp hl
  have hbusy : s.todo c' ≠ [] := by
    intro hdone
    have hord := h.2 c'
    rw [hdone, Ordered] at hord
    rw [hord] at hc'
    cases hc'
  obtain ⟨l', ⟨rest', ht'⟩, _⟩ := hwait c' hbusy
  have hlt : (id l).value < (id l').value := by
    have hord := h.2 c'
    rw [ht'] at hord
    exact hord.1 l hc'
  have hle := hmax c' (Finset.mem_filter.mpr ⟨Finset.mem_univ c', hbusy⟩)
  rw [wanted, wanted, ht, ht'] at hle
  exact absurd hlt (Nat.not_lt.mpr hle)

/-- **With the locks taken in order, everybody finishes.** If every processor takes its locks in the
order of their ids and gives them back, then under any schedule that leaves no processor out all of
them get to their end, and all locks are free again. -/
theorem ordered_finish {prog : cpu → List (Op lock)} (hp : ∀ c, Ordered id [] (prog c))
    {sched : Nat → cpu} (hfair : Fair sched) :
    ∃ n, (∀ c, (upTo State.step (start id prog) sched n).todo c = []) ∧
      ∀ l, ((upTo State.step (start id prog) sched n).locks l).locked = 0 := by
  have hstart : InOrder id (start id prog) := ⟨sound_start id fun c => (hp c).bracketed, hp⟩
  have hprog : ∀ s : State cpu lock, InOrder id s → ¬ (∀ c, s.todo c = []) →
      ∃ c, (s.step c).left < s.left := by
    intro s hs hfin
    obtain ⟨c₀, h₀⟩ := not_forall.mp hfin
    exact hs.progress h₀
  have hkeep : ∀ (c : cpu) (s : State cpu lock), InOrder id s → InOrder id (s.step c) :=
    fun c s hs => (hs.turn c).1
  obtain ⟨n, hn⟩ := fair_reaches hkeep (fun c s hs => (InOrder.turn hs c).2) hprog hstart hfair
  have hsound : InOrder id (upTo State.step (start id prog) sched n) := invariant_upTo hkeep hstart n
  refine ⟨n, hn, fun l => (hsound.1.value l).resolve_right fun hl => ?_⟩
  obtain ⟨c, hc⟩ := (hsound.1.taken l).mp hl
  have hord := hsound.2 c
  rw [hn c, Ordered] at hord
  rw [hord] at hc
  cases hc

/-- Two processors that take turns, with the console and the heap. -/
theorem ordered_finish_two : ∃ n, (∀ c, (upTo State.step (start (fun h : Bool =>
      if h then .heap else .console) fun _ : Bool =>
        [.acquire false, .acquire true, .release true, .release false])
      (fun n => decide (n % 2 = 0)) n).todo c = []) ∧
    ∀ l, ((upTo State.step (start (fun h : Bool => if h then .heap else .console) fun _ : Bool =>
        [.acquire false, .acquire true, .release true, .release false])
      (fun n => decide (n % 2 = 0)) n).locks l).locked = 0 := by
  refine ordered_finish (fun _ => ?_) fun c n => ?_
  · simp [Ordered, LockResource.value]
  · cases c with
    | true => exact ⟨2 * n, by omega, by simp⟩
    | false => exact ⟨2 * n + 1, by omega, by simp⟩

end Order

end Lock
end Frod
