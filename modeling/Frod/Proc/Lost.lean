import Mathlib.Logic.Relation
import Frod.Proc.Run

/-!
# Frod.Proc.Lost

Which runs keep every process reachable from `proc_current` or `proc_list`.

The current process and the one in `proc_list` are in different rings of `next` pointers.
`real_fork` adds to the ring of the current process, `switch_task` exchanges the two, and
`process_start_usermode` puts a ring of its own into `proc_list`: with something in there already,
that ring is lost. The rings are told apart by a colouring that `next` keeps. `noneLost_iff` is the
result.
-/

namespace Frod
namespace Proc

open Sched

/-- `a->next == b`. -/
def NextOf (s : Sched) (a b : Nat) : Prop := ∃ p, s.pcbs[a]? = some p ∧ p.next = b

def Reaches (s : Sched) : Nat → Nat → Prop := Relation.ReflTransGen (NextOf s)

/-- Process `i` can be found by following `next` from `proc_current` or `proc_list`. -/
def Found (s : Sched) (i : Nat) : Prop :=
  (∃ c, s.procCurrent = some c ∧ Reaches s c i) ∨ ∃ l, s.procList = some l ∧ Reaches s l i

/-- Exactly the current process is running, all others are ready. -/
def OneRuns (s : Sched) : Prop := ∃ c, s.procCurrent = some c ∧
  (∃ p, s.pcbs[c]? = some p ∧ p.state = .running) ∧
  ∀ (i : Nat) (p : Pcb), s.pcbs[i]? = some p → i ≠ c → p.state = .ready

structure NoneLost (s : Sched) : Prop where
  oneRuns : OneRuns s
  found : ∀ i < s.pcbs.length, Found s i

/-- A colouring of the processes that `next` keeps and that tells the two rings apart. -/
structure Rings (s : Sched) (colour : Nat → Nat) : Prop where
  closed : ∀ a b, NextOf s a b → b < s.pcbs.length
  same : ∀ a b, NextOf s a b → colour a = colour b
  apart : ∀ c l, s.procCurrent = some c → s.procList = some l → colour c ≠ colour l

/-- Some process has neither the colour of the current one nor that of `proc_list`. -/
def Lost (s : Sched) (colour : Nat → Nat) : Prop := ∃ i < s.pcbs.length,
  (∀ c, s.procCurrent = some c → colour c ≠ colour i) ∧ ∀ l, s.procList = some l → colour l ≠ colour i

theorem Rings.reaches {s : Sched} {colour : Nat → Nat} (h : Rings s colour) {a b : Nat}
    (hab : Reaches s a b) : colour a = colour b := by
  induction hab with
  | refl => rfl
  | tail _ hbc ih => rw [ih, h.same _ _ hbc]

theorem Lost.not_found {s : Sched} {colour : Nat → Nat} (hr : Rings s colour) (h : Lost s colour) :
    ¬ ∀ i < s.pcbs.length, Found s i := by
  obtain ⟨i, hi, hc, hl⟩ := h
  intro hall
  rcases hall i hi with ⟨c, hcur, hreach⟩ | ⟨l, hlist, hreach⟩
  · exact hc c hcur (hr.reaches hreach)
  · exact hl l hlist (hr.reaches hreach)

/-- Reachability survives when every step of the old chain can still be made. -/
theorem reaches_mono {s s' : Sched} (h : ∀ a b, NextOf s a b → Reaches s' a b) {a b : Nat}
    (hab : Reaches s a b) : Reaches s' a b := by
  induction hab with
  | refl => exact .refl
  | tail _ hbc ih => exact ih.trans (h _ _ hbc)

/-- A colour for one more process leaves those of the others. -/
theorem recolour_old {s : Sched} (colour : Nat → Nat) (k : Nat) {i : Nat} (hi : i < s.pcbs.length) :
    Function.update colour s.pcbs.length k i = colour i :=
  Function.update_of_ne (Nat.ne_of_lt hi) _ _

/-- It keeps the links among the others in one colour. -/
theorem Rings.recolour {s : Sched} {colour : Nat → Nat} (h : Rings s colour) (k : Nat) {a b : Nat}
    (hab : NextOf s a b) : b < s.pcbs.length + 1 ∧
      Function.update colour s.pcbs.length k a = Function.update colour s.pcbs.length k b := by
  obtain ⟨p, hp, rfl⟩ := hab
  have hn : NextOf s a p.next := ⟨p, hp, rfl⟩
  have hlt := h.closed _ _ hn
  refine ⟨by omega, ?_⟩
  rw [recolour_old colour k (List.getElem?_eq_some_iff.mp hp).1, recolour_old colour k hlt]
  exact h.same _ _ hn

/-! ## One call -/

section Fork

variable {s : Sched} {c : Nat} {cur q : Pcb} {mem : KMem}

theorem forked_get (hcur : s.pcbs[c]? = some cur) {i : Nat} {p : Pcb}
    (h : (forked s c q mem).pcbs[i]? = some p) :
    (i = c ∧ p = { cur with next := s.pcbs.length }) ∨ (i = s.pcbs.length ∧ p = q) ∨
      (i ≠ c ∧ s.pcbs[i]? = some p) := by
  have hlt := (List.getElem?_eq_some_iff.mp hcur).1
  obtain ⟨p', hp', rfl⟩ := getElem?_modify_some h
  rcases getElem?_append_new hp' with hold | ⟨rfl, rfl⟩
  · by_cases hic : c = i
    · subst hic
      rw [hcur] at hold
      obtain rfl := Option.some.inj hold
      exact .inl ⟨rfl, if_pos rfl⟩
    · rw [if_neg hic]
      exact .inr (.inr ⟨fun h => hic h.symm, hold⟩)
  · rw [if_neg (Nat.ne_of_lt hlt)]
    exact .inr (.inl ⟨rfl, rfl⟩)

theorem forked_length : (forked s c q mem).pcbs.length = s.pcbs.length + 1 := by
  simp [forked]

theorem forked_current (hcur : s.pcbs[c]? = some cur) :
    (forked s c q mem).pcbs[c]? = some { cur with next := s.pcbs.length } := by
  rw [forked, List.getElem?_modify, List.getElem?_append_left (List.getElem?_eq_some_iff.mp hcur).1, hcur]
  simp

theorem forked_new (hcur : s.pcbs[c]? = some cur) :
    (forked s c q mem).pcbs[s.pcbs.length]? = some q := by
  rw [forked, List.getElem?_modify, List.getElem?_append_right (Nat.le_refl _)]
  simp [Nat.ne_of_lt (List.getElem?_eq_some_iff.mp hcur).1]

theorem forked_other {i : Nat} {p : Pcb} (hi : i ≠ c) (hp : s.pcbs[i]? = some p) :
    (forked s c q mem).pcbs[i]? = some p := by
  rw [forked, List.getElem?_modify, List.getElem?_append_left (List.getElem?_eq_some_iff.mp hp).1, hp]
  simp [Ne.symm hi]

/-- A link is replaced by two, through the new process. -/
theorem forked_reaches (hcur : s.pcbs[c]? = some cur) (hq : q.next = cur.next) {a b : Nat}
    (h : NextOf s a b) : Reaches (forked s c q mem) a b := by
  obtain ⟨p, hp, rfl⟩ := h
  by_cases hac : a = c
  · subst hac
    rw [hcur] at hp
    obtain rfl := Option.some.inj hp
    have h1 : NextOf (forked s a q mem) a s.pcbs.length := ⟨_, forked_current hcur, rfl⟩
    have h2 : NextOf (forked s a q mem) s.pcbs.length cur.next := ⟨_, forked_new hcur, hq⟩
    exact (Relation.ReflTransGen.single h1).tail h2
  · exact .single ⟨p, forked_other hac hp, rfl⟩

theorem forked_found (hc : s.procCurrent = some c) (hcur : s.pcbs[c]? = some cur)
    (hq : q.next = cur.next) (h : ∀ i < s.pcbs.length, Found s i) :
    ∀ i < (forked s c q mem).pcbs.length, Found (forked s c q mem) i := by
  have hmono : ∀ {a b}, Reaches s a b → Reaches (forked s c q mem) a b :=
    fun hab => reaches_mono (fun a b => forked_reaches hcur hq) hab
  intro i hi
  rw [forked_length] at hi
  by_cases hin : i = s.pcbs.length
  · subst hin
    exact .inl ⟨c, hc, .single ⟨_, forked_current hcur, rfl⟩⟩
  · rcases h i (by omega) with ⟨c', hc', hr⟩ | ⟨l, hl, hr⟩
    · exact .inl ⟨c', hc', hmono hr⟩
    · exact .inr ⟨l, hl, hmono hr⟩

theorem forked_oneRuns (hc : s.procCurrent = some c) (hcur : s.pcbs[c]? = some cur)
    (hq : q.state = .ready) (h : OneRuns s) : OneRuns (forked s c q mem) := by
  obtain ⟨c', hc', ⟨p, hp, hrun⟩, hready⟩ := h
  obtain rfl : c = c' := Option.some.inj (hc.symm.trans hc')
  rw [hcur] at hp
  obtain rfl := Option.some.inj hp
  refine ⟨c, hc, ⟨_, forked_current hcur, hrun⟩, fun i p hi hne => ?_⟩
  rcases forked_get hcur hi with ⟨rfl, _⟩ | ⟨_, rfl⟩ | ⟨_, hp⟩
  · exact absurd rfl hne
  · exact hq
  · exact hready i p hp hne

/-- The new process gets the colour of the current one. -/
theorem forked_rings {colour : Nat → Nat} (hc : s.procCurrent = some c)
    (hcur : s.pcbs[c]? = some cur) (hlist : ∀ l, s.procList = some l → l < s.pcbs.length)
    (hq : q.next = cur.next) (mem : KMem) (h : Rings s colour) :
    ∃ colour', Rings (forked s c q mem) colour' ∧
      (Lost s colour → Lost (forked s c q mem) colour') := by
  have hclt := (List.getElem?_eq_some_iff.mp hcur).1
  refine ⟨Function.update colour s.pcbs.length (colour c), ?_, ?_⟩
  · have hcn : NextOf s c cur.next := ⟨cur, hcur, rfl⟩
    have hedge : ∀ a b, NextOf (forked s c q mem) a b → b < s.pcbs.length + 1 ∧
        Function.update colour s.pcbs.length (colour c) a =
          Function.update colour s.pcbs.length (colour c) b := by
      rintro a b ⟨p, hp, rfl⟩
      rcases forked_get hcur hp with ⟨rfl, rfl⟩ | ⟨rfl, rfl⟩ | ⟨hac, hp⟩
      · refine ⟨Nat.lt_succ_self _, ?_⟩
        rw [recolour_old _ _ hclt]
        simp
      · -- the new process takes over the link of the current one
        obtain ⟨hlt, hsame⟩ := h.recolour (colour c) hcn
        rw [hq, Function.update_self, ← hsame, recolour_old _ _ hclt]
        exact ⟨hlt, rfl⟩
      · exact h.recolour _ ⟨p, hp, rfl⟩
    constructor
    · intro a b hab
      rw [forked_length]
      exact (hedge a b hab).1
    · exact fun a b hab => (hedge a b hab).2
    · intro c' l hc' hl
      obtain rfl : c = c' := Option.some.inj (hc.symm.trans hc')
      rw [recolour_old _ _ hclt, recolour_old _ _ (hlist l hl)]
      exact h.apart c l hc hl
  · rintro ⟨i, hi, h1, h2⟩
    refine ⟨i, by rw [forked_length]; omega, fun c' hc' => ?_, fun l hl => ?_⟩
    · obtain rfl : c = c' := Option.some.inj (hc.symm.trans hc')
      rw [recolour_old _ _ hclt, recolour_old _ _ hi]
      exact h1 c hc
    · rw [recolour_old _ _ (hlist l hl), recolour_old _ _ hi]
      exact h2 l hl

end Fork

section Start

variable {s : Sched} {q : Pcb} {mem : KMem}

theorem started_old {i : Nat} {p : Pcb} (hp : s.pcbs[i]? = some p) :
    (started s q mem).pcbs[i]? = some p :=
  (List.getElem?_append_left (List.getElem?_eq_some_iff.mp hp).1).trans hp

theorem started_length : (started s q mem).pcbs.length = s.pcbs.length + 1 := by
  simp [started]

theorem started_oneRuns (hq : q.state = .ready) (h : OneRuns s) : OneRuns (started s q mem) := by
  obtain ⟨c, hc, ⟨p, hp, hrun⟩, hready⟩ := h
  refine ⟨c, hc, ⟨p, started_old hp, hrun⟩, fun i p hi hne => ?_⟩
  rcases getElem?_append_new hi with hp | ⟨_, rfl⟩
  · exact hready i p hp hne
  · exact hq

/-- With an empty `proc_list` every process was reachable from the current one. -/
theorem started_found (hlist : s.procList = none) (h : ∀ i < s.pcbs.length, Found s i) :
    ∀ i < (started s q mem).pcbs.length, Found (started s q mem) i := by
  intro i hi
  rw [started_length] at hi
  by_cases hin : i = s.pcbs.length
  · exact .inr ⟨s.pcbs.length, rfl, by rw [hin]; exact .refl⟩
  · rcases h i (by omega) with ⟨c, hc, hr⟩ | ⟨l, hl, _⟩
    · refine .inl ⟨c, hc, reaches_mono (fun a b => ?_) hr⟩
      rintro ⟨p, hp, hpb⟩
      exact .single ⟨p, started_old hp, hpb⟩
    · rw [hlist] at hl
      cases hl

/-- The new process is a ring of its own; what was in `proc_list` is lost. -/
theorem started_rings {colour : Nat → Nat} {c : Nat} (hc : s.procCurrent = some c)
    (hclt : c < s.pcbs.length) (hlist : ∀ l, s.procList = some l → l < s.pcbs.length)
    (hq : q.next = s.pcbs.length) (mem : KMem) (h : Rings s colour) :
    ∃ colour', Rings (started s q mem) colour' ∧
      (Lost s colour ∨ s.procList ≠ none → Lost (started s q mem) colour') := by
  -- a colour that no process has
  obtain ⟨k, hk⟩ : ∃ k, ∀ i < s.pcbs.length, colour i ≠ k := by
    have hbound : ∀ n, ∃ k, ∀ i < n, colour i < k := by
      intro n
      induction n with
      | zero => exact ⟨0, fun i hi => by omega⟩
      | succ n ih =>
        obtain ⟨k, hk⟩ := ih
        refine ⟨max k (colour n + 1), fun i hi => ?_⟩
        by_cases hin : i = n
        · subst hin; omega
        · have := hk i (by omega); omega
    obtain ⟨k, hk⟩ := hbound s.pcbs.length
    exact ⟨k, fun i hi => Nat.ne_of_lt (hk i hi)⟩
  refine ⟨Function.update colour s.pcbs.length k, ?_, ?_⟩
  · have hedge : ∀ a b, NextOf (started s q mem) a b → b < s.pcbs.length + 1 ∧
        Function.update colour s.pcbs.length k a = Function.update colour s.pcbs.length k b := by
      rintro a b ⟨p, hp, rfl⟩
      rcases getElem?_append_new hp with hp | ⟨rfl, rfl⟩
      · exact h.recolour k ⟨p, hp, rfl⟩
      · rw [hq]
        exact ⟨Nat.lt_succ_self _, rfl⟩
    constructor
    · intro a b hab
      rw [started_length]
      exact (hedge a b hab).1
    · exact fun a b hab => (hedge a b hab).2
    · intro c' l hc' hl
      obtain rfl : c = c' := Option.some.inj (hc.symm.trans hc')
      obtain rfl := Option.some.inj hl
      rw [recolour_old _ _ hclt, Function.update_self]
      exact hk c hclt
  · -- the process that is lost: one that was, or the one that was in the list
    intro hlost
    obtain ⟨i, hi, hci⟩ : ∃ i < s.pcbs.length, colour c ≠ colour i := by
      rcases hlost with ⟨i, hi, h1, _⟩ | hne
      · exact ⟨i, hi, h1 c hc⟩
      · obtain ⟨l, hl⟩ := Option.ne_none_iff_exists'.mp hne
        exact ⟨l, hlist l hl, h.apart c l hc hl⟩
    refine ⟨i, by rw [started_length]; omega, fun c' hc' => ?_, fun l hl => ?_⟩
    · obtain rfl : c = c' := Option.some.inj (hc.symm.trans hc')
      rw [recolour_old _ _ hclt, recolour_old _ _ hi]
      exact hci
    · obtain rfl := Option.some.inj hl
      rw [recolour_old _ _ hi, Function.update_self]
      exact (hk i hi).symm

end Start

section Switch

variable {s : Sched} {c l : Nat} {old p : Pcb} {regs : Registers}

theorem switched_get {i : Nat} {q : Pcb} (h : (switched s c l old p regs).pcbs[i]? = some q) :
    ∃ q₀, s.pcbs[i]? = some q₀ ∧ q.next = q₀.next ∧
      q.state = if l = i then .running else if c = i then .ready else q₀.state := by
  obtain ⟨q₁, hq₁, rfl⟩ := getElem?_modify_some h
  obtain ⟨q₀, hq₀, rfl⟩ := getElem?_modify_some hq₁
  refine ⟨q₀, hq₀, ?_, ?_⟩
  · split <;> split <;> rfl
  · split
    · rfl
    · split <;> rfl

theorem switched_nextOf {a b : Nat} : NextOf (switched s c l old p regs) a b ↔ NextOf s a b := by
  constructor
  · rintro ⟨q, hq, rfl⟩
    obtain ⟨q₀, hq₀, hnext, _⟩ := switched_get hq
    exact ⟨q₀, hq₀, hnext.symm⟩
  · rintro ⟨q₀, hq₀, rfl⟩
    obtain ⟨q₁, hq₁⟩ := exists_getElem?_modify (c := c) (fun old => { old with state := .ready }) hq₀
    obtain ⟨q, hq⟩ := exists_getElem?_modify (c := l) (fun p => { p with state := .running }) hq₁
    have hq' : (switched s c l old p regs).pcbs[a]? = some q := hq
    obtain ⟨q₀', hq₀', hnext, _⟩ := switched_get hq'
    rw [hq₀] at hq₀'
    obtain rfl := Option.some.inj hq₀'
    exact ⟨q, hq, hnext⟩

theorem switched_reaches {a b : Nat} (h : Reaches s a b) : Reaches (switched s c l old p regs) a b :=
  reaches_mono (fun _ _ hn => .single (switched_nextOf.mpr hn)) h

theorem switched_length : (switched s c l old p regs).pcbs.length = s.pcbs.length := by
  simp [switched]

theorem switched_found (hc : s.procCurrent = some c) (hl : s.procList = some l)
    (h : ∀ i < s.pcbs.length, Found s i) :
    ∀ i < (switched s c l old p regs).pcbs.length, Found (switched s c l old p regs) i := by
  intro i hi
  rw [switched_length] at hi
  rcases h i hi with ⟨c', hc', hr⟩ | ⟨l', hl', hr⟩
  · obtain rfl : c = c' := Option.some.inj (hc.symm.trans hc')
    exact .inr ⟨c, rfl, switched_reaches hr⟩
  · obtain rfl : l = l' := Option.some.inj (hl.symm.trans hl')
    exact .inl ⟨l, rfl, switched_reaches hr⟩

theorem switched_oneRuns (hc : s.procCurrent = some c) (hp : s.pcbs[l]? = some p) (h : OneRuns s) :
    OneRuns (switched s c l old p regs) := by
  obtain ⟨c', hc', _, hready⟩ := h
  obtain rfl : c = c' := Option.some.inj (hc.symm.trans hc')
  refine ⟨l, rfl, ?_, fun i q hq hne => ?_⟩
  · obtain ⟨q₁, hq₁⟩ := exists_getElem?_modify (c := c) (fun old => { old with state := .ready }) hp
    obtain ⟨q, hq⟩ := exists_getElem?_modify (c := l) (fun p => { p with state := .running }) hq₁
    have hq' : (switched s c l old p regs).pcbs[l]? = some q := hq
    obtain ⟨_, _, _, hstate⟩ := switched_get hq'
    exact ⟨q, hq', by rw [hstate, if_pos rfl]⟩
  · obtain ⟨q₀, hq₀, _, hstate⟩ := switched_get hq
    rw [hstate, if_neg (Ne.symm hne)]
    by_cases hci : c = i
    · rw [if_pos hci]
    · rw [if_neg hci]
      exact hready i q₀ hq₀ (Ne.symm hci)

theorem switched_rings {colour : Nat → Nat} (hc : s.procCurrent = some c) (hl : s.procList = some l)
    (h : Rings s colour) : Rings (switched s c l old p regs) colour ∧
      (Lost s colour → Lost (switched s c l old p regs) colour) := by
  refine ⟨⟨?_, ?_, ?_⟩, ?_⟩
  · intro a b hab
    rw [switched_length]
    exact h.closed a b (switched_nextOf.mp hab)
  · exact fun a b hab => h.same a b (switched_nextOf.mp hab)
  · intro c' l' hc' hl'
    obtain rfl := Option.some.inj hc'
    obtain rfl := Option.some.inj hl'
    exact (h.apart c l hc hl).symm
  · rintro ⟨i, hi, h1, h2⟩
    refine ⟨i, by rw [switched_length]; exact hi, fun c' hc' => ?_, fun l' hl' => ?_⟩
    · obtain rfl := Option.some.inj hc'
      exact h2 l hl
    · obtain rfl := Option.some.inj hl'
      exact h1 c hc

end Switch

/-! ## Whole runs -/

/-- The number of calls of `process_start_usermode`. -/
def starts : List Call → Nat
  | [] => 0
  | .startUsermode _ _ :: calls => starts calls + 1
  | _ :: calls => starts calls

/-- What holds after `k` calls of `process_start_usermode` and any others. -/
structure Tracked (k : Nat) (s : Sched) : Prop where
  laid : Laid s
  oneRuns : OneRuns s
  empty : s.procList = none ↔ k = 0
  found : k ≤ 1 → ∀ i < s.pcbs.length, Found s i
  rings : ∃ colour, Rings s colour ∧ (2 ≤ k → Lost s colour)

theorem processInit_tracked {link : Link} {mem : KMem} {dir pageDir : Word} {esp0 r : Nat} {o : Outside}
    {s : Sched} (h : (boot mem dir esp0).processInit link o pageDir = .ok (r, s)) : Tracked 0 s := by
  have hlaid := processInit_laid h
  obtain ⟨_, mem', rfl⟩ := processInit_ok h
  refine ⟨hlaid, ⟨0, rfl, ⟨_, rfl, rfl⟩, fun i p hp hne => ?_⟩, by simp [boot], fun _ i hi => ?_,
    fun _ => 0, ⟨fun a b => ?_, fun _ _ _ => rfl, fun c l _ hl => by cases hl⟩, by omega⟩
  · rcases getElem?_append_new hp with hp | ⟨hi, _⟩
    · cases hp
    · exact absurd hi hne
  · obtain rfl : i = 0 := by simpa [boot] using hi
    exact .inl ⟨0, rfl, .refl⟩
  · rintro ⟨p, hp, rfl⟩
    rcases getElem?_append_new hp with hp | ⟨_, rfl⟩
    · cases hp
    · simp [boot]

theorem step_tracked {link : Link} {s s' : Sched} {k r : Nat} {call : Call} (h : Tracked k s)
    (hstep : step link s call = .ok (r, s')) : Tracked (k + starts [call]) s' := by
  have hlaid := step_laid h.laid hstep
  obtain ⟨c, old, hc, hold⟩ := h.laid.current
  obtain ⟨colour, hrings, hlost⟩ := h.rings
  have hlist : ∀ l, s.procList = some l → l < s.pcbs.length := fun l hl => by
    obtain ⟨_, p, hp⟩ := h.laid.list l hl
    exact (List.getElem?_eq_some_iff.mp hp).1
  obtain ⟨_, _, _, _, space, mem, rfl, _, rfl⟩ | ⟨_, space, mem, rfl, _, rfl⟩ | ⟨_, rfl, rfl⟩ |
    ⟨regs, l, p, rfl, hl, hp, hcl, rfl⟩ := h.laid.step_cases hstep hc hold
  · have hnext : (forkPcb s old space).next = old.next := rfl
    obtain ⟨colour', hr, hl⟩ := forked_rings hc hold hlist hnext mem hrings
    exact ⟨hlaid, forked_oneRuns hc hold rfl h.oneRuns, h.empty,
      fun hk => forked_found hc hold hnext (h.found hk), colour', hr, fun hk => hl (hlost hk)⟩
  · have hnext : (startPcb s space).next = s.pcbs.length := rfl
    obtain ⟨colour', hr, hl⟩ :=
      started_rings hc (List.getElem?_eq_some_iff.mp hold).1 hlist hnext mem hrings
    refine ⟨hlaid, started_oneRuns rfl h.oneRuns, by simp [starts, started], fun hk => ?_, colour', hr,
      fun hk => hl ?_⟩
    · have hk0 : k = 0 := by simp only [starts] at hk; omega
      exact started_found (h.empty.mpr hk0) (h.found (by omega))
    · refine .inr fun hnone => ?_
      have := h.empty.mp hnone
      simp only [starts] at hk
      omega
  · exact h
  · obtain ⟨hr, hlost'⟩ := switched_rings hc hl hrings
    refine ⟨hlaid, switched_oneRuns hc hp h.oneRuns, ?_, fun hk => switched_found hc hl (h.found hk),
      colour, hr, fun hk => hlost' (hlost hk)⟩
    have hempty := h.empty
    rw [hl] at hempty
    simpa [switched, starts] using hempty

theorem run_tracked {link : Link} : ∀ {calls : List Call} {s s' : Sched} {k : Nat} {os : List Nat},
    Tracked k s → Machine.runAll (step link) s calls = .ok (os, s') → Tracked (k + starts calls) s' := by
  intro calls
  induction calls with
  | nil =>
    intro s s' k os h hrun
    obtain ⟨_, rfl⟩ := Prod.mk.inj (Except.ok.inj hrun)
    exact h
  | cons call calls ih =>
    intro s s' k os h hrun
    obtain ⟨o, s₁, os', _, hs₁, hs₂⟩ := Machine.runAll_cons hrun
    have := ih (step_tracked h hs₁) hs₂
    have heq : k + starts [call] + starts calls = k + starts (call :: calls) := by
      cases call <;> simp only [starts] <;> omega
    rwa [heq] at this

theorem Tracked.noneLost {k : Nat} {s : Sched} (h : Tracked k s) : NoneLost s ↔ k ≤ 1 := by
  constructor
  · intro hnone
    obtain ⟨colour, hrings, hlost⟩ := h.rings
    refine Nat.le_of_not_lt fun hlt => ?_
    exact (hlost hlt).not_found hrings hnone.found
  · intro hle
    exact ⟨h.oneRuns, h.found hle⟩

/-- In a run from `process_init` one process runs, and none is lost, exactly as long as
`process_start_usermode` has been called at most once. -/
theorem noneLost_iff {link : Link} {mem : KMem} {dir pageDir : Word} {esp0 r : Nat} {o : Outside}
    {s₀ s : Sched} (hinit : (boot mem dir esp0).processInit link o pageDir = .ok (r, s₀))
    {calls : List Call} {os : List Nat} (hrun : Machine.runAll (step link) s₀ calls = .ok (os, s)) :
    NoneLost s ↔ starts calls ≤ 1 := by
  have h := run_tracked (processInit_tracked hinit) hrun
  rw [Nat.zero_add] at h
  exact h.noneLost

theorem noneLost_iff_sample : ∃ s₀ s,
    (boot (fun _ => 0) 0x1000 0).processInit sampleLink ⟨0x401000, false⟩ 0x1000 = .ok (1, s₀) ∧
    Machine.runAll (step sampleLink) s₀ sampleStart = .ok ([0], s) ∧ NoneLost s := by
  obtain ⟨s₀, s, hinit, hrun, _⟩ := sample_run
  exact ⟨s₀, s, hinit, hrun, (noneLost_iff hinit hrun).mpr (by decide)⟩

/-- Two processes started one after the other: the first of them is lost. -/
theorem not_noneLost_two : ∃ s₀ s,
    (boot (fun _ => 0) 0x1000 0).processInit sampleLink ⟨0x401000, false⟩ 0x1000 = .ok (1, s₀) ∧
    Machine.runAll (step sampleLink) s₀ (sampleStart ++ sampleStart) = .ok ([0, 0], s) ∧
    ¬ NoneLost s := by
  obtain ⟨s₀, s, hinit, hrun⟩ : ∃ s₀ s,
      (boot (fun _ => 0) 0x1000 0).processInit sampleLink ⟨0x401000, false⟩ 0x1000 = .ok (1, s₀) ∧
      Machine.runAll (step sampleLink) s₀ (sampleStart ++ sampleStart) = .ok ([0, 0], s) :=
    ⟨_, _, rfl, rfl⟩
  refine ⟨s₀, s, hinit, hrun, ?_⟩
  rw [(run_tracked (processInit_tracked hinit) hrun).noneLost]
  decide

end Proc
end Frod
