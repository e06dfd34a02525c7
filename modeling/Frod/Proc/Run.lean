import Frod.Lib.Machine
import Frod.Proc.Model

/-!
# Frod.Proc.Run

What one call does to the processes, and what whole runs keep.

One lemma for each call says what it has done when it returns. From them follows `Laid`, the layout
that every run keeps: the process created as number `n` has pid `n + 1`, its kernel stack is the page
of that pid, and its saved context ends two words below the stack's top. `layout_consistent` states
what this means for `switch_task`.
-/

namespace Frod
namespace Proc

open Sched

/-- The `pcb` that `alloc_proc` makes for a pid. -/
def newPcb (pid : Nat) : Pcb := ⟨pid, 0, stackPage pid, stackPage pid + kstackSz - 8 - regsSz, .ready, 0⟩

/-- The pid of the next process. -/
def nextPid (s : Sched) : Nat := (s.lastPid + 1) % 2 ^ 32

/-- The `pcb`s that `real_fork` and `process_start_usermode` make. -/
def forkPcb (s : Sched) (cur : Pcb) (space : Space) : Pcb :=
  { newPcb (nextPid s) with dirtable := space.addr, next := cur.next }
def startPcb (s : Sched) (space : Space) : Pcb :=
  { newPcb (nextPid s) with dirtable := space.addr, next := s.pcbs.length }

/-- The state after `real_fork` in process `c`: the new process `q` is put into the ring behind it. -/
def forked (s : Sched) (c : Nat) (q : Pcb) (mem : KMem) : Sched := { s with
  pcbs := (s.pcbs ++ [q]).modify c fun cur => { cur with next := s.pcbs.length },
  lastPid := nextPid s, mem := mem }

/-- The state after `process_start_usermode`: the new process `q` overwrites `proc_list`. -/
def started (s : Sched) (q : Pcb) (mem : KMem) : Sched := { s with
  pcbs := s.pcbs ++ [q], procList := some s.pcbs.length, lastPid := nextPid s, mem := mem }

/-! ## Saved contexts -/

theorem writeWords_other {x : Nat} : ∀ {ws : List Word} {a : Nat} (m : KMem),
    x < a ∨ a + 4 * ws.length ≤ x → writeWords m a ws x = m x := by
  intro ws
  induction ws with
  | nil => intro a m _; rfl
  | cons w ws ih =>
    intro a m h
    rw [List.length_cons] at h
    rw [writeWords, ih _ (by omega), Function.update_of_ne (by omega)]

theorem setRegs_other {m : KMem} {a x : Nat} {r : Registers} (h : x < a ∨ a + regsSz ≤ x) :
    setRegs m a r x = m x := writeWords_other m h

theorem regsAt_setRegs_same (m : KMem) (a : Nat) (r : Registers) : regsAt (setRegs m a r) a = r := by
  simp [regsAt, setRegs, Registers.toList, writeWords, Nat.add_assoc]

theorem regsAt_setRegs_other {m : KMem} {a b : Nat} {r : Registers}
    (h : b + regsSz ≤ a ∨ a + regsSz ≤ b) : regsAt (setRegs m a r) b = regsAt m b := by
  unfold regsSz at h
  have hread : ∀ k, k ≤ 64 → setRegs m a r (b + k) = m (b + k) := fun k hk =>
    setRegs_other (by unfold regsSz; omega)
  have h0 : setRegs m a r b = m b := hread 0 (by omega)
  simp (disch := decide) only [regsAt, hread, h0]

/-! ## What each call does -/

section Step

variable {s s' : Sched} {link : Link} {o : Outside} {r : Nat} {p : Pcb}

theorem allocProc_ok {exit ret2 retStack : Word} (h : s.allocProc exit ret2 retStack o = .ok (p, s')) :
    nextPid s < procMaxPid ∧ p = newPcb (nextPid s) ∧
      ∃ mem, s' = { s with lastPid := nextPid s, mem := mem } := by
  unfold allocProc at h
  dsimp only at h
  split at h
  · cases h
  · split at h
    · cases h
    · split at h
      · cases h
      · rename_i hpid _ _
        obtain ⟨rfl, rfl⟩ := Prod.mk.inj (Except.ok.inj h)
        exact ⟨Nat.lt_of_not_le hpid, rfl, _, rfl⟩

theorem processInit_ok {pageDir : Word} (h : s.processInit link o pageDir = .ok (r, s')) :
    nextPid s < procMaxPid ∧ ∃ mem, s' = { s with
      pcbs := s.pcbs ++ [{ newPcb (nextPid s) with state := .running, dirtable := pageDir, next := s.pcbs.length }],
      procCurrent := some s.pcbs.length, lastPid := nextPid s, mem := mem,
      esp0 := stackPage (nextPid s) + kstackSz } := by
  unfold processInit at h
  split at h
  · cases h
  · rename_i q t halloc
    obtain ⟨hlt, rfl, mem, rfl⟩ := allocProc_ok halloc
    obtain ⟨_, rfl⟩ := Prod.mk.inj (Except.ok.inj h)
    exact ⟨hlt, _, rfl⟩

theorem realFork_ok {retStack ebp ret : Word} {space : Space}
    (h : s.realFork link retStack ebp ret o space = .ok (r, s')) :
    nextPid s < procMaxPid ∧ ∃ c cur mem, s.procCurrent = some c ∧ s.pcbs[c]? = some cur ∧
      s' = forked s c (forkPcb s cur space) mem := by
  unfold realFork at h
  split at h
  · cases h
  · rename_i q t halloc
    obtain ⟨hlt, rfl, mem, rfl⟩ := allocProc_ok halloc
    split at h
    · cases h
    · rename_i c cur hcur
      obtain ⟨c', hc, hmap⟩ := Option.bind_eq_some_iff.mp hcur
      obtain ⟨cur', hcur', hpair⟩ := Option.map_eq_some_iff.mp hmap
      obtain ⟨rfl, rfl⟩ := Prod.mk.inj hpair
      obtain ⟨_, rfl⟩ := Prod.mk.inj (Except.ok.inj h)
      exact ⟨hlt, c', cur', _, hc, hcur', rfl⟩

theorem processStartUsermode_ok {space : Space} (h : s.processStartUsermode link o space = .ok s') :
    nextPid s < procMaxPid ∧ ∃ mem, s' = started s (startPcb s space) mem := by
  unfold processStartUsermode at h
  split at h
  · cases h
  · rename_i q t halloc
    obtain ⟨hlt, rfl, mem, rfl⟩ := allocProc_ok halloc
    obtain rfl := Except.ok.inj h
    exact ⟨hlt, _, rfl⟩

/-- The state after a switch from process `c` to process `l`. -/
def switched (s : Sched) (c l : Nat) (old p : Pcb) (regs : Registers) : Sched := { s with
  pcbs := (s.pcbs.modify c fun old => { old with state := .ready }).modify l
    fun p => { p with state := .running },
  procCurrent := some l, procList := some c, mem := setRegs s.mem old.regs regs,
  currentDir := p.dirtable, esp0 := p.kstack + kstackSz }

/-- `switch_task` with a process in `proc_list` other than the current one. -/
theorem switchTask_eq {c l : Nat} {old : Pcb} (hc : s.procCurrent = some c) (hl : s.procList = some l)
    (hold : s.pcbs[c]? = some old) (hp : s.pcbs[l]? = some p) (hne : c ≠ l) (regs : Registers) :
    s.switchTask regs = .ok (p.kstack + kstackSz - regsSz - 8, switched s c l old p regs) := by
  have hcur : (s.procCurrent.bind fun c => s.pcbs[c]?.map fun old => (c, old)) = some (c, old) := by
    rw [hc, Option.bind_some, hold]
    rfl
  have hmod : (s.pcbs.modify c fun old => { old with state := .ready })[l]? = some p := by
    rw [List.getElem?_modify, hp]
    simp [hne]
  unfold switchTask
  simp only [hl, hcur, Sched.modify, hmod]
  rfl

end Step

/-! ## The layout of a run -/

/-- Every process lies where its number says. -/
structure Laid (s : Sched) : Prop where
  lastPid : s.lastPid = s.pcbs.length
  small : s.lastPid < procMaxPid
  pcb : ∀ (i : Nat) (p : Pcb), s.pcbs[i]? = some p → p.pid = i + 1 ∧ p.kstack = stackPage (i + 1) ∧
    p.regs = stackPage (i + 1) + kstackSz - 8 - regsSz
  current : ∃ c old, s.procCurrent = some c ∧ s.pcbs[c]? = some old
  list : ∀ l, s.procList = some l → s.procCurrent ≠ some l ∧ ∃ p, s.pcbs[l]? = some p

section Laid

variable {s s' : Sched} {link : Link} {r : Nat}

theorem Laid.nextPid_eq (h : Laid s) : nextPid s = s.pcbs.length + 1 := by
  have := h.small
  have := h.lastPid
  unfold nextPid procMaxPid at *
  omega

theorem getElem?_append_new {l : List Pcb} {q p : Pcb} {i : Nat} (h : (l ++ [q])[i]? = some p) :
    l[i]? = some p ∨ (i = l.length ∧ p = q) := by
  rw [List.getElem?_append] at h
  split at h
  · exact .inl h
  · obtain ⟨hlt, heq⟩ := List.getElem?_eq_some_iff.mp h
    rw [List.length_singleton] at hlt
    have h0 : i - l.length = 0 := by omega
    simp only [h0, List.getElem_cons_zero] at heq
    exact .inr ⟨by omega, heq.symm⟩

/-- `modify` in the middle of a list changes what is there by the given function. -/
theorem getElem?_modify_some {l : List Pcb} {f : Pcb → Pcb} {c i : Nat} {p : Pcb}
    (h : (l.modify c f)[i]? = some p) : ∃ q, l[i]? = some q ∧ p = if c = i then f q else q := by
  rw [List.getElem?_modify] at h
  obtain ⟨q, hq, heq⟩ := Option.map_eq_some_iff.mp h
  exact ⟨q, hq, heq.symm⟩

theorem exists_getElem?_modify {l : List Pcb} {c i : Nat} {p : Pcb} (f : Pcb → Pcb)
    (h : l[i]? = some p) : ∃ q, (l.modify c f)[i]? = some q :=
  ⟨if c = i then f p else p, by rw [List.getElem?_modify, h]; rfl⟩

theorem processInit_laid {mem : KMem} {dir pageDir : Word} {esp0 : Nat} {o : Outside}
    (h : (boot mem dir esp0).processInit link o pageDir = .ok (r, s)) : Laid s := by
  obtain ⟨hlt, mem', rfl⟩ := processInit_ok h
  refine ⟨rfl, hlt, ?_, ⟨0, _, rfl, rfl⟩, fun l hl => by cases hl⟩
  intro i p hp
  rcases getElem?_append_new hp with hp | ⟨rfl, rfl⟩
  · cases hp
  · exact ⟨rfl, rfl, rfl⟩

/-- A new process at the end of the list keeps the layout, whatever else its creation links. -/
theorem Laid.pcb_append (h : Laid s) {q : Pcb} (hpid : q.pid = nextPid s)
    (hstack : q.kstack = stackPage (nextPid s))
    (hregs : q.regs = stackPage (nextPid s) + kstackSz - 8 - regsSz) :
    ∀ i p, (s.pcbs ++ [q])[i]? = some p → p.pid = i + 1 ∧ p.kstack = stackPage (i + 1) ∧
      p.regs = stackPage (i + 1) + kstackSz - 8 - regsSz := by
  intro i p hp
  rcases getElem?_append_new hp with hp | ⟨rfl, rfl⟩
  · exact h.pcb i p hp
  · rw [← h.nextPid_eq]
    exact ⟨hpid, hstack, hregs⟩

/-- What a call can do in a state that is laid out, `c` being the current process. -/
theorem Laid.step_cases {call : Call} {c : Nat} {old : Pcb} (h : Laid s)
    (hstep : step link s call = .ok (r, s')) (hc : s.procCurrent = some c)
    (hold : s.pcbs[c]? = some old) :
    (∃ retStack ebp ret o space mem, call = .fork retStack ebp ret o space ∧
      nextPid s < procMaxPid ∧ s' = forked s c (forkPcb s old space) mem) ∨
    (∃ o space mem, call = .startUsermode o space ∧ nextPid s < procMaxPid ∧
      s' = started s (startPcb s space) mem) ∨
    (∃ regs, call = .switch regs ∧ s' = s) ∨
    ∃ regs l p, call = .switch regs ∧ s.procList = some l ∧ s.pcbs[l]? = some p ∧ c ≠ l ∧
      s' = switched s c l old p regs := by
  cases call with
  | fork retStack ebp ret o space =>
    obtain ⟨hlt, c', cur, mem, hc', hcur, rfl⟩ := realFork_ok hstep
    obtain rfl : c = c' := Option.some.inj (hc.symm.trans hc')
    obtain rfl : old = cur := Option.some.inj (hold.symm.trans hcur)
    exact .inl ⟨retStack, ebp, ret, o, space, mem, rfl, hlt, rfl⟩
  | startUsermode o space =>
    simp only [step] at hstep
    split at hstep
    · cases hstep
    · rename_i t ht
      obtain ⟨_, rfl⟩ := Prod.mk.inj (Except.ok.inj hstep)
      obtain ⟨hlt, mem, rfl⟩ := processStartUsermode_ok ht
      exact .inr (.inl ⟨o, space, mem, rfl, hlt, rfl⟩)
  | switch regs =>
    cases hl : s.procList with
    | none =>
      simp only [step, switchTask, hl] at hstep
      obtain ⟨_, rfl⟩ := Prod.mk.inj (Except.ok.inj hstep)
      exact .inr (.inr (.inl ⟨regs, rfl, rfl⟩))
    | some l =>
      obtain ⟨hne, p, hp⟩ := h.list l hl
      have hcl : c ≠ l := fun heq => hne (by rw [hc, heq])
      rw [step, switchTask_eq hc hl hold hp hcl] at hstep
      obtain ⟨_, rfl⟩ := Prod.mk.inj (Except.ok.inj hstep)
      exact .inr (.inr (.inr ⟨regs, l, p, rfl, rfl, hp, hcl, rfl⟩))

theorem step_laid {call : Call} (h : Laid s) (hstep : step link s call = .ok (r, s')) : Laid s' := by
  obtain ⟨c, old, hc, hold⟩ := h.current
  have hclt := (List.getElem?_eq_some_iff.mp hold).1
  obtain ⟨_, _, _, _, space, mem, _, hlt, rfl⟩ | ⟨_, space, mem, _, hlt, rfl⟩ | ⟨_, _, rfl⟩ |
    ⟨regs, l, p, _, hl, hp, hcl, rfl⟩ := h.step_cases hstep hc hold
  · refine ⟨?_, hlt, ?_, ?_, ?_⟩
    · simp [forked, h.nextPid_eq]
    · intro i p hp
      obtain ⟨q, hq, rfl⟩ := getElem?_modify_some hp
      have := h.pcb_append rfl rfl rfl i q hq
      split <;> exact this
    · obtain ⟨q, hq⟩ := exists_getElem?_modify _ ((List.getElem?_append_left hclt).trans hold)
      exact ⟨c, q, hc, hq⟩
    · intro l hl
      obtain ⟨hne, p, hp⟩ := h.list l hl
      have hllt := (List.getElem?_eq_some_iff.mp hp).1
      exact ⟨hne, exists_getElem?_modify _ ((List.getElem?_append_left hllt).trans hp)⟩
  · refine ⟨?_, hlt, h.pcb_append rfl rfl rfl, ?_, ?_⟩
    · simp [started, h.nextPid_eq]
    · exact ⟨c, old, hc, (List.getElem?_append_left hclt).trans hold⟩
    · intro l hl
      obtain rfl := Option.some.inj hl
      refine ⟨fun heq => ?_, startPcb s space, ?_⟩
      · have := Option.some.inj (hc.symm.trans heq)
        omega
      · rw [started, List.getElem?_append_right (Nat.le_refl _), Nat.sub_self]
        rfl
  · exact h
  · obtain ⟨p₁, hp₁⟩ := exists_getElem?_modify (c := c) _ hp
    obtain ⟨old₁, hold₁⟩ := exists_getElem?_modify (c := c) _ hold
    obtain ⟨p₂, hp₂⟩ := exists_getElem?_modify (c := l) _ hp₁
    refine ⟨?_, h.small, ?_, ⟨l, p₂, rfl, hp₂⟩, ?_⟩
    · simp [switched, h.lastPid]
    · intro i q hq
      obtain ⟨q₁, hq₁, rfl⟩ := getElem?_modify_some hq
      obtain ⟨q₂, hq₂, rfl⟩ := getElem?_modify_some hq₁
      have := h.pcb i q₂ hq₂
      split <;> split <;> exact this
    · intro l' hl'
      obtain rfl := Option.some.inj hl'
      exact ⟨fun heq => hcl (Option.some.inj heq).symm, exists_getElem?_modify _ hold₁⟩

theorem run_laid {calls : List Call} {os : List Nat} (h : Laid s)
    (hrun : Machine.runAll (step link) s calls = .ok (os, s')) : Laid s' :=
  Machine.runAll_keeps (fun _ _ _ _ h hstep => step_laid h hstep) h hrun

end Laid

/-- Pids and kernel stacks are those of one process each, stacks lie in their range, and a saved
context with the two return words above it ends at the stack's top. -/
structure Consistent (s : Sched) : Prop where
  pids : ∀ (i j : Nat) (p q : Pcb), s.pcbs[i]? = some p → s.pcbs[j]? = some q → i ≠ j → p.pid ≠ q.pid
  kstacks : ∀ (i j : Nat) (p q : Pcb), s.pcbs[i]? = some p → s.pcbs[j]? = some q → i ≠ j → p.kstack ≠ q.kstack
  pages : ∀ (i : Nat) (p : Pcb), s.pcbs[i]? = some p → p.kstack % kb4 = 0 ∧ procVmmStart ≤ p.kstack ∧
    p.kstack + kb4 ≤ procVmmEnd
  contexts : ∀ (i : Nat) (p : Pcb), s.pcbs[i]? = some p → p.regs + regsSz + 8 = p.kstack + kstackSz

theorem Laid.consistent {s : Sched} (h : Laid s) : Consistent s := by
  have hbound : ∀ i p, s.pcbs[i]? = some p → i + 1 < 1024 := by
    intro i p hp
    have := (List.getElem?_eq_some_iff.mp hp).1
    have hsmall := h.small
    rw [h.lastPid, procMaxPid] at hsmall
    omega
  constructor
  · intro i j p q hp hq hij
    rw [(h.pcb i p hp).1, (h.pcb j q hq).1]
    omega
  · intro i j p q hp hq hij
    rw [(h.pcb i p hp).2.1, (h.pcb j q hq).2.1]
    unfold stackPage kstackSz kb4
    omega
  · intro i p hp
    have := hbound i p hp
    rw [(h.pcb i p hp).2.1]
    unfold procVmmEnd stackPage procVmmStart kstackSz kb4 mb256
    omega
  · intro i p hp
    rw [(h.pcb i p hp).2.1, (h.pcb i p hp).2.2]
    unfold stackPage kstackSz regsSz kb4
    omega

/-- In every state of a run the contexts are where `switch_task` computes them: it returns the
address of the saved context of the process it selects, whose stack's top is left in the TSS. -/
theorem layout_consistent {link : Link} {mem : KMem} {dir pageDir : Word} {esp0 r : Nat} {o : Outside}
    {s₀ s : Sched} (hinit : (boot mem dir esp0).processInit link o pageDir = .ok (r, s₀))
    {calls : List Call} {os : List Nat} (hrun : Machine.runAll (step link) s₀ calls = .ok (os, s)) :
    Consistent s ∧ ∀ regs, s.procList ≠ none → ∃ addr s' l p,
      s.switchTask regs = .ok (addr, s') ∧ s'.procCurrent = some l ∧ s'.pcbs[l]? = some p ∧
      s.procList = some l ∧ addr = p.regs ∧ s'.esp0 = p.kstack + kstackSz := by
  have h := run_laid (processInit_laid hinit) hrun
  refine ⟨h.consistent, fun regs hlist => ?_⟩
  obtain ⟨l, hl⟩ := Option.ne_none_iff_exists'.mp hlist
  obtain ⟨c, old, hc, hold⟩ := h.current
  obtain ⟨hne, p, hp⟩ := h.list l hl
  have hcl : c ≠ l := fun heq => hne (by rw [hc, heq])
  refine ⟨_, _, l, { p with state := .running }, switchTask_eq hc hl hold hp hcl regs, rfl, ?_, hl, ?_, rfl⟩
  · simp only [switched, List.getElem?_modify, hp]
    simp [hcl]
  · have := h.consistent.contexts l p hp
    show _ = p.regs
    omega

/-- Link addresses inside the kernel's image. -/
def sampleLink : Link := ⟨0x100100, 0x100200, 0x100300⟩

/-- The first process and one in user mode, on a machine with free frames. -/
def sampleStart : List Call := [.startUsermode ⟨0x402000, false⟩ ⟨0x403000, fun _ => 0⟩]

theorem sample_run : ∃ s₀ s,
    (boot (fun _ => 0) 0x1000 0).processInit sampleLink ⟨0x401000, false⟩ 0x1000 = .ok (1, s₀) ∧
    Machine.runAll (step sampleLink) s₀ sampleStart = .ok ([0], s) ∧ s.procList = some 1 :=
  ⟨_, _, rfl, rfl, rfl⟩

theorem layout_consistent_sample : ∃ s₀ s,
    (boot (fun _ => 0) 0x1000 0).processInit sampleLink ⟨0x401000, false⟩ 0x1000 = .ok (1, s₀) ∧
    Machine.runAll (step sampleLink) s₀ sampleStart = .ok ([0], s) ∧ Consistent s ∧
    ∃ addr s' l p, s.switchTask zeroRegs = .ok (addr, s') ∧ s'.procCurrent = some l ∧
      s'.pcbs[l]? = some p ∧ s.procList = some l ∧ addr = p.regs ∧ s'.esp0 = p.kstack + kstackSz := by
  obtain ⟨s₀, s, hinit, hrun, hlist⟩ := sample_run
  obtain ⟨h1, h2⟩ := layout_consistent hinit hrun
  exact ⟨s₀, s, hinit, hrun, h1, h2 zeroRegs (by rw [hlist]; exact Option.some_ne_none 1)⟩

end Proc
end Frod
