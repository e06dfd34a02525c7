import Frod.Proc.Run
import Frod.Intr.Transparent

/-!
# Frod.Intr.Switch

Task switching by the timer interrupt. `switch_task` makes another process the current one and
returns the address of its context, but `intr_handler` drops that address, and the stub resumes the
code that was interrupted: `tick_ok`. So `switches_iff`: the registers of a run belong to the current
process only if at every interrupt they happen to be the ones saved for the other process.
-/

namespace Frod
namespace Intr

open Proc Sched

/-- The frame that `regs` points to. -/
def regsOnStack : List Word → Option Registers
  | gs :: fs :: es :: ds :: edi :: esi :: ebp :: esp :: ebx :: edx :: ecx :: eax :: intNo :: errCode ::
      eip :: cs :: eflags :: _ =>
    some ⟨gs, fs, es, ds, edi, esi, ebp, esp, ebx, edx, ecx, eax, intNo, errCode, eip, cs, eflags⟩
  | _ => none

/-- `intr_handler`: what `switch_task` returns is not used, and the value of the handler is 0. -/
def intrHandler (s : Sched) (k : Cpu) : Except Stop (Sched × Cpu) :=
  match regsOnStack k.stack.tail with
  | none => .error (.pageFault k.esp.toNat)
  | some regs =>
    match s.switchTask regs with
    | .error e => .error e
    | .ok (_, s) => .ok (s, { k with eax := 0 })

/-- `IRQ_TIMER`. -/
def irqTimer : Nat := 64

/-- A timer interrupt of code with registers `c`: the registers after it and the processes. -/
def tick (s : Sched) (c : Cpu) : Except Stop (Cpu × Sched) :=
  match interrupt intrHandler irqTimer 0 (BitVec.ofNat 32 s.esp0) s c with
  | .error e => .error e
  | .ok (s, c) => .ok (c, s)

/-- The registers of `c` that an interrupt restores are the ones saved in `r`. The stack pointer that
`pusha` saves is not restored. -/
structure SavedIn (c : Cpu) (r : Registers) : Prop where
  eax : r.eax = c.eax
  ecx : r.ecx = c.ecx
  edx : r.edx = c.edx
  ebx : r.ebx = c.ebx
  ebp : r.ebp = c.ebp
  esi : r.esi = c.esi
  edi : r.edi = c.edi
  eip : r.eip = c.eip
  cs : r.cs = c.cs.setWidth 32
  eflags : r.eflags = c.eflags

/-- The registers, the page directory and `proc_current` belong to one process. -/
def Matched (s : Sched) (c : Cpu) : Prop := ∃ l p, s.procCurrent = some l ∧ s.pcbs[l]? = some p ∧
  SavedIn c (regsAt s.mem p.regs) ∧ s.currentDir = p.dirtable

/-- Interrupts of codes with registers `cs`, one after the other, all resume the process they
select. -/
def Switches (s : Sched) : List Cpu → Prop
  | [] => True
  | c :: cs => ∃ c' s', tick s c = .ok (c', s') ∧ Matched s' c' ∧ Switches s' cs

/-- Two processes, the current one and the one in `proc_list`, with contexts apart. -/
structure Pair (s : Sched) (a b : Nat) (pa pb : Pcb) : Prop where
  current : s.procCurrent = some a
  list : s.procList = some b
  pcbA : s.pcbs[a]? = some pa
  pcbB : s.pcbs[b]? = some pb
  ne : a ≠ b
  apart : pa.regs + regsSz ≤ pb.regs ∨ pb.regs + regsSz ≤ pa.regs

theorem savedIn_frame {c c' : Cpu} {sp intNo err : Word} {r : Registers} (h : SavedIn c r) :
    SavedIn c' (frame c sp intNo err) ↔ SavedIn c' r := by
  obtain ⟨h1, h2, h3, h4, h5, h6, h7, h8, h9, h10⟩ := h
  constructor
  · intro hf
    exact ⟨h1.trans hf.eax, h2.trans hf.ecx, h3.trans hf.edx, h4.trans hf.ebx, h5.trans hf.ebp,
      h6.trans hf.esi, h7.trans hf.edi, h8.trans hf.eip, h9.trans hf.cs, h10.trans hf.eflags⟩
  · intro hr
    exact ⟨h1.symm.trans hr.eax, h2.symm.trans hr.ecx, h3.symm.trans hr.edx, h4.symm.trans hr.ebx,
      h5.symm.trans hr.ebp, h6.symm.trans hr.esi, h7.symm.trans hr.edi, h8.symm.trans hr.eip,
      h9.symm.trans hr.cs, h10.symm.trans hr.eflags⟩

theorem Resumes.savedIn {c c' : Cpu} {r : Registers} (h : Resumes c c') : SavedIn c' r ↔ SavedIn c r := by
  constructor
  · intro hs
    exact ⟨hs.eax.trans h.eax, hs.ecx.trans h.ecx, hs.edx.trans h.edx, hs.ebx.trans h.ebx,
      hs.ebp.trans h.ebp, hs.esi.trans h.esi, hs.edi.trans h.edi, hs.eip.trans h.eip,
      hs.cs.trans (by rw [h.cs]), hs.eflags.trans h.eflags⟩
  · intro hs
    exact ⟨hs.eax.trans h.eax.symm, hs.ecx.trans h.ecx.symm, hs.edx.trans h.edx.symm,
      hs.ebx.trans h.ebx.symm, hs.ebp.trans h.ebp.symm, hs.esi.trans h.esi.symm,
      hs.edi.trans h.edi.symm, hs.eip.trans h.eip.symm, hs.cs.trans (by rw [h.cs]),
      hs.eflags.trans h.eflags.symm⟩

section Tick

variable {s : Sched} {a b : Nat} {pa pb : Pcb}

/-- One interrupt: the processes change places, and the interrupted code goes on. -/
theorem tick_ok (h : Pair s a b pa pb) (c : Cpu) : ∃ c' sp intNo err,
    tick s c = .ok (c', switched s a b pa pb (frame c sp intNo err)) ∧ Resumes c c' := by
  obtain ⟨k, hk⟩ := entered_ok (v := irqTimer) rfl 0 (BitVec.ofNat 32 s.esp0) c
  obtain ⟨intNo, err, rfl⟩ := entered_eq hk
  let top := stackTop c (BitVec.ofNat 32 s.esp0)
  have hswitch := switchTask_eq h.current h.list h.pcbA h.pcbB h.ne (frame c (top - 20) intNo err)
  have hregs : regsOnStack (atCall c (BitVec.ofNat 32 s.esp0) intNo err).stack.tail =
      some (frame c (top - 20) intNo err) := rfl
  have hh : intrHandler s (atCall c (BitVec.ofNat 32 s.esp0) intNo err) =
      .ok (switched s a b pa pb (frame c (top - 20) intNo err),
        { atCall c (BitVec.ofNat 32 s.esp0) intNo err with eax := 0 }) := by
    rw [intrHandler, hregs]
    dsimp only
    rw [hswitch]
  obtain ⟨c', hok, hres, _⟩ := interrupt_ok hk hh ⟨rfl, rfl, rfl⟩
  refine ⟨c', top - 20, intNo, err, ?_, hres⟩
  rw [tick, hok]

theorem Pair.switched (h : Pair s a b pa pb) (r : Registers) :
    Pair (switched s a b pa pb r) b a { pb with state := .running } { pa with state := .ready } := by
  have hab := h.ne
  refine ⟨rfl, rfl, ?_, ?_, Ne.symm hab, Or.symm h.apart⟩
  · simp [Proc.switched, h.pcbB, hab]
  · simp [Proc.switched, h.pcbA, Ne.symm hab]

theorem Pair.matched (h : Pair s a b pa pb) (r : Registers) (c : Cpu) :
    Matched (Proc.switched s a b pa pb r) c ↔ SavedIn c (regsAt s.mem pb.regs) := by
  have hpair := h.switched r
  have hregs : regsAt (Proc.switched s a b pa pb r).mem pb.regs = regsAt s.mem pb.regs :=
    regsAt_setRegs_other (Or.symm h.apart)
  constructor
  · rintro ⟨l, p, hl, hp, hsaved, _⟩
    obtain rfl := Option.some.inj (hpair.current.symm.trans hl)
    obtain rfl := Option.some.inj (hpair.pcbA.symm.trans hp)
    exact hregs ▸ hsaved
  · intro hsaved
    exact ⟨b, _, hpair.current, hpair.pcbA, hregs.symm ▸ hsaved, rfl⟩

end Tick

/-- A run of interrupts resumes what it selects exactly when all interrupted codes have the registers
that were saved for the other process at the start. -/
theorem Pair.switches : ∀ {cs : List Cpu} {s : Sched} {a b : Nat} {pa pb : Pcb},
    Pair s a b pa pb → (Switches s cs ↔ ∀ c ∈ cs, SavedIn c (regsAt s.mem pb.regs)) := by
  intro cs
  induction cs with
  | nil =>
    intro s a b pa pb _
    exact ⟨fun _ c hc => (by cases hc), fun _ => trivial⟩
  | cons c cs ih =>
    intro s a b pa pb h
    obtain ⟨c', sp, intNo, err, hok, hres⟩ := tick_ok h c
    have hnext := ih (h.switched (frame c sp intNo err))
    have hsaved : regsAt (Proc.switched s a b pa pb (frame c sp intNo err)).mem pa.regs =
        frame c sp intNo err := regsAt_setRegs_same _ _ _
    rw [hsaved] at hnext
    have hhead : Matched (Proc.switched s a b pa pb (frame c sp intNo err)) c' ↔
        SavedIn c (regsAt s.mem pb.regs) := (h.matched _ c').trans hres.savedIn
    constructor
    · rintro ⟨c₁, s₁, h₁, hmatch, hrest⟩
      obtain ⟨rfl, rfl⟩ := Machine.ok_inj hok h₁
      have hc := hhead.mp hmatch
      intro d hd
      rcases List.mem_cons.mp hd with rfl | hd
      · exact hc
      · exact (savedIn_frame hc).mp (hnext.mp hrest d hd)
    · intro hall
      have hc := hall c List.mem_cons_self
      refine ⟨c', _, hok, hhead.mpr hc, hnext.mpr fun d hd => ?_⟩
      exact (savedIn_frame hc).mpr (hall d (List.mem_cons_of_mem c hd))

/-- The two processes that `process_init` and `process_start_usermode` set up. -/
theorem setup_pair {link : Link} {mem : KMem} {dir pageDir : Word} {esp0 r : Nat} {o o' : Outside}
    {space : Space} {s₀ s₁ : Sched} (hinit : (boot mem dir esp0).processInit link o pageDir = .ok (r, s₀))
    (hstart : s₀.processStartUsermode link o' space = .ok s₁) (mem' : KMem) :
    ∃ pa pb, s₁.pcbs = [pa, pb] ∧ Pair { s₁ with mem := mem' } 0 1 pa pb := by
  obtain ⟨_, m₀, rfl⟩ := processInit_ok hinit
  obtain ⟨_, m₁, rfl⟩ := processStartUsermode_ok hstart
  refine ⟨_, _, rfl, rfl, rfl, rfl, rfl, by decide, .inl ?_⟩
  change procVmmStart + 1 * kstackSz + kstackSz - 8 - regsSz + regsSz ≤
    procVmmStart + 2 * kstackSz + kstackSz - 8 - regsSz
  decide

/-- From `process_init` and `process_start_usermode` on, with any saved contexts: the interrupts
resume the process they select exactly when each of them interrupts code whose registers are the ones
first saved for the process in user mode. -/
theorem switches_iff {link : Link} {mem : KMem} {dir pageDir : Word} {esp0 r : Nat} {o o' : Outside}
    {space : Space} {s₀ s₁ : Sched} (hinit : (boot mem dir esp0).processInit link o pageDir = .ok (r, s₀))
    (hstart : s₀.processStartUsermode link o' space = .ok s₁) (mem' : KMem) (cs : List Cpu) :
    ∃ p, s₁.pcbs[1]? = some p ∧
      (Switches { s₁ with mem := mem' } cs ↔ ∀ c ∈ cs, SavedIn c (regsAt mem' p.regs)) := by
  obtain ⟨pa, pb, hpcbs, hpair⟩ := setup_pair hinit hstart mem'
  refine ⟨pb, ?_, hpair.switches⟩
  rw [hpcbs]
  rfl

theorem sample_setup : ∃ s₀ s₁,
    (boot (fun _ => 0) 0x1000 0).processInit sampleLink ⟨0x401000, false⟩ 0x1000 = .ok (1, s₀) ∧
    s₀.processStartUsermode sampleLink ⟨0x402000, false⟩ ⟨0x403000, fun _ => 0⟩ = .ok s₁ ∧
    s₁.pcbs[1]?.map Pcb.regs = some 0x10002FB4 :=
  ⟨_, _, rfl, rfl, rfl⟩

/-- The interrupted code has just the registers that were saved for the other process. -/
theorem switches_iff_same : ∃ s₀ s₁,
    (boot (fun _ => 0) 0x1000 0).processInit sampleLink ⟨0x401000, false⟩ 0x1000 = .ok (1, s₀) ∧
    s₀.processStartUsermode sampleLink ⟨0x402000, false⟩ ⟨0x403000, fun _ => 0⟩ = .ok s₁ ∧
    Switches { s₁ with mem := setRegs s₁.mem 0x10002FB4 (frame (sampleCpu 0x10) 0 0 0) }
      [sampleCpu 0x10] := by
  obtain ⟨s₀, s₁, hinit, hstart, hregs⟩ := sample_setup
  refine ⟨s₀, s₁, hinit, hstart, ?_⟩
  obtain ⟨p, hp, hiff⟩ := switches_iff hinit hstart
    (setRegs s₁.mem 0x10002FB4 (frame (sampleCpu 0x10) 0 0 0)) [sampleCpu 0x10]
  rw [hp] at hregs
  have hp4 : p.regs = 0x10002FB4 := Option.some.inj hregs
  refine hiff.mpr fun c hc => ?_
  rw [List.mem_singleton.mp hc, hp4, regsAt_setRegs_same]
  exact ⟨rfl, rfl, rfl, rfl, rfl, rfl, rfl, rfl, rfl, rfl⟩

/-- A timer interrupt in the kernel: the process in user mode becomes the current one, and the kernel
code goes on. -/
theorem not_switches_kernel : ∃ s₀ s₁,
    (boot (fun _ => 0) 0x1000 0).processInit sampleLink ⟨0x401000, false⟩ 0x1000 = .ok (1, s₀) ∧
    s₀.processStartUsermode sampleLink ⟨0x402000, false⟩ ⟨0x403000, fun _ => 0⟩ = .ok s₁ ∧
    ¬ Switches { s₁ with mem := setRegs s₁.mem 0x10002FB4 zeroRegs } [sampleCpu 0x10] := by
  obtain ⟨s₀, s₁, hinit, hstart, hregs⟩ := sample_setup
  refine ⟨s₀, s₁, hinit, hstart, fun hswitches => ?_⟩
  obtain ⟨pa, pb, hpcbs, hpair⟩ := setup_pair hinit hstart (setRegs s₁.mem 0x10002FB4 zeroRegs)
  rw [hpcbs] at hregs
  have hp4 : pb.regs = 0x10002FB4 := Option.some.inj hregs
  have hsaved := hpair.switches.mp hswitches (sampleCpu 0x10) List.mem_cons_self
  dsimp only at hsaved
  rw [hp4, regsAt_setRegs_same] at hsaved
  exact absurd hsaved.eax (by decide)

end Intr
end Frod
