import Frod.Lib.Machine
import Frod.Intr.Stub

/-!
# Frod.Intr.Transparent

What an interrupt leaves of the interrupted code's registers. `interrupt_ok` says that when the C
handler leaves the stack as it was, `iret` resumes the interrupted code with its own registers, in
kernel and in user mode, for every vector. Only the data segments are not loaded back from where the
stub saved them: `transparent_iff`.
-/

namespace Frod
namespace Intr

open Proc Cpu

theorem hi_append (x v : BitVec 16) : (x ++ v).extractLsb' 16 16 = x :=
  BitVec.extractLsb'_append_eq_left

theorem lo_append (x v : BitVec 16) : (x ++ v).setWidth 16 = v := by
  rw [BitVec.setWidth_append]
  simp

theorem zero_append (v : BitVec 16) : (0 : BitVec 16) ++ v = v.setWidth 32 := by
  rw [BitVec.setWidth_eq_append (by decide)]
  rfl

/-- The words above the frame: in user mode the outer stack, in kernel mode what was there. -/
def above (c : Cpu) : List Word := if c.user then [c.esp, c.ss.setWidth 32] else c.stack

/-- The frame of an interrupt. -/
def frame (c : Cpu) (tamperedEsp intNo errCode : Word) : Registers :=
  ⟨c.gs.setWidth 32, c.fs.setWidth 32, c.es.setWidth 32, c.ds.setWidth 32, c.edi, c.esi, c.ebp,
    tamperedEsp, c.ebx, c.edx, c.ecx, c.eax, intNo, errCode, c.eip, c.cs.setWidth 32, c.eflags⟩

/-- Where the frame of an interrupt ends. -/
def stackTop (c : Cpu) (esp0 : Word) : Word := if c.user then esp0 - 8 else c.esp

/-- The processor when it gets to `STUB`. -/
def atStub (c : Cpu) (esp0 intNo errCode : Word) : Cpu :=
  { c with esp := stackTop c esp0 - 20, ss := if c.user then 0x10 else c.ss, cs := 0x08,
           eflags := c.eflags &&& ~~~0x34300,
           stack := intNo :: errCode :: c.eip :: c.cs.setWidth 32 :: c.eflags :: above c }

theorem execAll_append {c : Cpu} {is js : List Instr} :
    execAll c (is ++ js) = execAll c is >>= fun c => execAll c js := by
  induction is generalizing c with
  | nil => rfl
  | cons i is ih =>
    rw [List.cons_append, execAll, execAll]
    cases exec c i with
    | error e => rfl
    | ok c => exact ih

theorem deliver_eq (v : Nat) (errCode esp0 : Word) (c : Cpu) :
    deliver v errCode esp0 c = { c with
      esp := stackTop c esp0 - (if hasErrCode v then 16 else 12)
      ss := if c.user then 0x10 else c.ss
      cs := 0x08
      eflags := c.eflags &&& ~~~0x34300
      stack := (if hasErrCode v then [errCode] else []) ++
        c.eip :: c.cs.setWidth 32 :: c.eflags :: above c } := by
  unfold deliver stackTop above
  by_cases hu : c.user
  · by_cases he : hasErrCode v = true
    · simp [hu, he, push]
      bv_omega
    · simp [hu, he, push]
      bv_omega
  · by_cases he : hasErrCode v = true
    · simp [hu, he, push]
      bv_omega
    · simp [hu, he, push]
      bv_omega

theorem execAll_vector {v : Nat} {code : List Instr} (hv : vectorCode v = some code)
    (errCode esp0 : Word) (c : Cpu) :
    ∃ intNo err, execAll (deliver v errCode esp0 c) code = .ok (atStub c esp0 intNo err) := by
  rw [deliver_eq]
  unfold vectorCode at hv
  have hsub : ∀ x : Word, x - 16 - 4 = x - 20 ∧ x - 12 - 4 - 4 = x - 20 := by
    intro x
    constructor
    · bv_omega
    · bv_omega
  split at hv
  · rename_i h
    cases hv
    have he : hasErrCode v = true := by simpa [hasErrCode] using h
    refine ⟨(BitVec.ofNat 8 v).signExtend 32, errCode, ?_⟩
    rw [if_pos he, if_pos he, execAll, exec, Machine.ok_bind, execAll, push, atStub, ← (hsub _).1]
    rfl
  · rename_i h
    have he : ¬ hasErrCode v = true := by simpa [hasErrCode] using h
    rw [if_neg he, if_neg he]
    split at hv
    · cases hv
      refine ⟨(BitVec.ofNat 8 v).signExtend 32, (0 : BitVec 8).signExtend 32, ?_⟩
      rw [execAll, exec, Machine.ok_bind, execAll, exec, Machine.ok_bind, execAll, push, push, atStub,
        ← (hsub _).2]
      rfl
    · split at hv
      · cases hv
        refine ⟨BitVec.ofNat 32 v, 0, ?_⟩
        rw [execAll, exec, Machine.ok_bind, execAll, exec, Machine.ok_bind, execAll, push, push, atStub,
          ← (hsub _).2]
        rfl
      · cases hv

/-- The processor when it calls the C handler. -/
def atCall (c : Cpu) (esp0 intNo errCode : Word) : Cpu :=
  { atStub c esp0 intNo errCode with
    eax := stackTop c esp0 - 68, esp := stackTop c esp0 - 72, ds := 0x10, es := 0x10, fs := 0x10,
    gs := 0x10,
    stack := (stackTop c esp0 - 68) ::
      ((frame c (stackTop c esp0 - 20) intNo errCode).toList ++ above c) }

theorem execAll_stubSave (c : Cpu) (esp0 intNo errCode : Word) :
    execAll (atStub c esp0 intNo errCode) stubSave = .ok (atCall c esp0 intNo errCode) := by
  have hx : ∀ x : Word, x ^^^ x = 0 := fun x => BitVec.xor_self
  have hz : (0 : Word).extractLsb' 16 16 = 0 := rfl
  have hsub : stackTop c esp0 - 20 - 4 - 4 - 4 - 4 - 4 - 4 - 4 - 4 - 4 - 4 - 4 - 4 =
      stackTop c esp0 - 68 := by bv_omega
  have hsub4 : stackTop c esp0 - 68 - 4 = stackTop c esp0 - 72 := by bv_omega
  simp only [stubSave, execAll, exec, Machine.ok_bind, push, setAx, seg, setSeg, hx, hz, hi_append,
    lo_append, zero_append, atStub, frame, Registers.toList, List.cons_append, List.nil_append, hsub,
    hsub4, atCall]

theorem entered_eq {v : Nat} {errCode esp0 : Word} {c k : Cpu} (h : entered v errCode esp0 c = .ok k) :
    ∃ intNo err, k = atCall c esp0 intNo err := by
  rw [entered] at h
  split at h
  · cases h
  · rename_i code hcode
    obtain ⟨intNo, err, hvec⟩ := execAll_vector hcode errCode esp0 c
    rw [execAll_append, hvec, Machine.ok_bind, execAll_stubSave] at h
    exact ⟨intNo, err, (Except.ok.inj h).symm⟩

/-- What the C handler has to leave as it was: where the stack is and what it holds above the
argument, and the privilege level. -/
structure Keeps (k k' : Cpu) : Prop where
  esp : k'.esp = k.esp
  cs : k'.cs = k.cs
  stack : k'.stack.tail = k.stack.tail

/-- What an interrupt leaves in the data segments. -/
def segAfter (c : Cpu) : BitVec 16 := if c.user then 0 else 0x10

/-- The general registers, `eip`, `cs` and `eflags` are as they were. -/
structure Resumes (c c' : Cpu) : Prop where
  eax : c'.eax = c.eax
  ecx : c'.ecx = c.ecx
  edx : c'.edx = c.edx
  ebx : c'.ebx = c.ebx
  esp : c'.esp = c.esp
  ebp : c'.ebp = c.ebp
  esi : c'.esi = c.esi
  edi : c'.edi = c.edi
  eip : c'.eip = c.eip
  cs : c'.cs = c.cs
  eflags : c'.eflags = c.eflags

/-- Everything the interrupted code can see of the processor is as it was. -/
structure Transparent (c c' : Cpu) : Prop where
  resumes : Resumes c c'
  ds : c'.ds = c.ds
  es : c'.es = c.es
  fs : c'.fs = c.fs
  gs : c'.gs = c.gs

theorem rpl_outer {cs : BitVec 16} : rpl 0x08 < rpl cs ↔ rpl cs ≠ 0 := by
  have h : rpl 0x08 = 0 := rfl
  rw [h]
  generalize rpl cs = r
  revert r
  decide

theorem leave_kernelData {cpl : BitVec 2} (h : cpl ≠ 0) : leave cpl 0x10 = 0 := by
  have hdpl : dpl 0x10 = 0 := by decide
  rw [leave, hdpl]
  exact if_pos (by bv_omega)

theorem left_ok {c k : Cpu} {esp0 intNo err : Word} (h : Keeps (atCall c esp0 intNo err) k) :
    ∃ c', left k = .ok c' ∧ Resumes c c' ∧
      c'.ds = segAfter c ∧ c'.es = segAfter c ∧ c'.fs = segAfter c ∧ c'.gs = segAfter c := by
  obtain ⟨hesp, hcs, hstack⟩ := h
  have hlo : (0x10 : Word).setWidth 16 = (0x10 : BitVec 16) := rfl
  have hdrop : ∀ l : List Word, l.drop 1 = l.tail := fun l => List.drop_one
  have hcs' : ∀ s : BitVec 16, (s.setWidth 32).setWidth 16 = s := by
    intro s
    simp
  simp only [left, stubRestore, execAll, exec, Machine.ok_bind, pop, setSeg, hdrop, hstack, hesp, hcs,
    atCall, frame, Registers.toList, List.cons_append, List.nil_append, List.tail_cons, hlo,
    List.drop_succ_cons, iret, atStub, hcs', rpl_outer]
  by_cases hu : rpl c.cs ≠ 0
  · have habove : above c = [c.esp, c.ss.setWidth 32] := if_pos hu
    have hseg : segAfter c = 0 := if_pos hu
    simp only [if_pos hu, habove, Machine.ok_bind, leave_kernelData hu, hseg]
    exact ⟨_, rfl, ⟨rfl, rfl, rfl, rfl, rfl, rfl, rfl, rfl, rfl, rfl, rfl⟩, rfl, rfl, rfl, rfl⟩
  · have habove : above c = c.stack := if_neg hu
    have hseg : segAfter c = 0x10 := if_neg hu
    have htop : stackTop c esp0 = c.esp := if_neg hu
    simp only [if_neg hu, habove, hseg, htop]
    refine ⟨_, rfl, ⟨rfl, rfl, rfl, rfl, ?_, rfl, rfl, rfl, rfl, rfl, rfl⟩, rfl, rfl, rfl, rfl⟩
    dsimp only
    bv_omega

/-- An interrupt resumes the interrupted code, with the data segments it leaves there. -/
theorem interrupt_ok {σ : Type} {handler : σ → Cpu → Except Stop (σ × Cpu)} {v : Nat}
    {errCode esp0 : Word} {s s' : σ} {c k k' : Cpu} (hk : entered v errCode esp0 c = .ok k)
    (hh : handler s k = .ok (s', k')) (hkeeps : Keeps k k') :
    ∃ c', interrupt handler v errCode esp0 s c = .ok (s', c') ∧ Resumes c c' ∧
      c'.ds = segAfter c ∧ c'.es = segAfter c ∧ c'.fs = segAfter c ∧ c'.gs = segAfter c := by
  obtain ⟨intNo, err, rfl⟩ := entered_eq hk
  obtain ⟨c', hleft, hres⟩ := left_ok hkeeps
  refine ⟨c', ?_, hres⟩
  rw [interrupt, hk, Machine.ok_bind, hh, Machine.ok_bind]
  dsimp only
  rw [hleft, Machine.ok_bind]

/-- An interrupt is transparent exactly when its data segments were the ones it leaves: the kernel's
in kernel mode, and none in user mode. -/
theorem transparent_iff {σ : Type} {handler : σ → Cpu → Except Stop (σ × Cpu)} {v : Nat}
    {errCode esp0 : Word} {s s' : σ} {c k k' : Cpu} (hk : entered v errCode esp0 c = .ok k)
    (hh : handler s k = .ok (s', k')) (hkeeps : Keeps k k') :
    ∃ c', interrupt handler v errCode esp0 s c = .ok (s', c') ∧
      (Transparent c c' ↔
        if c.user then c.ds = 0 ∧ c.es = 0 ∧ c.fs = 0 ∧ c.gs = 0
        else c.ds = 0x10 ∧ c.es = 0x10 ∧ c.fs = 0x10 ∧ c.gs = 0x10) := by
  obtain ⟨c', hok, hres, hds, hes, hfs, hgs⟩ := interrupt_ok hk hh hkeeps
  refine ⟨c', hok, ?_⟩
  have hsegs : Transparent c c' ↔
      c.ds = segAfter c ∧ c.es = segAfter c ∧ c.fs = segAfter c ∧ c.gs = segAfter c := by
    constructor
    · intro h
      exact ⟨h.ds.symm.trans hds, h.es.symm.trans hes, h.fs.symm.trans hfs, h.gs.symm.trans hgs⟩
    · rintro ⟨h1, h2, h3, h4⟩
      exact ⟨hres, hds.trans h1.symm, hes.trans h2.symm, hfs.trans h3.symm, hgs.trans h4.symm⟩
  rw [hsegs, segAfter]
  split
  · rfl
  · rfl

/-- Every vector that has a stub gets to its C handler. -/
theorem entered_ok {v : Nat} {code : List Instr} (hv : vectorCode v = some code) (errCode esp0 : Word)
    (c : Cpu) : ∃ k, entered v errCode esp0 c = .ok k := by
  obtain ⟨intNo, err, hvec⟩ := execAll_vector hv errCode esp0 c
  refine ⟨atCall c esp0 intNo err, ?_⟩
  rw [entered, hv]
  dsimp only
  rw [execAll_append, hvec, Machine.ok_bind, execAll_stubSave]

/-- Kernel code that runs after `gdt_install`: its `gs` selects GDT entry 6. -/
def sampleCpu (gs : BitVec 16) : Cpu :=
  ⟨1, 2, 3, 4, 0x3FF000, 6, 7, 8, 0x10, 0x10, 0x10, gs, 0x10, 0x08, 0x100400, 0x202, []⟩

/-- A handler that does nothing. -/
def idle (s : Unit) (k : Cpu) : Except Stop (Unit × Cpu) := .ok (s, k)

theorem transparent_iff_flat :
    ∃ c', interrupt idle 64 0 0 () (sampleCpu 0x10) = .ok ((), c') ∧ Transparent (sampleCpu 0x10) c' := by
  obtain ⟨k, hk⟩ := entered_ok (v := 64) rfl 0 0 (sampleCpu 0x10)
  have hh : idle () k = .ok ((), k) := rfl
  obtain ⟨c', hok, hiff⟩ := transparent_iff hk hh ⟨rfl, rfl, rfl⟩
  refine ⟨c', hok, hiff.mpr ?_⟩
  rw [if_neg (by decide)]
  exact ⟨rfl, rfl, rfl, rfl⟩

/-- A timer interrupt in the kernel: `gs` does not select GDT entry 6 any more. -/
theorem not_transparent_gs :
    ∃ c', interrupt idle 64 0 0 () (sampleCpu 0x30) = .ok ((), c') ∧
      ¬ Transparent (sampleCpu 0x30) c' ∧ c'.gs = 0x10 := by
  obtain ⟨k, hk⟩ := entered_ok (v := 64) rfl 0 0 (sampleCpu 0x30)
  have hh : idle () k = .ok ((), k) := rfl
  obtain ⟨c', hok, _, _, _, _, hgs⟩ := interrupt_ok hk hh ⟨rfl, rfl, rfl⟩
  rw [segAfter, if_neg (by decide)] at hgs
  refine ⟨c', hok, fun htr => ?_, hgs⟩
  have hbad := htr.gs.symm.trans hgs
  exact absurd hbad (by decide)

end Intr
end Frod
