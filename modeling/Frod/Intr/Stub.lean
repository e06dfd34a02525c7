import Frod.Proc.Model

/-!
# Frod.Intr.Stub

Interrupts, from the interrupted instruction to `iret`: what the processor pushes, and the code of
`isr_asm.s` instruction by instruction.

The stack is the list of its words from `esp` upwards. An interrupt in user mode starts a new one at
`tss.esp0`, and `iret` drops it again.
-/

namespace Frod
namespace Intr

open Proc

structure Cpu where
  eax : Word
  ecx : Word
  edx : Word
  ebx : Word
  esp : Word
  ebp : Word
  esi : Word
  edi : Word
  ds : BitVec 16
  es : BitVec 16
  fs : BitVec 16
  gs : BitVec 16
  ss : BitVec 16
  cs : BitVec 16
  eip : Word
  eflags : Word
  stack : List Word

namespace Cpu

/-- The privilege level of a selector; of `cs`, the current one. -/
def rpl (sel : BitVec 16) : BitVec 2 := sel.setWidth 2

def user (c : Cpu) : Prop := rpl c.cs ≠ 0

instance (c : Cpu) : Decidable c.user := inferInstanceAs (Decidable (_ ≠ _))

def push (w : Word) (c : Cpu) : Cpu := { c with esp := c.esp - 4, stack := w :: c.stack }

/-- The word on top of the stack and the processor after popping it. -/
def pop (c : Cpu) : Except Stop (Word × Cpu) :=
  match c.stack with
  | [] => .error (.pageFault c.esp.toNat)
  | w :: ws => .ok (w, { c with esp := c.esp + 4, stack := ws })

end Cpu

open Cpu

/-! ## The processor -/

/-- The vectors for which the processor pushes an error code. -/
def hasErrCode (v : Nat) : Bool := v ∈ [8, 10, 11, 12, 13, 14, 17]

/-- Delivery of vector `v` through a gate of `idt_install`: code segment 0x08, interrupts off. -/
def deliver (v : Nat) (errCode esp0 : Word) (c : Cpu) : Cpu :=
  let k := if c.user then
      ({ c with esp := esp0, ss := 0x10, stack := [] } |>.push (c.ss.setWidth 32) |>.push c.esp)
    else c
  let k := k.push c.eflags |>.push (c.cs.setWidth 32) |>.push c.eip
  let k := if hasErrCode v then k.push errCode else k
  -- the flags TF, IF, NT, RF and VM
  { k with cs := 0x08, eflags := c.eflags &&& ~~~0x34300 }

/-- The privilege level of the segments that `gdt_install` sets up. -/
def dpl (sel : BitVec 16) : BitVec 2 := if sel >>> 3 = 3 ∨ sel >>> 3 = 4 then 3 else 0

/-- A return to level `cpl` clears a data segment that is not for that level. -/
def leave (cpl : BitVec 2) (sel : BitVec 16) : BitVec 16 := if dpl sel < cpl then 0 else sel

/-- `iret`. -/
def iret (c : Cpu) : Except Stop Cpu := do
  let (eip, k) ← c.pop
  let (cs, k) ← k.pop
  let (eflags, k) ← k.pop
  let k := { k with eip := eip, cs := cs.setWidth 16, eflags := eflags }
  if rpl c.cs < rpl k.cs then do
    let (esp, k) ← k.pop
    let (ss, k) ← k.pop
    .ok { k with esp := esp, ss := ss.setWidth 16, ds := leave (rpl k.cs) k.ds,
                 es := leave (rpl k.cs) k.es, fs := leave (rpl k.cs) k.fs, gs := leave (rpl k.cs) k.gs }
  else .ok k

/-! ## The stubs -/

inductive Seg where
  | ds
  | es
  | fs
  | gs

def Cpu.seg (c : Cpu) : Seg → BitVec 16
  | .ds => c.ds
  | .es => c.es
  | .fs => c.fs
  | .gs => c.gs

def Cpu.setSeg (c : Cpu) (v : BitVec 16) : Seg → Cpu
  | .ds => { c with ds := v }
  | .es => { c with es := v }
  | .fs => { c with fs := v }
  | .gs => { c with gs := v }

/-- The instructions of `isr_asm.s` between the vectors and `iret`, without the call. -/
inductive Instr where
  | pushByte (n : BitVec 8)
  | pushDword (w : Word)
  | pusha
  | xorEaxEax
  | movAxSeg (s : Seg)
  | movAx (v : BitVec 16)
  | movEax (v : Word)
  | movSegAx (s : Seg)
  | movEaxEsp
  | pushEax
  | popEbx
  | addEsp (n : Nat)
  | popa

/-- Writing the low half of `eax`. -/
def Cpu.setAx (c : Cpu) (v : BitVec 16) : Cpu := { c with eax := c.eax.extractLsb' 16 16 ++ v }

def exec (c : Cpu) : Instr → Except Stop Cpu
  | .pushByte n => .ok (c.push (n.signExtend 32))
  | .pushDword w => .ok (c.push w)
  | .pusha => .ok (c.push c.eax |>.push c.ecx |>.push c.edx |>.push c.ebx |>.push c.esp
      |>.push c.ebp |>.push c.esi |>.push c.edi)
  | .xorEaxEax => .ok { c with eax := c.eax ^^^ c.eax }
  | .movAxSeg s => .ok (c.setAx (c.seg s))
  | .movAx v => .ok (c.setAx v)
  | .movEax v => .ok { c with eax := v }
  | .movSegAx s => .ok (c.setSeg (c.eax.setWidth 16) s)
  | .movEaxEsp => .ok { c with eax := c.esp }
  | .pushEax => .ok (c.push c.eax)
  | .popEbx => do
    let (w, c) ← c.pop
    .ok { c with ebx := w }
  | .addEsp n => .ok { c with esp := c.esp + BitVec.ofNat 32 (4 * n), stack := c.stack.drop n }
  | .popa => do
    let (edi, c) ← c.pop
    let (esi, c) ← c.pop
    let (ebp, c) ← c.pop
    let (_, c) ← c.pop
    let (ebx, c) ← c.pop
    let (edx, c) ← c.pop
    let (ecx, c) ← c.pop
    let (eax, c) ← c.pop
    .ok { c with edi := edi, esi := esi, ebp := ebp, ebx := ebx, edx := edx, ecx := ecx, eax := eax }

def execAll (c : Cpu) : List Instr → Except Stop Cpu
  | [] => .ok c
  | i :: is => do
    let c ← exec c i
    execAll c is

/-- The code at a vector: `ISR_ERRCODE`, `ISR_NOERRCODE` and `INTR_NOERRCODE`, and `IRQ`. -/
def vectorCode (v : Nat) : Option (List Instr) :=
  if v ∈ [8, 10, 11, 12, 13, 14, 17] then some [.pushByte (BitVec.ofNat 8 v)]
  else if v < 32 ∨ v = 63 ∨ v = 64 ∨ v = 128 then some [.pushByte 0, .pushByte (BitVec.ofNat 8 v)]
  else if v < 48 then some [.pushDword 0, .pushDword (BitVec.ofNat 32 v)]
  else none

/-- `STUB` up to the call. -/
def stubSave : List Instr :=
  [.pusha,
   .xorEaxEax, .movAxSeg .ds, .pushEax,
   .movAxSeg .es, .pushEax,
   .movAxSeg .fs, .pushEax,
   .movAxSeg .gs, .pushEax,
   .movAx 0x10, .movSegAx .ds, .movSegAx .es, .movSegAx .fs, .movSegAx .gs,
   .movEaxEsp, .pushEax]

/-- `STUB` from the call to `iret`; `addEsp` counts words. The saved segments are popped into `ebx`. -/
def stubRestore : List Instr :=
  [.addEsp 1,
   .movEax 0x10, .popEbx, .movSegAx .gs,
   .popEbx, .movSegAx .fs,
   .popEbx, .movSegAx .es,
   .popEbx, .movSegAx .ds,
   .popa,
   .addEsp 2]

/-- From the interrupt to the call of the C handler. -/
def entered (v : Nat) (errCode esp0 : Word) (c : Cpu) : Except Stop Cpu :=
  match vectorCode v with
  | none => .error (.panic "no stub")
  | some code => execAll (deliver v errCode esp0 c) (code ++ stubSave)

/-- From the return of the C handler on. -/
def left (c : Cpu) : Except Stop Cpu := do
  let c ← execAll c stubRestore
  iret c

/-- A whole interrupt, with a C handler on a kernel state `σ`. -/
def interrupt {σ : Type} (handler : σ → Cpu → Except Stop (σ × Cpu)) (v : Nat) (errCode esp0 : Word)
    (s : σ) (c : Cpu) : Except Stop (σ × Cpu) := do
  let k ← entered v errCode esp0 c
  let (s, k) ← handler s k
  let c ← left k
  .ok (s, c)

end Intr
end Frod
