import Mathlib.Logic.Function.Basic
import Frod.Layout

/-!
# Frod.Proc.Model

Processes, as in `sys/process.c`: creation by `process_init`, `real_fork` and
`process_start_usermode`, and `switch_task`.

A `pcb` is named by the order in which `heap_malloc` handed it out. Kernel stacks and page-directory
windows are pages of kernel memory, which is word-addressed here; a saved context lies near the top
of the kernel stack, at `p->regs`. What the calls into the other parts of the kernel return is an
input: a frame from `pmm_alloc_first`, the result of `vmm_map_page`, and the address space.
-/

namespace Frod
namespace Proc

/-- `KSTACKSZ`, and `PROC_RUNNING`, `PROC_READY`, `PROC_BLOCKED`. -/
def kstackSz : Nat := kb4
inductive PState where
  | running
  | ready
  | blocked
  deriving DecidableEq, Repr

/-- `Registers`, in the order of its fields in memory. -/
structure Registers where
  gs : Word
  fs : Word
  es : Word
  ds : Word
  edi : Word
  esi : Word
  ebp : Word
  tamperedEsp : Word
  ebx : Word
  edx : Word
  ecx : Word
  eax : Word
  intNo : Word
  errCode : Word
  eip : Word
  cs : Word
  eflags : Word
  deriving DecidableEq

/-- `sizeof(Registers)`. -/
def regsSz : Nat := 68

/-- Kernel memory by words, at addresses that are multiples of 4. -/
abbrev KMem := Nat → Word

def Registers.toList (r : Registers) : List Word :=
  [r.gs, r.fs, r.es, r.ds, r.edi, r.esi, r.ebp, r.tamperedEsp, r.ebx, r.edx, r.ecx, r.eax, r.intNo,
    r.errCode, r.eip, r.cs, r.eflags]

def writeWords (m : KMem) (a : Nat) : List Word → KMem
  | [] => m
  | w :: ws => writeWords (Function.update m a w) (a + 4) ws

def regsAt (m : KMem) (a : Nat) : Registers :=
  ⟨m a, m (a + 4), m (a + 8), m (a + 12), m (a + 16), m (a + 20), m (a + 24), m (a + 28), m (a + 32),
    m (a + 36), m (a + 40), m (a + 44), m (a + 48), m (a + 52), m (a + 56), m (a + 60), m (a + 64)⟩

def setRegs (m : KMem) (a : Nat) (r : Registers) : KMem := writeWords m a r.toList

/-- `memset(p, 0x00, sizeof(Registers))`. -/
def zeroRegs : Registers := ⟨0, 0, 0, 0, 0, 0, 0, 0, 0, 0, 0, 0, 0, 0, 0, 0, 0⟩

/-- `pcb`, without the field `cont` that nothing uses. -/
structure Pcb where
  pid : Nat
  dirtable : Word
  kstack : Nat
  regs : Nat
  state : PState
  next : Nat

/-- The globals of `process.c`, the heap's `pcb`s, kernel memory, the loaded page directory and
`cpu->tss.esp0`. -/
structure Sched where
  pcbs : List Pcb
  procCurrent : Option Nat
  procList : Option Nat
  lastPid : Nat
  mem : KMem
  currentDir : Word
  esp0 : Nat

/-- Link addresses of the functions that a new context returns to. -/
structure Link where
  processDummy : Word
  usermode : Word
  returnFork : Word

/-- What the calls of `alloc_proc` return: the frame, 0 if there is none, and whether mapping it
fails. -/
structure Outside where
  phys : Nat
  mapErr : Bool

/-- What `vmm_create_address_space` returns, and the entries of the current directory it copies. -/
structure Space where
  addr : Word
  row : Nat → Word

namespace Sched

/-- Changing one `pcb`. -/
def modify (s : Sched) (p : Nat) (f : Pcb → Pcb) : Sched := { s with pcbs := s.pcbs.modify p f }

/-- `change_tss`. -/
def changeTss (s : Sched) (p : Pcb) : Sched := { s with esp0 := p.kstack + kstackSz }

/-- `vmm_switch_pdir`. -/
def vmmSwitchPdir (s : Sched) (dir : Word) : Sched := { s with currentDir := dir }

/-- The page that `alloc_proc` maps as kernel stack. -/
def stackPage (pid : Nat) : Nat := procVmmStart + pid * kstackSz

/-- The page that `real_fork` and `process_start_usermode` give to `vmm_create_address_space`. -/
def windowPage (pid : Nat) : Nat := 0x10000000 + pid * 4096

/-- `vmm_create_address_space(virt)` on kernel memory: it clears the page and copies the current
directory into it, with the new directory itself as last entry. -/
def vmmCreateAddressSpace (s : Sched) (virt : Nat) (space : Space) : Sched :=
  let row := (List.range 1023).map space.row ++ [space.addr ||| 3]
  { s with mem := writeWords s.mem virt row }

/-- `alloc_proc`: the new `pcb`, with the fields set that it sets. Its callers set `dirtable` and
`next`. -/
def allocProc (s : Sched) (exit ret2 retStack : Word) (o : Outside) : Except Stop (Pcb × Sched) :=
  let s := { s with lastPid := (s.lastPid + 1) % 2 ^ 32 }
  if s.lastPid ≥ procMaxPid then .error (.panic "Max PID used")
  else if o.phys = 0 then .error (.panic "Unable to allocate physical frame")
  else if o.mapErr then .error (.panic "Unable to map address")
  else
    let kstack := stackPage s.lastPid
    let sp := kstack + kstackSz
    let mem := Function.update s.mem (sp - 4) ret2
    let mem := Function.update mem (sp - 8) retStack
    let regs := sp - 8 - regsSz
    let mem := setRegs mem regs { zeroRegs with eip := exit }
    let p : Pcb := ⟨s.lastPid, 0, kstack, regs, .ready, 0⟩
    .ok (p, { s with mem := mem })

/-- `process_init`; `pageDir` is what `get_page_dir_addr` returns. -/
def processInit (s : Sched) (link : Link) (o : Outside) (pageDir : Word) : Except Stop (Nat × Sched) :=
  match s.allocProc link.processDummy 0 0 o with
  | .error e => .error e
  | .ok (p, s) =>
    let mem := setRegs s.mem p.regs { regsAt s.mem p.regs with
      ds := 0x10, es := 0x10, fs := 0x10, gs := 0x10, eflags := 0x202, cs := 0x08 }
    let n := s.pcbs.length
    let p := { p with state := .running, dirtable := pageDir, next := n }
    let s := { s with pcbs := s.pcbs ++ [p], mem := mem, procCurrent := some n }
    .ok (p.pid, s.changeTss p)

/-- `real_fork`, with the values of `ebp` and of the return address it reads. Without a current
process it would follow a null pointer. -/
def realFork (s : Sched) (link : Link) (retStack ebp ret : Word) (o : Outside) (space : Space) :
    Except Stop (Nat × Sched) :=
  match s.allocProc link.returnFork ret retStack o with
  | .error e => .error e
  | .ok (p, s) =>
    match s.procCurrent.bind fun c => s.pcbs[c]?.map fun cur => (c, cur) with
    | none => .error (.pageFault 0)
    | some (c, cur) =>
      let mem := setRegs s.mem p.regs { regsAt s.mem cur.regs with eip := link.returnFork, ebp := ebp }
      let s := { s with mem := mem }
      let s := s.vmmCreateAddressSpace (windowPage s.lastPid) space
      let n := s.pcbs.length
      let p := { p with dirtable := space.addr, next := cur.next }
      let s := { s with pcbs := s.pcbs ++ [p] }
      .ok (p.pid, s.modify c fun cur => { cur with next := n })

/-- `process_start_usermode`. -/
def processStartUsermode (s : Sched) (link : Link) (o : Outside) (space : Space) :
    Except Stop Sched :=
  match s.allocProc link.usermode 0 0 o with
  | .error e => .error e
  | .ok (p, s) =>
    let mem := setRegs s.mem p.regs { regsAt s.mem p.regs with
      ds := 0x20 ||| 0x03, es := 0x20 ||| 0x03, fs := 0x20 ||| 0x03, gs := 0x20 ||| 0x03,
      eflags := 0x200, cs := 0x18 ||| 0x03 }
    let s := { s with mem := mem }
    let s := s.vmmCreateAddressSpace (windowPage s.lastPid) space
    let n := s.pcbs.length
    let p := { p with state := .ready, dirtable := space.addr, next := n }
    .ok { s with pcbs := s.pcbs ++ [p], procList := some n }

/-- `switch_task`: the address it returns and the state after it. -/
def switchTask (s : Sched) (regs : Registers) : Except Stop (Nat × Sched) :=
  match s.procList with
  | none => .ok (0, s)
  | some l =>
    match s.procCurrent.bind fun c => s.pcbs[c]?.map fun old => (c, old) with
    | none => .error (.pageFault 0)
    | some (c, old) =>
      let s := { s with mem := setRegs s.mem old.regs regs }
      let s := s.modify c fun old => { old with state := .ready }
      let s := { s with procCurrent := some l, procList := some c }
      match s.pcbs[l]? with
      | none => .error (.pageFault 0)
      | some p =>
        let s := s.changeTss p
        let s := s.vmmSwitchPdir p.dirtable
        let s := s.modify l fun p => { p with state := .running }
        .ok (p.kstack + kstackSz - regsSz - 8, s)

end Sched

/-- The calls a run is made of, with their inputs. -/
inductive Call where
  | fork (retStack ebp ret : Word) (o : Outside) (space : Space)
  | startUsermode (o : Outside) (space : Space)
  | switch (regs : Registers)

def step (link : Link) (s : Sched) : Call → Except Stop (Nat × Sched)
  | .fork retStack ebp ret o space => s.realFork link retStack ebp ret o space
  | .startUsermode o space =>
    match s.processStartUsermode link o space with
    | .error e => .error e
    | .ok s => .ok (0, s)
  | .switch regs => s.switchTask regs

/-- The state before `process_init`: no process and the globals as they are initialised. -/
def boot (mem : KMem) (dir : Word) (esp0 : Nat) : Sched := ⟨[], none, none, 0, mem, dir, esp0⟩

end Proc
end Frod
