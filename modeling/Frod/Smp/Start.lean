import Frod.Lib.Interleave
import Frod.Smp.Model

/-!
# Frod.Smp.Start

The start of the other processors, turn by turn: `cpu_start_aps` and `lapic_start_ap` on the boot
processor, `boot_ap.s` and `cpu_ap_enter` on the others.

The two sides share the three words behind the first one of the code at 0x7000 and the flags
`started`. A turn is one access to them, or one write to the interrupt command register, which
delivers its interrupt at once. A processor that has been reset waits for a startup interrupt and
begins at the page it names; a second one is ignored. The warm reset vector, the delays and the
`lapic_install` of `cpu_ap_enter`, which sets up the processor's own local APIC, are left out, and so is
what a processor does after it has set its flag.
-/

namespace Frod
namespace Smp
namespace Start

/-- The words `stack_addr`, `entry_point` and `page_dir` of `boot_ap.s`: `code[1]` to `code[3]`. -/
structure Mailbox where
  stackAddr : Word
  entryPoint : Word
  pageDir : Word
  deriving DecidableEq

/-- The address of the code, of `cpu_ap_enter`, and the kernel directory. -/
def codeAddr : Word := 0x7000

structure Kernel where
  cpuApEnter : Word
  kernelDir : Word

/-! ## The local APIC -/

/-- `ICR_DELIVERY_MODE_INIT`, `ICR_DELIVERY_MODE_START`, `ICR_LEVEL_ASSERT`,
`ICR_TRIGGER_MODE_LEVEL`. -/
def icrDeliveryModeInit : Word := 5 <<< 8
def icrDeliveryModeStart : Word := 6 <<< 8
def icrLevelAssert : Word := 1 <<< 14
def icrTriggerModeLevel : Word := 1 <<< 15

/-- The registers `LAPIC_ICR_CMD_HI` and `LAPIC_ICR_CMD_LO`. -/
inductive Icr where
  | hi (v : Word)
  | lo (v : Word)
  deriving DecidableEq

/-- The writes of `lapic_start_ap`. -/
def lapicStartAp (id : BitVec 8) (addr : Word) : List Icr :=
  let id := id.setWidth 32
  [.hi (id <<< 24),
    .lo (icrDeliveryModeInit ||| icrTriggerModeLevel ||| icrLevelAssert),
    .lo (icrDeliveryModeInit ||| icrTriggerModeLevel),
    .hi (id <<< 24), .lo (icrDeliveryModeStart ||| addr >>> 12),
    .hi (id <<< 24), .lo (icrDeliveryModeStart ||| addr >>> 12)]

/-- The interrupts that a processor acts on. -/
inductive Ipi where
  | init
  | startup (page : BitVec 8)
  deriving DecidableEq

/-- The interrupt a command asks for. INIT without the level assert only sets arbitration ids. -/
def command (lo : Word) : Option Ipi :=
  if (lo >>> 8) &&& 7 = 5 then (if lo &&& icrLevelAssert ≠ 0 then some .init else none)
  else if (lo >>> 8) &&& 7 = 6 then some (.startup (lo.setWidth 8))
  else none

/-! ## The other processors -/

/-- How far a processor has got. -/
inductive Phase where
  | halted
  /-- Reset, and waiting for the startup interrupt. -/
  | waiting
  /-- At the address `ip`, without paging. -/
  | started (ip : Word)
  /-- `cr3`, then `esp`, then `eax` have been loaded. -/
  | paging
  | stacked
  | called
  /-- Behind `gdt_install`, and behind `xchg(&cpu->started, 1)`. -/
  | installed
  | running
  deriving DecidableEq

/-- A processor and the registers it has loaded. -/
structure Ap where
  phase : Phase
  cr3 : Word
  esp : Word
  eax : Word
  proc : Processor

def Ap.receive (a : Ap) : Ipi → Ap
  | .init => { a with phase := .waiting }
  | .startup page =>
    if a.phase = .waiting then { a with phase := .started (page.setWidth 32 <<< 12) } else a

/-! ## The boot processor -/

/-- Where `cpu_start_aps` stands in the body of its loop. -/
inductive BootPc where
  | head
  | stack
  | entry
  | dir
  /-- In `lapic_start_ap`, with the writes that are left. -/
  | icr (writes : List Icr)
  | wait
  /-- At its own `cpu_common_main`. -/
  | main
  deriving DecidableEq

structure Boot where
  i : Nat
  currStack : Word
  pc : BootPc
  icrHi : Word

structure Sys where
  cpus : Cpus
  mailbox : Mailbox
  boot : Boot
  ap : BitVec 8 → Ap

namespace Sys

/-- A write to the interrupt command register. -/
def writeIcr (s : Sys) (rest : List Icr) : Icr → Sys
  | .hi v => { s with boot := { s.boot with pc := .icr rest, icrHi := v } }
  | .lo v =>
    let dest : BitVec 8 := (s.boot.icrHi >>> 24).setWidth 8
    let s := { s with boot := { s.boot with pc := .icr rest } }
    match command v with
    | some ipi => { s with ap := Function.update s.ap dest ((s.ap dest).receive ipi) }
    | none => s

/-- A turn of the boot processor. -/
def bootStep (k : Kernel) (s : Sys) : Sys :=
  let b := s.boot
  match b.pc with
  | .head =>
    if b.i < s.cpus.numCpus then
      if (s.cpus.cpus b.i).bootCpu then { s with boot := { b with i := b.i + 1 } }
      else { s with
        boot := { b with currStack := b.currStack - BitVec.ofNat 32 (kb4 * 2), pc := .stack } }
    else { s with boot := { b with pc := .main } }
  | .stack =>
    { s with mailbox := { s.mailbox with stackAddr := b.currStack }, boot := { b with pc := .entry } }
  | .entry =>
    { s with
      mailbox := { s.mailbox with entryPoint := k.cpuApEnter }, boot := { b with pc := .dir } }
  | .dir =>
    { s with
      mailbox := { s.mailbox with pageDir := k.kernelDir }
      boot := { b with pc := .icr (lapicStartAp (s.cpus.cpus b.i).id codeAddr) } }
  | .icr [] => { s with boot := { b with pc := .wait } }
  | .icr (w :: rest) => s.writeIcr rest w
  | .wait =>
    if (s.cpus.cpus b.i).started ≠ 1 then s
    else { s with boot := { b with i := b.i + 1, pc := .head } }
  | .main => s

/-- A turn of the processor with the APIC id `a`. The code is only at `codeAddr`, and a processor
that is sent elsewhere, or calls anything but `cpu_ap_enter`, is lost. -/
def apStep (k : Kernel) (a : BitVec 8) (s : Sys) : Sys :=
  let p := s.ap a
  let set := fun p : Ap => { s with ap := Function.update s.ap a p }
  match p.phase with
  | .halted => s
  | .waiting => s
  | .started ip => if ip = codeAddr then set { p with phase := .paging, cr3 := s.mailbox.pageDir } else s
  | .paging => set { p with phase := .stacked, esp := s.mailbox.stackAddr }
  | .stacked => set { p with phase := .called, eax := s.mailbox.entryPoint }
  | .called =>
    if p.eax = k.cpuApEnter then
      let (proc, cpus) := gdtInstall s.cpus p.proc
      { set { p with phase := .installed, proc := proc } with cpus := cpus }
    else s
  | .installed => { set { p with phase := .running } with cpus := cpuCommonMain s.cpus p.proc }
  | .running => s

end Sys

/-- A turn of the boot processor, or of the processor with the id `a`. -/
def step (k : Kernel) : Option (BitVec 8) → Sys → Sys
  | none, s => s.bootStep k
  | some a, s => s.apStep k a

/-- Before `cpu_start_aps`: the others are halted, and the mailbox holds the zeroes of the file. -/
def start (machine : Machine) (cpus : Cpus) : Sys where
  cpus := cpus
  mailbox := ⟨0, 0, 0⟩
  boot := ⟨0, BitVec.ofNat 32 kernelStackTop, .head, 0⟩
  ap a := ⟨.halted, 0, 0, 0, machine.proc a⟩

end Start
end Smp
end Frod
