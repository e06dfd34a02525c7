import Frod.Lib.Bytes
import Frod.Layout

/-!
# Frod.Smp.Model

The processors: how `apic_find_cpus` reads them from the MADT, how each of them finds its own
`cpu_info`, and how the boot processor starts the others.

Tables are bytes of memory, walked as the source walks them. The other fields that `gdt_install`
fills in its `cpu_info` (descriptors and TSS) are left out. A started processor is taken to run up to
the point where it sets its flag.
-/

namespace Frod
namespace Smp

open Bytes

/-- `cpu_info`, up to the descriptor tables; the pointer `cpu` is an index of the array. -/
structure CpuInfo where
  id : BitVec 8
  started : Word
  numCli : Int
  intEnabled : Bool
  bootCpu : Bool
  cpu : Nat
  deriving DecidableEq

/-- The globals of `apic.c`: `cpus`, `num_cpus`, `local_apic` and `io_apic`. The array has `MAX_CPUS`
entries, and memory goes on after it. -/
structure Cpus where
  cpus : Nat → CpuInfo
  numCpus : Nat
  localApic : Nat
  ioApic : Nat × Nat

/-- `APIC_SIGNATURE`, `MADT_TYPE_LAPIC`, `MADT_TYPE_IOAPIC`. -/
def apicSignature : Nat := 0x43495041
def madtTypeLapic : Nat := 0
def madtTypeIoapic : Nat := 1

/-- `sizeof(sdth)`, `sizeof(madt)`. -/
def sdthSz : Nat := 36
def madtSz : Nat := 44

/-- The loop of `find_sdt_entry` from `ptrStart` on. -/
def findSdtLoop (m : Mem) (rsdt sig : Nat) : Nat → Nat → Except Stop Nat
  | 0, _ => .error .diverges
  | fuel + 1, ptrStart =>
    if ptrStart < (rsdt + rd m (rsdt + 4) 4) % 2 ^ 32 then
      let tmp := rd m ptrStart 4
      if rd m tmp 4 = sig then .ok tmp else findSdtLoop m rsdt sig fuel ((ptrStart + 4) % 2 ^ 32)
    else .ok 0

/-- `find_sdt_entry`, from the address of the RSDT. -/
def findSdtEntry (fuel : Nat) (m : Mem) (rsdt sig : Nat) : Except Stop Nat :=
  findSdtLoop m rsdt sig fuel ((rsdt + sdthSz) % 2 ^ 32)

/-- What the loop of `apic_find_cpus` keeps: the globals, `ret` and `found_flags`. -/
structure Found where
  state : Cpus
  ret : Nat
  flags : Nat

/-- One pass of the loop: the record at `tmp`. -/
def apicRecord (m : Mem) (tmp : Nat) (f : Found) : Found :=
  if rd m tmp 1 = madtTypeLapic then
    let c := { f.state.cpus f.ret with
      id := BitVec.ofNat 8 (rd m (tmp + 3) 1), bootCpu := f.ret = 0,
      started := if f.ret = 0 then 1 else 0, numCli := 0, intEnabled := false }
    let s := { f.state with cpus := Function.update f.state.cpus f.ret c }
    ⟨s, f.ret + 1, f.flags ||| 1⟩
  else if rd m tmp 1 = madtTypeIoapic then
    let s := { f.state with ioApic := (rd m (tmp + 2) 1, rd m (tmp + 4) 4) }
    ⟨s, f.ret, f.flags ||| 2⟩
  else f

def apicLoop (m : Mem) (stop : Nat) : Nat → Nat → Found → Except Stop Found
  | 0, _, _ => .error .diverges
  | fuel + 1, tmp, f =>
    if tmp < stop then
      apicLoop m stop fuel ((tmp + rd m (tmp + 1) 1) % 2 ^ 32) (apicRecord m tmp f)
    else .ok f

/-- `apic_find_cpus`: the number it returns and the globals after it. -/
def apicFindCpus (fuel : Nat) (mem : Mem) (rsdt : Nat) (s : Cpus) : Except Stop (Nat × Cpus) :=
  match findSdtEntry fuel mem rsdt apicSignature with
  | .error e => .error e
  | .ok m =>
    if m = 0 then .ok (0, s)
    else
      let s := { s with localApic := rd mem (m + sdthSz) 4 }
      let stop := (m + rd mem (m + 4) 4) % 2 ^ 32
      match apicLoop mem stop fuel ((m + madtSz) % 2 ^ 32) ⟨s, 0, 0⟩ with
      | .error e => .error e
      | .ok f =>
        let s := { f.state with numCpus := f.ret }
        .ok (if f.flags &&& 3 ≠ 3 then 0 else f.ret, s)

/-- A processor: its local APIC id, the rest of the register `LAPIC_ID`, and the entry whose field
`cpu` its `%gs:0` is. -/
structure Processor where
  id : BitVec 8
  low : BitVec 24
  gs : Nat

/-- The register `LAPIC_ID`. -/
def Processor.lapicId (p : Processor) : Word := p.id ++ p.low

/-- `lapic_cpuid` on processor `p`. -/
def lapicCpuid (s : Cpus) (p : Processor) : Nat :=
  if s.localApic ≠ 0 then (p.lapicId >>> 24).toNat else 0

/-- `gdt_install` on processor `p`: GDT entry 6 is set to the field `cpu` of the entry it selects,
and `cpu = c` fills it. -/
def gdtInstall (s : Cpus) (p : Processor) : Processor × Cpus :=
  let c := lapicCpuid s p
  let p := { p with gs := c }
  (p, { s with cpus := Function.update s.cpus p.gs { s.cpus p.gs with cpu := c } })

/-- The variable `cpu` on processor `p`. -/
def currentCpu (s : Cpus) (p : Processor) : Nat := (s.cpus p.gs).cpu

/-- `cpu_common_main` up to `xchg(&cpu->started, 1)`. -/
def cpuCommonMain (s : Cpus) (p : Processor) : Cpus :=
  let c := currentCpu s p
  { s with cpus := Function.update s.cpus c { s.cpus c with started := 1 } }

/-- `cpu_ap_enter`, without the `lapic_install` of the processor's own local APIC. -/
def cpuApEnter (s : Cpus) (p : Processor) : Cpus :=
  let (p, s) := gdtInstall s p
  cpuCommonMain s p

/-- The processors of a machine by their ids. -/
structure Machine where
  proc : BitVec 8 → Processor
  id_proc : ∀ a, (proc a).id = a

/-- The loop of `cpu_start_aps` from `i` on. -/
def startLoop (machine : Machine) : Nat → Nat → Cpus → Except Stop Cpus
  | 0, _, s => .ok s
  | n + 1, i, s =>
    if (s.cpus i).bootCpu then startLoop machine n (i + 1) s
    else
      let s := cpuApEnter s (machine.proc (s.cpus i).id)
      -- `while(cpus[i].started != 1);`
      if (s.cpus i).started ≠ 1 then .error .diverges
      else startLoop machine n (i + 1) s

/-- `cpu_start_aps`, up to the boot processor's own `cpu_common_main`. -/
def cpuStartAps (machine : Machine) (s : Cpus) : Except Stop Cpus :=
  startLoop machine s.numCpus 0 s

end Smp
end Frod
