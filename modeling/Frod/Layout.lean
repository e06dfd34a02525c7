import Mathlib.Algebra.Group.Nat.Defs

/-!
# Frod.Layout

The constants of `sizes.h`, `config.h` and `vmlayout.h` that the modelled code uses, and the way a
kernel function can stop without returning.
-/

namespace Frod

/-- A 32-bit machine word. -/
abbrev Word := BitVec 32

/-- `KB4`, `MB4`, `MB256`. -/
def kb4 : Nat := 0x1000
def mb4 : Nat := 0x400000
def mb256 : Nat := 0x10000000

/-- `MAX_CPUS`, `HEAP_BLOCKS`, `PROC_MAX_PID`. -/
def maxCpus : Nat := 8
def heapBlocks : Nat := 1024
def procMaxPid : Nat := 1024

/-- `KERNEL_STACK_TOP`, `KERNEL_STACK_SZ`. -/
def kernelStackTop : Nat := mb4
def kernelStackSz : Nat := kb4 * 2

/-- `LAPIC_PHYS_VIRT_ADDR`. -/
def lapicPhysVirtAddr : Nat := kernelStackTop - kernelStackSz * maxCpus - kb4

/-- `PROC_VMM_START`, `PROC_VMM_END`. -/
def procVmmStart : Nat := mb256
def procVmmEnd : Nat := procVmmStart + mb256

/-- `HEAP_START`, `HEAP_END`. -/
def heapStart : Nat := procVmmEnd
def heapEnd : Nat := heapStart + mb256

/-- Ways a kernel function stops without returning: an access the page tables do not allow, whose
handler panics, `PANIC` itself, and a loop that never ends. -/
inductive Stop where
  | pageFault (addr : Nat)
  | panic (msg : String)
  | diverges
  deriving DecidableEq, Repr

end Frod
