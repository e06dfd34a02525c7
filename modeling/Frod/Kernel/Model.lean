import Frod.Boot.Model
import Frod.Lib.Countdown

/-!
# Frod.Kernel.Model

`move_stack` of `sys/kernel.c` and the frame that `cpu_common_main` of `sys/cpu.c` maps for user mode.

Memory is what a processor sees through its page tables: bytes at virtual addresses, and mapping a page
changes none of them by itself. Local variables are kept in registers. The two loops of `move_stack`
count down on `uint32_t`, with as many iterations as there are different values of `i`.
-/

namespace Frod
namespace Kernel

open Bytes (rd wr)
open Vmm (x86PageWritable x86PageUser)

/-- A processor: its page tables, the memory behind them, and the two stack registers. -/
structure Cpu where
  vm : Vmm
  mem : Mem
  esp : Nat
  ebp : Nat

/-- A frame from `pmm_alloc_first` for the page at `va`. What `vmm_map_page` returns is not looked at. -/
def mapNew (acl : Word) (vm : Vmm) (va : Nat) : Except Stop Vmm := do
  let (phys, pmm) := vm.pmm.allocFirst
  let (_, vm) ← Vmm.vmmMapPage { vm with pmm := pmm } phys va acl
  return vm

theorem mapNew_of_map {acl : Word} {vm v : Vmm} {p : Pmm} {pa va : Nat} {r : Int}
    (halloc : vm.pmm.allocFirst = (pa, p))
    (hmap : Vmm.vmmMapPage { vm with pmm := p } pa va acl = .ok (r, v)) :
    mapNew acl vm va = .ok v := by
  rw [mapNew, halloc]
  dsimp only
  rw [hmap]
  rfl

/-! ## `move_stack` -/

/-- `new_stack - sz`, where both loops end. -/
def stackLimit (newStack sz : Nat) : Nat := (newStack + 2 ^ 32 - sz) % 2 ^ 32

def mapStack (vm : Vmm) (newStack sz : Nat) : Except Stop Vmm :=
  countdown .diverges (2 ^ 32) 4096 (stackLimit newStack sz) (fun i vm => mapNew x86PageWritable vm i)
    (2 ^ 20 + 1) newStack vm

/-- The body of the second loop: a pointer into the old stack is moved by `offset`. -/
def rewriteWord (oldStack initEsp offset : Nat) (m : Mem) (i : Nat) : Mem :=
  let tmp := rd m i 4
  if oldStack < tmp ∧ tmp < initEsp then wr m i ((tmp + offset) % 2 ^ 32) 4 else m

def rewriteStack (m : Mem) (newStack sz oldStack initEsp offset : Nat) : Except Stop Mem :=
  countdown .diverges (2 ^ 32) 4 (stackLimit newStack sz)
    (fun i m => .ok (rewriteWord oldStack initEsp offset m i)) (2 ^ 30 + 1) newStack m

def moveStack (s : Cpu) (newStack sz initEsp : Nat) : Except Stop Cpu := do
  let vm ← mapStack s.vm newStack sz
  let offset := (newStack + 2 ^ 32 - initEsp) % 2 ^ 32
  let newStackPtr := (s.esp + offset) % 2 ^ 32
  let newBasePtr := (s.ebp + offset) % 2 ^ 32
  let mem := Ram.memcpy s.mem newStackPtr s.esp ((initEsp + 2 ^ 32 - s.esp) % 2 ^ 32)
  let mem ← rewriteStack mem newStack sz s.esp initEsp offset
  return ⟨vm, mem, newStackPtr, newBasePtr⟩

/-! ## `cpu_common_main` -/

/-- `GB1`. -/
def gb1 : Nat := 0x40000000

/-- `cpu_common_main` from `pmm_alloc_first` to `task_enter_usermode`. -/
def cpuCommonMain (s : Cpu) : Except Stop Cpu := do
  let vm ← mapNew (x86PageUser ||| x86PageWritable) s.vm gb1
  let mem := wr s.mem gb1 0x80cd 2
  let mem := wr mem (gb1 + 2) 0x80cd 2
  let mem := wr mem (gb1 + 4) 0xfeeb 2
  return { s with vm := vm, mem := mem }

end Kernel
end Frod
