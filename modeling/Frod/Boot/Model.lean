import Frod.Pmm.Exact
import Frod.Vmm.Model

/-!
# Frod.Boot.Model

The part of `kmain` that sets up physical memory, over the bytes of memory: `init_pmm`, the marking
of the kernel's image, the two calls of `move_module`, and `vmm_init`, which runs before paging.

Here the allocator reads and writes its bitmap where it lies in memory, so that a copied module or a
zeroed frame that overlaps it changes what the allocator hands out, and the other way round. What
runs after `vmm_init` is a sequence of allocations, frees of frames that are held, and writes into
frames that are held.
-/

namespace Frod

/-- A `multiboot_module`. -/
structure Module where
  start : Word
  stop : Word
  name : String
  deriving DecidableEq

/-- The number of bytes `move_module` copies. -/
def Module.len (m : Module) : Nat := (m.stop - m.start).toNat

/-- What `kmain` gets from the boot loader: the fields of `multiboot_info` it uses here, and the
bounds of its own image. -/
structure BootInfo where
  mmapAddr : Nat
  mmapLength : Nat
  mods : List Module
  memStart : Nat
  memEnd : Nat

namespace Ram

open BitArray Bytes
open Pmm (blkSz alignDownwards alignUpwards markLo markHi)

/-- `MODULE1_LOCATION`, `MAX_KERNEL_MEM`. -/
def module1Location : Nat := lapicPhysVirtAddr - kb4
def maxKernelMem : Nat := module1Location - kb4

/-- The address `kmain` moves `bootap.bin` to. -/
def bootApLocation : Nat := 0x7000

/-! ## Copying -/

/-- The loop of `memcpy` at index `i`, with `n` iterations left. -/
def memcpyLoop (dst src : Nat) : Nat → Nat → Mem → Mem
  | 0, _, m => m
  | n + 1, i, m =>
    memcpyLoop dst src n (i + 1) (Function.update m ((dst + i) % 2 ^ 32) (m ((src + i) % 2 ^ 32)))

/-- `memcpy`, which does nothing on `NULL`. -/
def memcpy (m : Mem) (dst src num : Nat) : Mem :=
  if dst = 0 ∨ src = 0 then m else memcpyLoop dst src num 0 m

/-- `memset(ptr, 0x00, num)`, which does nothing on `NULL`. -/
def memset (m : Mem) (ptr num : Nat) : Mem := if ptr = 0 then m else clearBytes m ptr num

/-- `move_module`. Only the memory the module comes from is marked. -/
def moveModule (s : Ram) : List Module → String → Nat → Bool × Ram
  | [], _, _ => (false, s)
  | mm :: mods, name, dst =>
    if mm.name = name then
      let s := { s with mem := memcpy s.mem dst mm.start.toNat mm.len }
      (true, s.pmmMarkMemTaken mm.start.toNat mm.stop.toNat)
    else moveModule s mods name dst

/-- `kmain` up to the first `move_module`. -/
def kmainSc2 (s : Ram) (fuel : Nat) (i : BootInfo) : Except Stop Ram :=
  if i.memEnd > maxKernelMem then .error (.panic "Kernel is too large\n")
  else do
    let (_, s) ← s.initPmm fuel i.mmapAddr i.mmapLength
    match (s.pmmMarkMemTaken i.memStart i.memEnd).moveModule i.mods "sc2.bin" module1Location with
    | (false, _) => .error (.panic "Unable to move sc2.bin")
    | (true, s) => .ok s

/-- `kmain` from there up to `vmm_init`. Nothing after the second `move_module` allocates. -/
def kmainBootAp (s : Ram) (i : BootInfo) : Except Stop Ram :=
  match s.moveModule i.mods "bootap.bin" bootApLocation with
  | (false, _) => .error (.panic "Unable to move bootapp.bin")
  | (true, s) => .ok s

/-! ## `vmm_init` -/

/-- `vmm_get_physical_page`. -/
def vmmGetPhysicalPage (s : Ram) : Nat × Ram :=
  let (ret, s) := s.pmmAllocFirst
  (ret, { s with mem := memset s.mem ret kb4 })

/-- The first `n` iterations of the identity-mapping loop. -/
def identityLoop (ptable : Nat) : Nat → Mem → Mem
  | 0, m => m
  | i + 1, m => wr (identityLoop ptable i m) (ptable + 4 * i)
      (BitVec.ofNat 32 (i * kb4) |||
        (Vmm.x86PagePresent ||| Vmm.x86PageWritable ||| Vmm.x86PageUser)).toNat 4

/-- What `vmm_init` stores after it has the two pages. -/
def writeTables (s : Ram) (kernelDir ptable : Nat) : Ram :=
  let flags := Vmm.x86PagePresent ||| Vmm.x86PageWritable ||| Vmm.x86PageUser
  let m := identityLoop ptable 1024 s.mem
  let m := wr m (ptable + 4 * (lapicPhysVirtAddr / kb4))
    (0xFEE00000#32 ||| flags ||| Vmm.x86PageCacheDis).toNat 4
  let s := { s with mem := m }.pmmMarkMemTaken 0 mb4
  let m := wr s.mem kernelDir (BitVec.ofNat 32 ptable ||| flags).toNat 4
  let m := wr m (kernelDir + 4 * 1023) (BitVec.ofNat 32 kernelDir ||| flags).toNat 4
  { s with mem := m }

/-- `vmm_init`: `kernel_dir`, `ptable` and memory. -/
def vmmInit (s : Ram) : Nat × Nat × Ram :=
  let (kernelDir, s) := s.vmmGetPhysicalPage
  let (ptable, s) := s.vmmGetPhysicalPage
  (kernelDir, ptable, s.writeTables kernelDir ptable)

/-! ## After `vmm_init` -/

/-- Memory, with every address `pmm_alloc_first` has returned since `vmm_init` was called, and those
of them that have not been freed. -/
structure Frames where
  ram : Ram
  returned : List Nat
  held : List Nat

/-- The frames when `vmm_init` returns. -/
def Frames.start (s : Ram) : Frames :=
  let (kernelDir, ptable, s) := s.vmmInit
  ⟨s, [ptable, kernelDir], [ptable, kernelDir]⟩

inductive FrameOp where
  | allocFirst
  | free (block : Nat)
  | write (addr : Nat) (v : Byte)

/-- What the rest of the kernel does to physical memory. -/
def Frames.step (t : Frames) : FrameOp → Except Stop (Nat × Frames)
  | .allocFirst =>
    let (f, ram) := t.ram.pmmAllocFirst
    .ok (f, ⟨ram, f :: t.returned, f :: t.held⟩)
  | .free block => .ok (0, ⟨t.ram.pmmFree block, t.returned, t.held.erase block⟩)
  | .write addr v =>
    .ok (0, { t with ram := { t.ram with mem := Function.update t.ram.mem addr v } })

/-- Address `a` lies in the frame at `f`. -/
def InFrame (f a : Nat) : Prop := f ≤ a ∧ a < f + blkSz

/-- Frames are freed and written only while they are held; `NULL` is never held. -/
def Frames.Allowed (t : Frames) : FrameOp → Prop
  | .allocFirst => True
  | .free block => block ≠ 0 ∧ block ∈ t.held
  | .write addr _ => ∃ f ∈ t.held, f ≠ 0 ∧ InFrame f addr

end Ram
end Frod
