import Frod.Layout
import Frod.Pmm.Alloc

/-!
# Frod.Vmm.Model

The virtual memory manager of `sys/vmm.c` on a machine with two-level paging.

Physical memory is the 1024 words of each 4 KB frame. `Vmm.walk` is the processor's translation:
directory entry, table entry, frame. The code reaches its own page tables through the last
directory entry, which points back to the directory, so `load` and `store` resolve every access of
the code with `walk` too; a store also needs the writable bit at both levels, because
`paging_enable` sets the write-protect bit. An access that does not translate is a page fault, and
the kernel's handler panics.

The allocator's bitmap, the kernel's code and its stack are not part of the modelled frames.
-/

namespace Frod

/-- Physical memory: the words of each 4 KB frame, by frame number. -/
abbrev Phys := Nat → Nat → Word

namespace Phys

def set (m : Phys) (f i : Nat) (w : Word) : Phys := fun f' i' => if f' = f ∧ i' = i then w else m f' i'

/-- The 1024 words of frame `f` zeroed. -/
def clear (m : Phys) (f : Nat) : Phys := fun f' i' => if f' = f ∧ i' < 1024 then 0#32 else m f' i'

end Phys

namespace Vmm

/-! ## Entries (`vmm.h`) -/

def x86PagePresent : Word := 0x01#32
def x86PageWritable : Word := 0x02#32
def x86PageUser : Word := 0x04#32
def x86PageCacheDis : Word := 0x10#32
def x86PageFrame : Word := 0xFFFFF000#32

def vmmSuccess : Int := 0
def vmmErrPageInUse : Int := -1
def vmmErrNoPagedirEntry : Int := -2

def present (e : Word) : Bool := (e &&& x86PagePresent) != 0#32
def writable (e : Word) : Bool := (e &&& x86PageWritable) != 0#32

/-- The frame number an entry points to. -/
def frame (e : Word) : Nat := e.toNat / kb4

/-- `dir_virtual`. -/
def dirVirtual : Nat := 0xFFFFF000

/-- The window through which the table of directory entry `diri` is seen. -/
def ptableVirtual (diri : Nat) : Nat := 0xFFC00000 + diri * kb4

end Vmm

/-- The machine and the globals of `vmm.c`. `cr3` is the physical address of the loaded directory. -/
structure Vmm where
  phys : Phys
  pmm : Pmm
  kernelDir : Nat
  currentDir : Nat
  cr3 : Nat

namespace Vmm

/-! ## The processor -/

/-- The frame of the loaded directory. -/
def dir (s : Vmm) : Nat := s.cr3 / kb4

def pde (s : Vmm) (va : Nat) : Word := s.phys s.dir (va / mb4)

def pte (s : Vmm) (va : Nat) : Word := s.phys (frame (s.pde va)) (va / kb4 % 1024)

/-- The two-level walk: the frame that `va`'s page translates to. -/
def walk (s : Vmm) (va : Nat) : Option Nat :=
  if present (s.pde va) && present (s.pte va) then some (frame (s.pte va)) else none

/-- Read the word at virtual address `va`. -/
def load (s : Vmm) (va : Nat) : Except Stop Word :=
  match s.walk va with
  | some f => .ok (s.phys f (va % kb4 / 4))
  | none => .error (.pageFault va)

/-- Write the word at virtual address `va`. -/
def store (s : Vmm) (va : Nat) (w : Word) : Except Stop Vmm :=
  match s.walk va with
  | some f =>
    if writable (s.pde va) && writable (s.pte va) then
      .ok { s with phys := s.phys.set f (va % kb4 / 4) w }
    else .error (.pageFault va)
  | none => .error (.pageFault va)

/-- The loop of `memset(_, 0, _)` over `n` words from `va` on. -/
def memsetLoop : Nat → Vmm → Nat → Except Stop Vmm
  | 0, s, _ => .ok s
  | n + 1, s, va => do
    let s ← s.store va 0#32
    memsetLoop n s (va + 4)

/-- `memset(ptr, 0x00, KB4)`, which does nothing on `NULL`. -/
def memset (s : Vmm) (ptr : Nat) : Except Stop Vmm :=
  if ptr = 0 then .ok s else memsetLoop 1024 s ptr

/-! ## `vmm_init`

It runs before paging is enabled, so its pointers are physical addresses. -/

/-- `vmm_get_physical_page`. -/
def vmmGetPhysicalPage (s : Vmm) : Nat × Vmm :=
  let (ret, pmm) := s.pmm.allocFirst
  (ret, { s with pmm := pmm, phys := if ret = 0 then s.phys else s.phys.clear (ret / kb4) })

/-- The first `n` iterations of the identity-mapping loop over the table in frame `f`. -/
def identityLoop (f : Nat) : Nat → Phys → Phys
  | 0, m => m
  | i + 1, m => (identityLoop f i m).set f i
      (BitVec.ofNat 32 (i * kb4) ||| (x86PagePresent ||| x86PageWritable ||| x86PageUser))

/-- `vmm_init`, up to the LAPIC driver's base address and the page-fault handler. -/
def vmmInit (s : Vmm) : Vmm :=
  let (kernelDir, s) := s.vmmGetPhysicalPage
  let (ptable, s) := s.vmmGetPhysicalPage
  let m := identityLoop (ptable / kb4) 1024 s.phys
  let m := m.set (ptable / kb4) (lapicPhysVirtAddr / kb4)
    (0xFEE00000#32 ||| x86PagePresent ||| x86PageWritable ||| x86PageCacheDis ||| x86PageUser)
  let pmm := s.pmm.markMemTaken 0 mb4
  let m := m.set (kernelDir / kb4) 0
    (BitVec.ofNat 32 ptable ||| x86PagePresent ||| x86PageWritable ||| x86PageUser)
  let m := m.set (kernelDir / kb4) 1023
    (BitVec.ofNat 32 kernelDir ||| x86PagePresent ||| x86PageWritable ||| x86PageUser)
  { phys := m, pmm := pmm, kernelDir := kernelDir, currentDir := kernelDir, cr3 := kernelDir }

/-! ## `vmm_map_page` and `vmm_unmap_page` -/

/-- `ADDR2INDEX`: directory and table index of an address. -/
def addr2Index (addr : Nat) : Nat × Nat :=
  let addr := addr - addr % kb4
  (addr / mb4, addr % mb4 / kb4)

def vmmMapPage (s : Vmm) (physAddr virtAddr : Nat) (acl : Word) : Except Stop (Int × Vmm) := do
  let (diri, pagei) := addr2Index virtAddr
  let ptable := ptableVirtual diri
  let entry := BitVec.ofNat 32 physAddr ||| x86PagePresent ||| acl
  let de ← s.load (dirVirtual + 4 * diri)
  if present de then
    let te ← s.load (ptable + 4 * pagei)
    if present te then
      return (vmmErrPageInUse, s)
    else
      let s ← s.store (ptable + 4 * pagei) entry
      return (vmmSuccess, s)
  else
    let (newPtable, pmm) := s.pmm.allocFirst
    let s := { s with pmm := pmm }
    let s ← s.store (dirVirtual + 4 * diri) (BitVec.ofNat 32 newPtable ||| x86PagePresent ||| acl)
    let s ← s.memset ptable
    let s ← s.store (ptable + 4 * pagei) entry
    return (vmmSuccess, s)

/-- The emptiness scan of `vmm_unmap_page`: the value of `i` when the loop over the table at
`ptable` stops, started at `i` with `n` iterations left. -/
def scanLoop (s : Vmm) (ptable : Nat) : Nat → Nat → Except Stop Nat
  | 0, i => .ok i
  | n + 1, i => do
    let te ← s.load (ptable + 4 * i)
    if present te then return i else scanLoop s ptable n (i + 1)

/-- `if(ptable[pagei] & X86_PAGE_PRESENT) ptable[pagei] = 0`, for the entry at `va`. -/
def clearIfPresent (s : Vmm) (va : Nat) : Except Stop Vmm := do
  let te ← s.load va
  if present te then s.store va 0#32 else return s

/-- `vmm_unmap_page`, up to the TLB flush. -/
def vmmUnmapPage (s : Vmm) (vaddr : Nat) : Except Stop (Int × Vmm) := do
  let (diri, pagei) := addr2Index vaddr
  let ptable := ptableVirtual diri
  let de ← s.load (dirVirtual + 4 * diri)
  if present de then
    let s ← s.clearIfPresent (ptable + 4 * pagei)
    let i ← s.scanLoop ptable 1024 0
    if i ≥ 1024 then
      let de ← s.load (dirVirtual + 4 * diri)
      let s := { s with pmm := s.pmm.free (de &&& x86PageFrame).toNat }
      let s ← s.store (dirVirtual + 4 * diri) 0#32
      return (vmmSuccess, s)
    else
      return (vmmSuccess, s)
  else
    return (vmmErrNoPagedirEntry, s)

/-! ## Address spaces -/

/-- The copying loop of `vmm_create_address_space` from index `i`, `n` iterations left. -/
def copyDirLoop (virt : Nat) : Nat → Nat → Vmm → Except Stop Vmm
  | 0, _, s => .ok s
  | n + 1, i, s => do
    let w ← s.load (dirVirtual + 4 * i)
    let s ← s.store (virt + 4 * i) w
    copyDirLoop virt n (i + 1) s

/-- `vmm_create_address_space`. The source writes `pmm_alloc_first` without calling it, so
`addr_space` is the link address of that function, the parameter `pmmAllocFirstAddr`; the result of
`vmm_map_page` is dropped. -/
def vmmCreateAddressSpace (pmmAllocFirstAddr : Nat) (s : Vmm) (virt : Nat) :
    Except Stop (Nat × Vmm) := do
  let addrSpace := pmmAllocFirstAddr
  let (_, s) ← s.vmmMapPage addrSpace virt x86PageWritable
  let s ← s.memset virt
  let s ← copyDirLoop virt 1024 0 s
  let s ← s.store (virt + 4 * 1023)
    (BitVec.ofNat 32 addrSpace ||| x86PagePresent ||| x86PageWritable)
  return (addrSpace, s)

/-- `vmm_switch_pdir`. -/
def vmmSwitchPdir (s : Vmm) (pdir : Nat) : Vmm := { s with currentDir := pdir, cr3 := pdir }

/-- `vmm_switch_kernel`. -/
def vmmSwitchKernel (s : Vmm) : Vmm := { s with currentDir := s.kernelDir, cr3 := s.kernelDir }

end Vmm
end Frod
