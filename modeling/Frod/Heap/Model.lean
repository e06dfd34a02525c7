import Frod.Lib.Bytes
import Frod.Vmm.Model

/-!
# Frod.Heap.Model

The kernel heap of `sys/heap.c`: a ring of headers (`LLMalloc`), each in front of its payload.

The heap's pages are seen as bytes at their virtual addresses, `Heap.mem`; growing the heap goes
through the allocator and the page tables, `Heap.vm`, and changes no byte by itself, so what the new
pages hold is whatever `mem` says there. Pointers and sizes are `uint32_t`. The two loops of the
source are unbounded; they are given as many iterations as there can be different states, and
`Stop.diverges` stands for a loop that would go on.
-/

namespace Frod

/-- The machine below the heap, the bytes of the heap's pages, and the global `kheap` (its lock is
only taken by `heap_init`). -/
structure Heap where
  vm : Vmm
  mem : Mem
  kernHeap : Nat
  blocksAllocked : Nat

namespace Heap

open Bytes

/-! ## Headers -/

/-- `sizeof(LLMalloc)`. -/
def hdrSz : Nat := 16

def next (m : Mem) (h : Nat) : Nat := rd m h 4
def prev (m : Mem) (h : Nat) : Nat := rd m (h + 4) 4
def size (m : Mem) (h : Nat) : Nat := rd m (h + 8) 4
def used (m : Mem) (h : Nat) : Nat := rd m (h + 12) 1
def magic1 (m : Mem) (h : Nat) : Nat := rd m (h + 13) 2
def magic2 (m : Mem) (h : Nat) : Nat := rd m (h + 15) 1

def setNext (m : Mem) (h v : Nat) : Mem := wr m h v 4
def setPrev (m : Mem) (h v : Nat) : Mem := wr m (h + 4) v 4
def setSize (m : Mem) (h v : Nat) : Mem := wr m (h + 8) v 4
def setUsed (m : Mem) (h v : Nat) : Mem := wr m (h + 12) v 1
def setMagic1 (m : Mem) (h v : Nat) : Mem := wr m (h + 13) v 2
def setMagic2 (m : Mem) (h v : Nat) : Mem := wr m (h + 15) v 1

/-- `free->magic1 == 0xabcd && free->magic2 == 0xef`. -/
def hasMagic (m : Mem) (h : Nat) : Bool := magic1 m h == 0xabcd && magic2 m h == 0xef

/-! ## `heap_get_new_block` -/

/-- The virtual address of the next page the heap maps. -/
def nextPage (s : Heap) : Nat := (heapStart + s.blocksAllocked * 4096) % 2 ^ 32

/-- One iteration of the mapping loop. -/
def mapHeapPage (s : Heap) : Except Stop Heap := do
  let (phys, pmm) := s.vm.pmm.allocFirst
  let (err, vm) ← Vmm.vmmMapPage { s.vm with pmm := pmm } phys s.nextPage Vmm.x86PageWritable
  if err ≠ 0 then throw (.panic "Unable to map page")
  return { s with vm := vm, blocksAllocked := (s.blocksAllocked + 1) % 2 ^ 32 }

/-- The mapping loop, `n` iterations left. -/
def mapLoop : Nat → Heap → Except Stop Heap
  | 0, s => .ok s
  | n + 1, s => do
    let s ← s.mapHeapPage
    mapLoop n s

/-- The header of a new region at `ret`, put after `prev` unless that is `NULL`. -/
def initBlock (m : Mem) (ret prev : Nat) : Mem :=
  let m := if prev ≠ 0 then
      let m := setNext m ret (next m prev)
      let m := setPrev m ret prev
      setNext m prev ret
    else
      let m := setNext m ret ret
      setPrev m ret ret
  let m := setSize m ret (4096 * heapBlocks - hdrSz)
  let m := setUsed m ret 0
  let m := setMagic1 m ret 0xabcd
  setMagic2 m ret 0xef

def heapGetNewBlock (s : Heap) (prev : Nat) : Except Stop (Nat × Heap) := do
  let ret := s.nextPage
  let s ← mapLoop heapBlocks s
  return (ret, { s with mem := initBlock s.mem ret prev })

/-- `heap_init`. -/
def heapInit (s : Heap) : Except Stop Heap := do
  let s := { s with blocksAllocked := 0 }
  let (ret, s) ← s.heapGetNewBlock 0
  return { s with kernHeap := ret }

/-! ## `heap_malloc` -/

/-- The alignment `sz += (sz%4)`. -/
def roundSz (sz : Nat) : Nat := (sz + sz % 4) % 2 ^ 32

/-- `it->used == 0 && it->size >= sz`. -/
def fits (m : Mem) (sz it : Nat) : Bool := used m it == 0 && decide (sz ≤ size m it)

/-- The search from `it` on, which ends when it is back at `stop`. -/
def searchLoop (m : Mem) (sz stop : Nat) : Nat → Nat → Option Nat
  | 0, _ => none
  | n + 1, it =>
    if fits m sz it then some it
    else
      let it := next m it
      if it = stop then some it else searchLoop m sz stop n it

/-- Take block `it` for `sz` bytes, and split off what is left if a header fits there. -/
def takeBlock (m : Mem) (sz it : Nat) : Mem :=
  let m := setUsed m it 1
  if size m it - sz > hdrSz then
    let n := (it + sz + hdrSz) % 2 ^ 32
    let m := setUsed m n 0
    let m := setSize m n (size m it - hdrSz - sz)
    let m := setNext m n (next m it)
    let m := setPrev m n it
    let m := setNext m it n
    setSize m it sz
  else m

/-- `heap_malloc`, with a bound on how often it calls itself. -/
def mallocLoop : Nat → Heap → Nat → Except Stop (Nat × Heap)
  | 0, _, _ => .error .diverges
  | n + 1, s, sz =>
    let sz := roundSz sz
    if sz > 4096 - hdrSz then .error (.panic "We don't have memory pages that big\n")
    else
      match searchLoop s.mem sz s.kernHeap (2 ^ 32) s.kernHeap with
      | none => .error .diverges
      | some it =>
        if fits s.mem sz it then
          .ok ((it + hdrSz) % 2 ^ 32, { s with mem := takeBlock s.mem sz it })
        else
          match s.heapGetNewBlock it with
          | .error e => .error e
          | .ok (_, s) => mallocLoop n s sz

/-- `heap_malloc`. Every call to itself comes after the heap has grown by 4 MB, so more than 1024 of
them would map some page twice. -/
def heapMalloc (s : Heap) (sz : Nat) : Except Stop (Nat × Heap) := mallocLoop 1025 s sz

/-! ## `heap_free` -/

/-- `free->size += free->next->size + sizeof(LLMalloc)` and the unlinking of `free->next`. -/
def absorbNext (m : Mem) (free : Nat) : Mem :=
  let m := setSize m free (size m free + (size m (next m free) + hdrSz))
  if prev m free = next m free then setNext (setPrev m free free) free free
  else setNext m free (next m (next m free))

/-- The first merge, into the previous block: the new memory and the new `free`. -/
def mergePrev (m : Mem) (free : Nat) : Mem × Nat :=
  let p := prev m free
  if p ≠ free ∧ used m p = 0 ∧ (p + size m p) % 2 ^ 32 = free then (absorbNext m p, p)
  else (m, free)

/-- The second merge, of the next block. -/
def mergeNext (m : Mem) (free : Nat) : Mem :=
  if next m free ≠ free ∧ used m (next m free) = 0 then absorbNext m free else m

def heapFree (s : Heap) (addr : Nat) : Except Stop Heap :=
  let free := (addr + 2 ^ 32 - hdrSz) % 2 ^ 32
  if used s.mem free ≠ 1 ∨ hasMagic s.mem free = false then
    .error (.panic "Heap magic value does not fit.\n")
  else
    let (m, free) := mergePrev s.mem free
    .ok { s with mem := mergeNext m free }

end Heap
end Frod
