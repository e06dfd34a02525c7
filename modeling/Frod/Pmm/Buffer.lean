import Frod.Lib.Machine
import Frod.Pmm.Init

/-!
# Frod.Pmm.Buffer

`init_pmm` as it runs: the memory map lies in a buffer that is walked by the entries' own size
fields, and the bitmap is written into the same memory. Every field of an entry is read again each
time the source names it, since the writes to the bitmap may alias it.

`MapAt` lists the entries that the size fields lead to, whatever the buffer holds. The first two passes
come before the first write, and do over memory what they do over that list.
-/

namespace Frod

/-- Physical memory with the globals `pmm_bitmap` and `pmm_bitmap_sz`. -/
structure Ram where
  mem : Mem
  bitmap : Nat
  bitmapSz : Nat

namespace Ram

open BitArray Bytes
open Pmm (blkSz alignDownwards markLo markHi pmmBytes blocksBitmap bitmapBase placeBitmap
  markedRanges)

/-! ## The model -/

def word (m : Mem) (a : Nat) : Word := BitVec.ofNat 32 (rd m a 4)

/-- The fields of the `multiboot_mmap` at `a`, and the address of the one that follows. -/
def entryAt (m : Mem) (a : Nat) : MmapEntry :=
  ⟨word m (a + 4), word m (a + 8), word m (a + 12), word m (a + 16), word m (a + 20)⟩
def nextEntry (m : Mem) (a : Nat) : Nat := (a + ((word m a).toNat + 4)) % 2 ^ 32

/-- The loop of `pmm_get_max_space` at entry `copy`; `stop` is `mmap_addr + len`. -/
def getMaxSpaceLoop (m : Mem) (stop : Nat) : Nat → Nat → Nat → Except Stop Nat
  | 0, _, _ => .error .diverges
  | n + 1, copy, max =>
    if copy < stop then
      getMaxSpaceLoop m stop n (nextEntry m copy)
        (if (entryAt m copy).type = 1 then (entryAt m copy).endL else max)
    else .ok max

/-- The search for a place for the bitmap. -/
def placeLoop (m : Mem) (stop blocks : Nat) : Nat → Nat → Except Stop (Option Nat)
  | 0, _ => .error .diverges
  | n + 1, copy =>
    if copy < stop then
      match bitmapBase blocks (entryAt m copy) with
      | some base => .ok (some base)
      | none => placeLoop m stop blocks n (nextEntry m copy)
    else .ok none

/-- `bitmap_set(a,b)` on memory. -/
def bitmapSet (ptr : Nat) (m : Mem) (b : Nat) : Mem :=
  Function.update m ((ptr + b / 8) % 2 ^ 32) (m ((ptr + b / 8) % 2 ^ 32) ||| mask b)

/-- The loop that clears the bitmap, after `n` iterations. -/
def clearBytes (m : Mem) (ptr : Nat) : Nat → Mem
  | 0 => m
  | n + 1 => Function.update (clearBytes m ptr n) ((ptr + n) % 2 ^ 32) 0

/-- The loop that takes the bitmap's own blocks, from block `lo` on. -/
def setBlocks (ptr : Nat) (m : Mem) (lo : Nat) : Nat → Mem
  | 0 => m
  | n + 1 => setBlocks ptr (bitmapSet ptr m lo) (lo + 1) n

/-- The two marking loops. Setting bits is idempotent and an aligned `x` takes `2^20` values, so
after twice as many iterations nothing changes any more. -/
def markLoop (ptr : Nat) (limit : Mem → Nat) : Nat → Nat → Mem → Except Stop Mem
  | 0, _, _ => .error .diverges
  | n + 1, x, m =>
    if x < limit m then markLoop ptr limit n ((x + blkSz) % 2 ^ 32) (bitmapSet ptr m (x / blkSz))
    else .ok m

/-- Marking from `lo` up to a limit that is read in every iteration. -/
def markRange (ptr : Nat) (m : Mem) (lo : Nat) (limit : Mem → Nat) : Except Stop Mem :=
  markLoop ptr limit (2 ^ 21 + 1) (alignDownwards lo blkSz) m

/-- The third pass at entry `copy`. -/
def markWalk (ptr max stop : Nat) : Nat → Nat → Nat → Mem → Except Stop Mem
  | 0, _, _, _ => .error .diverges
  | n + 1, copy, expected, m =>
    let top := (max + 2 ^ 32 - 1) % 2 ^ 32
    if copy < stop ∧ (entryAt m copy).baseAddrL.toNat < top then do
      let m ← (if (entryAt m copy).baseAddrL.toNat > expected then
          markRange ptr m expected (fun m => (entryAt m copy).baseAddrL.toNat) else .ok m)
      let m ← (if (entryAt m copy).type ≠ 1 ∧ (entryAt m copy).endL < top then
          markRange ptr m (entryAt m copy).baseAddrL.toNat (fun m => (entryAt m copy).endL) else .ok m)
      markWalk ptr max stop n (nextEntry m copy) (entryAt m copy).endL m
    else .ok m

/-- `init_pmm`: the return value, memory and the globals. Each pass over the map visits fewer than
`fuel` entries. -/
def initPmm (s : Ram) (fuel mmap len : Nat) : Except Stop (Nat × Ram) := do
  let stop := (mmap + len) % 2 ^ 32
  let max ← getMaxSpaceLoop s.mem stop fuel mmap 0
  let sz := max / blkSz
  let s : Ram := match ← placeLoop s.mem stop (blocksBitmap sz) fuel mmap with
    | some base =>
      let m := clearBytes s.mem base (pmmBytes sz)
      ⟨setBlocks base m (base / blkSz) (blocksBitmap sz), base, sz⟩
    | none => ⟨s.mem, s.bitmap, sz⟩
  let m ← markWalk s.bitmap max stop fuel mmap 0 s.mem
  return (max, { s with mem := bitmapSet s.bitmap m 0 })

/-- The buffer at `a` holds the entries, each with the size field 20. -/
def HoldsMap (m : Mem) : Nat → List MmapEntry → Prop
  | _, [] => True
  | a, e :: es => word m a = 20 ∧ entryAt m a = e ∧ HoldsMap m (a + 24) es

/-! ## The allocator on memory -/

/-- The bits that the allocator sees. -/
def bits (s : Ram) : BitArray := fun i => s.mem ((s.bitmap + i) % 2 ^ 32)

/-- `pmm_is_taken`. -/
def pmmIsTaken (s : Ram) (block : Nat) : Bool := isSet s.bits block

/-- `bitmap_unset(a,b)` on memory. -/
def bitmapUnset (ptr : Nat) (m : Mem) (b : Nat) : Mem :=
  Function.update m ((ptr + b / 8) % 2 ^ 32) (m ((ptr + b / 8) % 2 ^ 32) &&& ~~~ mask b)

/-- `pmm_alloc_first`. -/
def pmmAllocFirst (s : Ram) : Nat × Ram :=
  match Pmm.allocFirstLoop s.bits (s.bitmapSz - 1) 1 with
  | some i => (i * blkSz % 2 ^ 32, { s with mem := bitmapSet s.bitmap s.mem i })
  | none => (0, s)

/-- `pmm_free`. -/
def pmmFree (s : Ram) (block : Nat) : Ram :=
  { s with mem := bitmapUnset s.bitmap s.mem (block / blkSz) }

/-- `pmm_mark_mem_taken`. -/
def pmmMarkMemTaken (s : Ram) (start stop : Nat) : Ram :=
  { s with mem := setBlocks s.bitmap s.mem (markLo start) (markHi stop - markLo start) }

/-! ## The walks -/

theorem nextEntry_eq {m : Mem} {a : Nat} (h : word m a = 20) (ha : a + 24 < 2 ^ 32) :
    nextEntry m a = a + 24 := by
  rw [nextEntry, h]
  exact Nat.mod_eq_of_lt ha

/-- The entries that the size fields lead to from `a` on, as far as `stop`. -/
inductive MapAt (m : Mem) (stop : Nat) : Nat → List MmapEntry → Prop
  | nil {a : Nat} : stop ≤ a → MapAt m stop a []
  | cons {a : Nat} {es : List MmapEntry} :
      a < stop → MapAt m stop (nextEntry m a) es → MapAt m stop a (entryAt m a :: es)

section MapAt

variable {m : Mem} {stop a : Nat} {es : List MmapEntry}

theorem MapAt.getMaxSpaceLoop (h : MapAt m stop a es) : ∀ {fuel max : Nat}, es.length < fuel →
    getMaxSpaceLoop m stop fuel a max = .ok (Pmm.getMaxSpaceLoop max es) := by
  induction h with
  | nil ha =>
    intro fuel max hfuel
    obtain ⟨n, rfl⟩ := Nat.exists_eq_succ_of_ne_zero (Nat.ne_of_gt hfuel)
    rw [Ram.getMaxSpaceLoop, if_neg (by omega)]
    rfl
  | cons ha _ ih =>
    intro fuel max hfuel
    obtain ⟨n, rfl⟩ := Nat.exists_eq_succ_of_ne_zero (Nat.ne_of_gt (Nat.zero_lt_of_lt hfuel))
    rw [Ram.getMaxSpaceLoop, if_pos ha]
    exact ih (Nat.lt_of_succ_lt_succ hfuel)

theorem MapAt.placeLoop (h : MapAt m stop a es) (blocks : Nat) : ∀ {fuel : Nat}, es.length < fuel →
    placeLoop m stop blocks fuel a = .ok (placeBitmap blocks es) := by
  induction h with
  | nil ha =>
    intro fuel hfuel
    obtain ⟨n, rfl⟩ := Nat.exists_eq_succ_of_ne_zero (Nat.ne_of_gt hfuel)
    rw [Ram.placeLoop, if_neg (by omega)]
    rfl
  | cons ha _ ih =>
    intro fuel hfuel
    obtain ⟨n, rfl⟩ := Nat.exists_eq_succ_of_ne_zero (Nat.ne_of_gt (Nat.zero_lt_of_lt hfuel))
    rw [Ram.placeLoop, if_pos ha, ih (Nat.lt_of_succ_lt_succ hfuel), placeBitmap, placeBitmap,
      List.findSome?_cons]
    split
    · rename_i hb
      rw [hb]
    · rename_i hb
      rw [hb]

/-- A walk that ends has met a list of entries. -/
theorem mapAt_of_getMaxSpaceLoop : ∀ {fuel a max r : Nat},
    getMaxSpaceLoop m stop fuel a max = .ok r → ∃ es, MapAt m stop a es ∧ es.length < fuel := by
  intro fuel
  induction fuel with
  | zero => intro a max r h; cases h
  | succ fuel ih =>
    intro a max r h
    rw [Ram.getMaxSpaceLoop] at h
    split at h
    · rename_i ha
      obtain ⟨es, hes, hlen⟩ := ih h
      exact ⟨_, .cons ha hes, Nat.succ_lt_succ hlen⟩
    · rename_i ha
      exact ⟨[], .nil (Nat.le_of_not_lt ha), Nat.succ_pos _⟩

end MapAt

theorem MapAt.unique {m : Mem} {stop a : Nat} {es es' : List MmapEntry} (h : MapAt m stop a es)
    (h' : MapAt m stop a es') : es' = es := by
  induction h generalizing es' with
  | nil ha =>
    cases h' with
    | nil _ => rfl
    | cons ha' _ => omega
  | cons ha _ ih =>
    cases h' with
    | nil ha' => omega
    | cons _ h' => rw [ih h']

theorem HoldsMap.mapAt {m : Mem} {stop : Nat} : ∀ {es : List MmapEntry} {a : Nat}, HoldsMap m a es →
    a + 24 * es.length = stop → stop < 2 ^ 32 → MapAt m stop a es := by
  intro es
  induction es with
  | nil =>
    intro a _ ha _
    exact .nil (by simp only [List.length_nil] at ha; omega)
  | cons e es ih =>
    intro a h ha hstop
    rw [List.length_cons] at ha
    obtain ⟨hsize, rfl, hrest⟩ := h
    refine .cons (by omega) ?_
    rw [nextEntry_eq hsize (by omega)]
    exact ih hrest (by omega) hstop

/-! ## The bitmap -/

theorem clearBytes_apply (m : Mem) {ptr x : Nat} : ∀ {k : Nat}, ptr + k ≤ 2 ^ 32 →
    clearBytes m ptr k x = if ptr ≤ x ∧ x < ptr + k then 0 else m x := by
  intro k
  induction k with
  | zero => intro _; rw [clearBytes, if_neg (by omega)]
  | succ k ih =>
    intro hk
    rw [clearBytes, Nat.mod_eq_of_lt (by omega), Function.update_apply, ih (by omega)]
    by_cases hx : x = ptr + k
    · rw [if_pos hx, if_pos (by omega)]
    · rw [if_neg hx]
      exact if_congr (by omega) rfl rfl

end Ram
end Frod
