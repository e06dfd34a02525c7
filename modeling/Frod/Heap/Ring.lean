import Frod.Heap.Model
import Frod.Lib.Tiling

/-!
# Frod.Heap.Ring

The ring of headers as a list of blocks, and what each piece of `heap.c` does to it.

`Ring m stop l` says that memory `m` holds the headers of the blocks `l`, each pointing to the next
one and the last one to `stop`. The lemmas below turn the writes of the source into changes of that
list; after them no proof looks at bytes again:

* `searchLoop_eq`: the search finds the first block of the list that fits, or ends at the head.
* `takeBlock_split`, `takeBlock_whole`: taking a block.
* `absorbNext_hdr`: merging a block with the next one.
* `initBlock_after`, `initBlock_first`: a new region.
-/

namespace Frod
namespace Heap

open Bytes

/-- A block as its header describes it; `magic` tells whether the header carries the magic values. -/
structure Blk where
  addr : Nat
  size : Nat
  used : Bool
  prev : Nat
  magic : Bool

/-- The first address after the block. -/
def Blk.fin (b : Blk) : Nat := b.addr + hdrSz + b.size

theorem Blk.addr_lt_fin (b : Blk) : b.addr < b.fin := by unfold Blk.fin hdrSz; omega

/-- The header of `b` in memory, with `nx` as its next pointer. -/
structure HdrIs (m : Mem) (b : Blk) (nx : Nat) : Prop where
  next : Heap.next m b.addr = nx
  prev : Heap.prev m b.addr = b.prev
  size : Heap.size m b.addr = b.size
  used : Heap.used m b.addr = if b.used then 1 else 0
  magic : hasMagic m b.addr = b.magic

/-- The address of the first block of `l`, or `stop`. -/
def nextAddr (stop : Nat) : List Blk → Nat
  | [] => stop
  | b :: _ => b.addr

/-- Memory holds the headers of `l`, linked in this order, and the last one points to `stop`. -/
def Ring (m : Mem) (stop : Nat) : List Blk → Prop
  | [] => True
  | b :: l => HdrIs m b (nextAddr stop l) ∧ Ring m stop l

theorem nextAddr_append (stop : Nat) (l₁ l₂ : List Blk) :
    nextAddr stop (l₁ ++ l₂) = nextAddr (nextAddr stop l₂) l₁ := by
  cases l₁ <;> rfl

theorem ring_append {m : Mem} {stop : Nat} : ∀ {l₁ l₂ : List Blk},
    Ring m stop (l₁ ++ l₂) ↔ Ring m (nextAddr stop l₂) l₁ ∧ Ring m stop l₂ := by
  intro l₁
  induction l₁ with
  | nil => intro l₂; simp [Ring]
  | cons b l₁ ih =>
    intro l₂
    simp only [List.cons_append, Ring, ih, nextAddr_append, and_assoc]

/-! ## Reading a header after a write -/

theorem HdrIs.congr {m m' : Mem} {b : Blk} {nx : Nat} (h : HdrIs m b nx) (hb : b.fin ≤ 2 ^ 32)
    (hm : ∀ x, b.addr ≤ x → x < b.addr + hdrSz → m' x = m x) : HdrIs m' b nx := by
  unfold Blk.fin hdrSz at hb
  unfold hdrSz at hm
  have hrd : ∀ o n, o + n ≤ 16 → rd m' (b.addr + o) n = rd m (b.addr + o) n := fun o n ho =>
    rd_congr (by omega) fun x h1 h2 => hm x (by omega) (by omega)
  have h0 : rd m' b.addr 4 = rd m b.addr 4 := hrd 0 4 (by omega)
  obtain ⟨h1, h2, h3, h4, h5⟩ := h
  refine ⟨?_, ?_, ?_, ?_, ?_⟩
  · rw [Heap.next, h0]; exact h1
  · rw [Heap.prev, hrd 4 4 (by omega)]; exact h2
  · rw [Heap.size, hrd 8 4 (by omega)]; exact h3
  · rw [Heap.used, hrd 12 1 (by omega)]; exact h4
  · rw [hasMagic, magic1, magic2, hrd 13 2 (by omega), hrd 15 1 (by omega)]; exact h5

theorem Ring.congr {m m' : Mem} {stop : Nat} : ∀ {l : List Blk}, Ring m stop l →
    (∀ b ∈ l, b.fin ≤ 2 ^ 32 ∧ ∀ x, b.addr ≤ x → x < b.addr + hdrSz → m' x = m x) →
    Ring m' stop l := by
  intro l
  induction l with
  | nil => intro _ _; trivial
  | cons b l ih =>
    intro h hm
    have hb := hm b (by simp)
    exact ⟨h.1.congr hb.1 hb.2, ih h.2 fun c hc => hm c (by simp [hc])⟩

/-- Only the bytes of the headers at `a` and `b` differ. -/
def SameBut (a b : Nat) (m m' : Mem) : Prop :=
  ∀ x, x < a ∨ a + hdrSz ≤ x → x < b ∨ b + hdrSz ≤ x → m' x = m x

theorem next_lt (m : Mem) (h : Nat) : next m h < 2 ^ 32 := rd_lt m 4 h
theorem size_lt (m : Mem) (h : Nat) : size m h < 2 ^ 32 := rd_lt m 4 (h + 8)

/-! ## The search -/

/-- The blocks the search accepts. -/
def Blk.fits (sz : Nat) (b : Blk) : Bool := !b.used && decide (sz ≤ b.size)

theorem HdrIs.fits {m : Mem} {b : Blk} {nx : Nat} (h : HdrIs m b nx) (sz : Nat) :
    Heap.fits m sz b.addr = b.fits sz := by
  rw [Heap.fits, Blk.fits, h.used, h.size]
  cases b.used <;> simp

theorem searchLoop_eq {m : Mem} {stop : Nat} (sz : Nat) : ∀ {l : List Blk} {b : Blk} {n : Nat},
    Ring m stop (b :: l) → (∀ c ∈ l, c.addr ≠ stop) → l.length < n →
    searchLoop m sz stop n b.addr =
      some (match (b :: l).find? (Blk.fits sz) with | some c => c.addr | none => stop) := by
  intro l
  induction l with
  | nil =>
    intro b n h _ hn
    obtain ⟨n, rfl⟩ : ∃ k, n = k + 1 := ⟨n - 1, by omega⟩
    have hnx : next m b.addr = stop := h.1.next
    simp only [searchLoop, h.1.fits sz, hnx]
    cases hb : b.fits sz <;> simp [List.find?, hb]
  | cons c l ih =>
    intro b n h hstop hn
    obtain ⟨n, rfl⟩ : ∃ k, n = k + 1 := ⟨n - 1, by omega⟩
    have hnx : next m b.addr = c.addr := h.1.next
    have hc : c.addr ≠ stop := hstop c (by simp)
    have ih := ih (b := c) (n := n) h.2 (fun d hd => hstop d (by simp [hd])) (by
      simp only [List.length_cons] at hn; omega)
    simp only [searchLoop, h.1.fits sz, hnx, if_neg hc, ih]
    cases hb : b.fits sz <;> simp [List.find?, hb]

/-! ## Taking a block -/

theorem size_setUsed {m : Mem} {h : Nat} (hh : h + 16 ≤ 2 ^ 32) (v : Nat) :
    size (setUsed m h v) h = size m h := rd_wr_disjoint (by omega) (by omega) (by omega)

/-- A block that leaves no room for another header is taken as it is. -/
theorem takeBlock_whole {m : Mem} {b : Blk} {nx sz : Nat} (h : HdrIs m b nx) (hb : b.fin ≤ 2 ^ 32)
    (hsz : b.size - sz ≤ hdrSz) :
    HdrIs (takeBlock m sz b.addr) { b with used := true } nx ∧
      SameBut b.addr b.addr m (takeBlock m sz b.addr) := by
  unfold Blk.fin hdrSz at hb
  have hif : ¬ size (setUsed m b.addr 1) b.addr - sz > hdrSz := by
    rw [size_setUsed (by omega), h.size]; omega
  obtain ⟨h1, h2, h3, h4, h5⟩ := h
  simp only [next, prev, size, used] at h1 h2 h3 h4
  rw [takeBlock, if_neg hif, setUsed]
  refine ⟨⟨?_, ?_, ?_, ?_, ?_⟩, fun x hx _ => ?_⟩
  · simp (disch := omega) only [next, rd_wr_disjoint, h1]
  · simp (disch := omega) only [prev, rd_wr_disjoint, h2]
  · simp (disch := omega) only [size, rd_wr_disjoint, h3]
  · simp (disch := omega) only [used, rd_wr_same]; rfl
  · simp (disch := omega) only [hasMagic, magic1, magic2, rd_wr_disjoint]
    exact h5
  · unfold hdrSz at hx
    exact wr_other m 1 (by omega) (by omega)

/-- The block that is split off when `sz` bytes of `b` are taken. The source does not write its
magic values, so whether it has them depends on what the memory held there. -/
def Blk.rest (b : Blk) (sz : Nat) (magic : Bool) : Blk :=
  { addr := b.addr + hdrSz + sz, size := b.size - hdrSz - sz, used := false, prev := b.addr,
    magic := magic }

theorem takeBlock_split {m : Mem} {b : Blk} {nx sz : Nat} (h : HdrIs m b nx) (hb : b.fin ≤ 2 ^ 32)
    (hsz : b.size - sz > hdrSz) :
    HdrIs (takeBlock m sz b.addr) { b with used := true, size := sz } (b.addr + hdrSz + sz) ∧
      HdrIs (takeBlock m sz b.addr) (b.rest sz (hasMagic m (b.addr + hdrSz + sz))) nx ∧
      SameBut b.addr (b.addr + hdrSz + sz) m (takeBlock m sz b.addr) := by
  have hnx := next_lt m b.addr
  have hbs := size_lt m b.addr
  unfold Blk.fin hdrSz at hb
  have hif : size (setUsed m b.addr 1) b.addr - sz > hdrSz := by
    rw [size_setUsed (by omega), h.size]; exact hsz
  unfold hdrSz at hsz
  obtain ⟨h1, h2, h3, h4, h5⟩ := h
  have hn : (b.addr + sz + 16) % 2 ^ 32 = b.addr + 16 + sz := by omega
  rw [h1] at hnx
  rw [h3] at hbs
  simp only [next, prev, size, used] at h1 h2 h3 h4
  rw [takeBlock, if_pos hif]
  simp only [Blk.rest, hdrSz, hn]
  simp only [setNext, setPrev, setSize, setUsed, next, size]
  -- the values read back in between are the old ones
  simp (disch := omega) only [rd_wr_disjoint, h1, h3]
  refine ⟨⟨?_, ?_, ?_, ?_, ?_⟩, ⟨?_, ?_, ?_, ?_, ?_⟩, fun x hx1 hx2 => ?_⟩
  · simp (disch := omega) only [next, rd_wr_disjoint, rd_wr_same]; omega
  · simp (disch := omega) only [prev, rd_wr_disjoint, h2]
  · simp (disch := omega) only [size, rd_wr_same]; omega
  · simp (disch := omega) only [used, rd_wr_disjoint, rd_wr_same]; rfl
  · simp (disch := omega) only [hasMagic, magic1, magic2, rd_wr_disjoint]
    exact h5
  · simp (disch := omega) only [next, rd_wr_disjoint, rd_wr_same]; omega
  · simp (disch := omega) only [prev, rd_wr_disjoint, rd_wr_same]; omega
  · simp (disch := omega) only [size, rd_wr_disjoint, rd_wr_same]; omega
  · simp (disch := omega) only [used, rd_wr_disjoint, rd_wr_same]; rfl
  · simp (disch := omega) only [hasMagic, magic1, magic2, rd_wr_disjoint]
  · unfold hdrSz at hx1 hx2
    simp (disch := omega) only [wr_other]

/-! ## Merging with the next block -/

/-- Block `b` together with the block `c` behind it. -/
def Blk.absorb (b c : Blk) : Blk := { b with size := b.size + hdrSz + c.size }

theorem absorbNext_hdr {m : Mem} {b c : Blk} {nx : Nat} (hb : HdrIs m b c.addr) (hc : HdrIs m c nx)
    (hbf : b.fin ≤ 2 ^ 32) (hcf : c.fin ≤ 2 ^ 32) (hap : Apart Blk.addr Blk.fin b c)
    (hprev : b.prev ≠ c.addr) (hsz : b.size + hdrSz + c.size < 2 ^ 32) :
    HdrIs (absorbNext m b.addr) (b.absorb c) nx ∧
      SameBut b.addr b.addr m (absorbNext m b.addr) := by
  have hnx := next_lt m c.addr
  rw [hc.next] at hnx
  obtain ⟨h1, h2, h3, h4, h5⟩ := hb
  have hc1 := hc.next
  have hc3 := hc.size
  simp only [Apart, Blk.fin, hdrSz] at hbf hcf hap hsz
  simp only [next, prev, size, used] at h1 h2 h3 h4 hc1 hc3
  simp only [absorbNext, setSize, setNext, next, prev, size, hdrSz, Blk.absorb]
  simp (disch := omega) only [rd_wr_disjoint, h1, h2, h3, hc1, hc3]
  rw [if_neg hprev]
  refine ⟨⟨?_, ?_, ?_, ?_, ?_⟩, fun x hx _ => ?_⟩
  · simp (disch := omega) only [next, rd_wr_same]; omega
  · simp (disch := omega) only [prev, rd_wr_disjoint, h2]
  · simp (disch := omega) only [size, rd_wr_disjoint, rd_wr_same]; omega
  · simp (disch := omega) only [used, rd_wr_disjoint, h4]
  · simp (disch := omega) only [hasMagic, magic1, magic2, rd_wr_disjoint]
    exact h5
  · unfold hdrSz at hx
    simp (disch := omega) only [wr_other]

/-! ## A new region -/

/-- The block of a new region. -/
def newBlk (ret prev : Nat) : Blk :=
  { addr := ret, size := 4096 * heapBlocks - hdrSz, used := false, prev := prev, magic := true }

theorem initBlock_first (m : Mem) {ret : Nat} (hret : ret + hdrSz ≤ 2 ^ 32) :
    HdrIs (initBlock m ret 0) (newBlk ret ret) ret ∧ SameBut ret ret m (initBlock m ret 0) := by
  unfold hdrSz at hret
  simp only [initBlock, setNext, setPrev, setSize, setUsed, setMagic1, setMagic2, newBlk, hdrSz,
    heapBlocks]
  refine ⟨⟨?_, ?_, ?_, ?_, ?_⟩, fun x hx _ => ?_⟩
  · simp (disch := omega) [next, rd_wr_disjoint, rd_wr_same]; omega
  · simp (disch := omega) [prev, rd_wr_disjoint, rd_wr_same]; omega
  · simp (disch := omega) [size, rd_wr_disjoint, rd_wr_same]
  · simp (disch := omega) [used, rd_wr_disjoint, rd_wr_same]
  · simp (disch := omega) [hasMagic, magic1, magic2, rd_wr_disjoint, rd_wr_same]
  · unfold hdrSz at hx
    simp (disch := omega) [wr_other]

theorem initBlock_after {m : Mem} {b : Blk} {nx ret : Nat} (hb : HdrIs m b nx) (h0 : b.addr ≠ 0)
    (hbf : b.fin ≤ ret) (hret : ret + hdrSz ≤ 2 ^ 32) :
    HdrIs (initBlock m ret b.addr) b ret ∧ HdrIs (initBlock m ret b.addr) (newBlk ret b.addr) nx ∧
      SameBut b.addr ret m (initBlock m ret b.addr) := by
  have hnx := next_lt m b.addr
  rw [hb.next] at hnx
  obtain ⟨h1, h2, h3, h4, h5⟩ := hb
  unfold Blk.fin hdrSz at hbf
  unfold hdrSz at hret
  simp only [next, prev, size, used] at h1 h2 h3 h4
  simp only [initBlock, if_pos h0, setNext, setPrev, setSize, setUsed, setMagic1, setMagic2, newBlk,
    hdrSz, heapBlocks, next, h1]
  refine ⟨⟨?_, ?_, ?_, ?_, ?_⟩, ⟨?_, ?_, ?_, ?_, ?_⟩, fun x hx1 hx2 => ?_⟩
  · simp (disch := omega) only [next, rd_wr_disjoint, rd_wr_same]; omega
  · simp (disch := omega) only [prev, rd_wr_disjoint, h2]
  · simp (disch := omega) only [size, rd_wr_disjoint, h3]
  · simp (disch := omega) only [used, rd_wr_disjoint, h4]
  · simp (disch := omega) only [hasMagic, magic1, magic2, rd_wr_disjoint]
    exact h5
  · simp (disch := omega) only [next, rd_wr_disjoint, rd_wr_same]; omega
  · simp (disch := omega) only [prev, rd_wr_disjoint, rd_wr_same]; omega
  · simp (disch := omega) only [size, rd_wr_disjoint, rd_wr_same]; omega
  · simp (disch := omega) only [used, rd_wr_disjoint, rd_wr_same]; rfl
  · simp (disch := omega) only [hasMagic, magic1, magic2, rd_wr_disjoint, rd_wr_same]
    rfl
  · unfold hdrSz at hx1 hx2
    simp (disch := omega) only [wr_other]

end Heap
end Frod
