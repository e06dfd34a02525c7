import Mathlib.Data.List.Perm.Subperm
import Frod.Heap.Blocks
import Frod.Heap.Grow

/-!
# Frod.Heap.Rep

The code refines the abstract heap: `Rep` relates a heap in memory to its blocks, and every public
function of `heap.c` is one of the list operations of `Frod.Heap.Blocks`.

* `heapMalloc_found`, `heapMalloc_grown`: an allocation takes the first block that fits, or the new
  region when none does.
* `heapFree_cases`: a release does nothing or merges the next block, and never clears the used flag.
* `Rep.write`: what a caller writes to its payload does not matter.
-/

namespace Frod
namespace Heap

open Vmm (PageMap)

/-- Memory holds the blocks `l`, the first of them at `kern_heap`, over page tables that allow for
growth. -/
structure Rep (fresh : Nat) (s : Heap) (l : List Blk) (live : List (Nat × Nat)) : Prop where
  wf : Wf fresh s.blocksAllocked l live
  ring : Ring s.mem s.kernHeap l
  head : ∃ b t, l = b :: t ∧ b.addr = s.kernHeap
  bound : heapStart + 4096 * s.blocksAllocked ≤ 0xFFC00000
  vm : ∃ A, VmOk s.vm A

theorem Rep.weaken {fresh : Nat} {s : Heap} {l : List Blk} {live : List (Nat × Nat)}
    (h : Rep 0 s l live) : Rep fresh s l live := { h with wf := h.wf.weaken }

theorem Ring.replace {m m' : Mem} {stop : Nat} {l₁ mid mid' l₂ : List Blk}
    (h : Ring m stop (l₁ ++ mid ++ l₂))
    (hout : ∀ b ∈ l₁ ++ l₂, b.fin ≤ 2 ^ 32 ∧ ∀ x, b.addr ≤ x → x < b.addr + hdrSz → m' x = m x)
    (hmid : Ring m' (nextAddr stop l₂) mid')
    (hfirst : nextAddr (nextAddr stop l₂) mid' = nextAddr (nextAddr stop l₂) mid) :
    Ring m' stop (l₁ ++ mid' ++ l₂) := by
  rw [List.append_assoc, ring_append, ring_append, nextAddr_append] at h ⊢
  refine ⟨?_, hmid, h.2.2.congr fun b hb => hout b (by simp [hb])⟩
  rw [hfirst]
  exact h.1.congr fun b hb => hout b (by simp [hb])

theorem Ring.hdr {m : Mem} {stop : Nat} {l₁ l₂ : List Blk} {b : Blk}
    (h : Ring m stop (l₁ ++ b :: l₂)) : HdrIs m b (nextAddr stop l₂) :=
  (ring_append.mp h).2.1

section Rep

variable {fresh : Nat} {s : Heap} {l : List Blk} {live : List (Nat × Nat)}

theorem Rep.fin_le (h : Rep fresh s l live) {b : Blk} (hb : b ∈ l) : b.fin ≤ 0xFFC00000 := by
  have := (h.wf.tiles.bounds Blk.addr_lt_fin hb).2
  have := h.bound
  omega

theorem Rep.hdr (h : Rep fresh s l live) {b : Blk} (hb : b ∈ l) : ∃ nx, HdrIs s.mem b nx := by
  obtain ⟨l₁, l₂, rfl⟩ := List.append_of_mem hb
  exact ⟨_, h.ring.hdr⟩

theorem Rep.addr_nodup (h : Rep fresh s l live) : (l.map Blk.addr).Nodup :=
  (h.wf.tiles.nodup Blk.addr_lt_fin).map_on fun _ ha _ hb => h.wf.inj ha hb

theorem Rep.length_le (h : Rep fresh s l live) : l.length ≤ 2 ^ 32 := by
  have hsub : l.map Blk.addr ⊆ List.range (2 ^ 32) := by
    intro x hx
    obtain ⟨b, hb, rfl⟩ := List.mem_map.mp hx
    have := h.fin_le hb
    have := b.addr_lt_fin
    rw [List.mem_range]
    omega
  have := (List.subperm_of_subset h.addr_nodup hsub).length_le
  simpa using this

theorem Rep.addr_ne_head {b : Blk} {t : List Blk} (h : Rep fresh s (b :: t) live) :
    ∀ c ∈ t, c.addr ≠ b.addr := by
  intro c hc he
  have hnd := h.addr_nodup
  rw [List.map_cons, List.nodup_cons, ← he] at hnd
  exact hnd.1 (List.mem_map_of_mem hc)

theorem Rep.search (h : Rep fresh s l live) (sz : Nat) :
    searchLoop s.mem sz s.kernHeap (2 ^ 32) s.kernHeap =
      some (match l.find? (Blk.fits sz) with | some c => c.addr | none => s.kernHeap) := by
  obtain ⟨b, t, rfl, hb⟩ := h.head
  have hlen := h.length_le
  rw [List.length_cons] at hlen
  have hring := h.ring
  rw [← hb] at hring ⊢
  exact searchLoop_eq sz hring h.addr_ne_head (by omega)

theorem Rep.fits_found (h : Rep fresh s l live) {sz : Nat} {b : Blk}
    (hfind : l.find? (Blk.fits sz) = some b) : fits s.mem sz b.addr = true := by
  obtain ⟨nx, hhdr⟩ := h.hdr (List.mem_of_find?_eq_some hfind)
  rw [hhdr.fits]
  exact List.find?_some hfind

theorem Rep.fits_head (h : Rep fresh s l live) {sz : Nat} (hfind : l.find? (Blk.fits sz) = none) :
    fits s.mem sz s.kernHeap = false := by
  obtain ⟨b, t, rfl, hb⟩ := h.head
  rw [← hb, h.ring.1.fits]
  simpa using List.find?_eq_none.mp hfind b (by simp)

theorem Rep.others {l₁ l₂ : List Blk} {b c : Blk} (h : Rep fresh s (l₁ ++ b :: l₂) live)
    (hc : c ∈ l₁ ++ l₂) : c.fin ≤ 2 ^ 32 ∧ Apart Blk.addr Blk.fin c b := by
  have hmem : c ∈ l₁ ++ b :: l₂ := by
    simp only [List.mem_append, List.mem_cons] at hc ⊢; tauto
  have hne : c ≠ b := by
    rintro rfl
    have := h.wf.tiles.nodup Blk.addr_lt_fin
    rw [List.nodup_append, List.nodup_cons] at this
    rcases List.mem_append.mp hc with hc | hc
    · exact this.2.2 c hc c (by simp) rfl
    · exact this.2.1.1 hc
  have := h.fin_le hmem
  exact ⟨by omega, h.wf.tiles.apart_of_ne hmem (by simp) hne⟩

/-! ## Taking a block -/

theorem nextAddr_take {b : Blk} {sz : Nat} (magic : Bool) (stop : Nat) :
    nextAddr stop (b.take sz magic) = b.addr := by
  unfold Blk.take
  split <;> rfl

theorem takeBlock_ring {m : Mem} {stop sz : Nat} {l₂ : List Blk} {b : Blk}
    (hb : HdrIs m b (nextAddr stop l₂)) (hfin : b.fin ≤ 2 ^ 32) :
    Ring (takeBlock m sz b.addr) (nextAddr stop l₂)
      (b.take sz (hasMagic m (b.addr + hdrSz + sz))) := by
  unfold Blk.take
  split
  · rename_i hc
    obtain ⟨h1, h2, _⟩ := takeBlock_split hb hfin hc
    exact ⟨h1, h2, trivial⟩
  · rename_i hc
    obtain ⟨h1, _⟩ := takeBlock_whole hb hfin (Nat.not_lt.mp hc)
    exact ⟨h1, trivial⟩

theorem takeBlock_other {m : Mem} {sz nx : Nat} {b : Blk} (hb : HdrIs m b nx) (hfin : b.fin ≤ 2 ^ 32)
    {x : Nat} (hx : x < b.addr ∨ b.fin ≤ x) : takeBlock m sz b.addr x = m x := by
  by_cases hc : b.size - sz > hdrSz
  · obtain ⟨_, _, h⟩ := takeBlock_split hb hfin hc
    unfold Blk.fin at hx
    exact h x (by omega) (by omega)
  · obtain ⟨_, h⟩ := takeBlock_whole hb hfin (Nat.not_lt.mp hc)
    unfold Blk.fin at hx
    exact h x (by omega) (by omega)

theorem Rep.take {l₁ l₂ : List Blk} {b : Blk} (h : Rep b.addr s (l₁ ++ b :: l₂) live)
    (hb : b.used = false) {sz req : Nat} (hsz : sz ≤ b.size) (hpage : sz ≤ 4096 - hdrSz)
    (hreq : req ≤ sz) :
    Rep 0 { s with mem := takeBlock s.mem sz b.addr }
      (l₁ ++ b.take sz (hasMagic s.mem (b.addr + hdrSz + sz)) ++ l₂)
      ((b.addr + hdrSz, req) :: live) := by
  have hbfin := h.fin_le (b := b) (by simp)
  have hhdr := h.ring.hdr
  refine ⟨h.wf.take hb hsz hpage hreq _, ?_, ?_, h.bound, h.vm⟩
  · have hring := h.ring
    rw [show l₁ ++ b :: l₂ = l₁ ++ [b] ++ l₂ by simp] at hring
    refine hring.replace (fun c hc => ?_) (takeBlock_ring hhdr (by omega)) (nextAddr_take _ _)
    obtain ⟨hcfin, hap⟩ := h.others hc
    refine ⟨hcfin, fun x hx1 hx2 => takeBlock_other hhdr (by omega) ?_⟩
    unfold Apart Blk.fin at hap
    unfold Blk.fin
    omega
  · obtain ⟨c, t, heq, hc⟩ := h.head
    obtain ⟨d, r, htake, _, hd, _⟩ := Blk.take_eq hsz (hasMagic s.mem (b.addr + hdrSz + sz))
    rw [htake]
    cases l₁ with
    | nil =>
      simp only [List.nil_append, List.cons.injEq] at heq
      exact ⟨d, r ++ l₂, by simp, by rw [hd, heq.1, hc]⟩
    | cons a l₁ =>
      simp only [List.cons_append, List.cons.injEq] at heq
      exact ⟨a, l₁ ++ d :: r ++ l₂, by simp, by rw [heq.1, hc]⟩

/-! ## `heap_malloc` -/

theorem roundSz_eq {sz : Nat} (h : sz ≤ 4096) : roundSz sz = sz + sz % 4 := by
  unfold roundSz; omega

theorem Rep.mallocLoop_found (h : Rep fresh s l live) {sz : Nat} (hsz : roundSz sz ≤ 4096 - hdrSz)
    {b : Blk} (hfind : l.find? (Blk.fits (roundSz sz)) = some b) (n : Nat) :
    mallocLoop (n + 1) s sz =
      .ok (b.addr + hdrSz, { s with mem := takeBlock s.mem (roundSz sz) b.addr }) := by
  have hfin := h.fin_le (List.mem_of_find?_eq_some hfind)
  have h32 : (b.addr + hdrSz) % 2 ^ 32 = b.addr + hdrSz := by
    unfold Blk.fin at hfin; omega
  have hsearch := h.search (roundSz sz)
  rw [hfind] at hsearch
  simp only [mallocLoop, if_neg (Nat.not_lt.mpr hsz), hsearch, h.fits_found hfind, if_true, h32]

/-- An allocation that finds none grows the heap after the first block and starts again. -/
theorem Rep.mallocLoop_none (h : Rep fresh s l live) {sz : Nat} (hsz : roundSz sz ≤ 4096 - hdrSz)
    (hfind : l.find? (Blk.fits (roundSz sz)) = none) (n : Nat) :
    mallocLoop (n + 1) s sz = (match s.heapGetNewBlock s.kernHeap with
      | .error e => .error e
      | .ok (_, s) => mallocLoop n s (roundSz sz)) := by
  have hsearch := h.search (roundSz sz)
  rw [hfind] at hsearch
  rw [mallocLoop, if_neg (Nat.not_lt.mpr hsz), hsearch]
  dsimp only
  rw [h.fits_head hfind]
  rfl

theorem mallocLoop_big {s : Heap} {sz : Nat} (h : roundSz sz > 4096 - hdrSz) (n : Nat) :
    mallocLoop (n + 1) s sz = .error (.panic "We don't have memory pages that big\n") := by
  simp only [mallocLoop, if_pos h]

/-- A heap in which nothing fits has a used first and a used second block. -/
theorem Wf.used_of_find?_none {n sz : Nat} {b : Blk} {t : List Blk} (h : Wf 0 n (b :: t) live)
    (hsz : sz ≤ 4096 - hdrSz) (hfind : (b :: t).find? (Blk.fits sz) = none) :
    b.used = true ∧ ∀ y ∈ t.head?, y.used = true := by
  have hno : ∀ x ∈ b :: t, x.used = false → ¬ sz ≤ x.size := by
    intro x hx hu hle
    have := List.find?_eq_none.mp hfind x hx
    simp [Blk.fits, hu, hle] at this
  constructor
  · rcases h.head b t rfl with hu | ⟨_, hfull⟩
    · exact hu
    · by_contra hu
      have := hno b (by simp) (by simpa using hu)
      rw [hfull] at this
      simp only [hdrSz, heapBlocks] at hsz this
      omega
  · intro y hy
    cases t with
    | nil => cases hy
    | cons z t =>
      cases hy
      by_contra hu
      have hu : y.used = false := by simpa using hu
      have := hno y (by simp) hu
      have := h.second b y t rfl hu
      omega

/-- What growth leaves: the new region in second place. -/
theorem Rep.grow {b : Blk} {t : List Blk} (h : Rep 0 s (b :: t) live) (hb : b.used = true)
    (hnext : ∀ y ∈ t.head?, y.used = true) (hf : GetsFrames heapBlocks s) {ret : Nat} {s' : Heap}
    (hnew : s.heapGetNewBlock s.kernHeap = .ok (ret, s')) :
    ret = heapStart + 4096 * s.blocksAllocked ∧ s'.blocksAllocked = s.blocksAllocked + heapBlocks ∧
      s'.kernHeap = s.kernHeap ∧ s'.mem = initBlock s.mem ret b.addr ∧
      Rep ret s' (b :: newBlk ret b.addr :: t) live := by
  have hk : b.addr = s.kernHeap := by
    obtain ⟨c, u, heq, hc⟩ := h.head
    cases heq
    exact hc
  have h0 := h.wf.addr_ne_zero (b := b) (by simp)
  have hbound := h.bound
  have hret : s.nextPage = heapStart + 4096 * s.blocksAllocked := by unfold nextPage; omega
  obtain ⟨A, hv⟩ := h.vm
  simp only [heapGetNewBlock, bind, Except.bind] at hnew
  split at hnew
  · cases hnew
  · rename_i s1 hloop
    obtain ⟨v, A', rfl, hv', hb', _⟩ := mapLoop_spec hv hbound hf hloop
    cases hnew
    rw [hret, ← hk]
    have hwf := h.wf.grow hb hnext
    have hbfin := (h.wf.tiles.bounds Blk.addr_lt_fin (a := b) (by simp)).2
    have hin : heapStart + 4096 * s.blocksAllocked + hdrSz ≤ 2 ^ 32 := by unfold hdrSz; omega
    obtain ⟨h1, h2, h3⟩ := initBlock_after h.ring.1 h0 hbfin hin
    refine ⟨rfl, rfl, hk.symm, rfl, ⟨hwf, ?_, ⟨b, _, rfl, hk⟩, hb', ⟨A', hv'⟩⟩⟩
    have hring : Ring s.mem s.kernHeap ([] ++ [b] ++ t) := h.ring
    have hrep : Rep 0 s ([] ++ b :: t) live := h
    show Ring _ _ ([] ++ [b, newBlk (heapStart + 4096 * s.blocksAllocked) b.addr] ++ t)
    refine hring.replace (fun c hc => ?_) ⟨h1, h2, trivial⟩ rfl
    obtain ⟨hcfin, hap⟩ := hrep.others hc
    have hcb := (h.wf.tiles.bounds Blk.addr_lt_fin (a := c) (by
      simp only [List.nil_append] at hc; simp [hc])).2
    refine ⟨hcfin, fun x hx1 hx2 => h3 x ?_ ?_⟩
    · unfold Apart Blk.fin at hap
      omega
    · unfold Blk.fin at hcb
      omega

theorem newBlk_fits {sz : Nat} (hsz : sz ≤ 4096 - hdrSz) (ret prev : Nat) :
    (newBlk ret prev).fits sz = true := by
  have : sz ≤ 4096 * heapBlocks - hdrSz := by unfold heapBlocks; omega
  simp [newBlk, Blk.fits, this]

theorem find?_newBlk {b : Blk} (hb : b.used = true) {sz : Nat} (hsz : sz ≤ 4096 - hdrSz) (ret : Nat)
    (t : List Blk) :
    (b :: newBlk ret b.addr :: t).find? (Blk.fits sz) = some (newBlk ret b.addr) := by
  rw [List.find?_cons_of_neg (by simp [Blk.fits, hb]),
    List.find?_cons_of_pos (newBlk_fits hsz ret b.addr)]

/-- Rounding twice, as the call to itself does, stays within a page. -/
theorem roundSz_roundSz {sz : Nat} (h : roundSz sz ≤ 4096 - hdrSz) :
    roundSz sz ≤ roundSz (roundSz sz) ∧ roundSz (roundSz sz) ≤ 4096 - hdrSz := by
  have hle : roundSz sz ≤ 4096 := by unfold hdrSz at h; omega
  rw [roundSz_eq hle]
  unfold hdrSz roundSz at *
  omega

/-- An allocation that returns without a block that fits has taken the region that was added. -/
theorem Rep.heapMalloc_grown {b : Blk} {t : List Blk} (h : Rep 0 s (b :: t) live) {sz p : Nat}
    {s' : Heap} (hsz : roundSz sz ≤ 4096 - hdrSz)
    (hfind : (b :: t).find? (Blk.fits (roundSz sz)) = none) (hf : GetsFrames heapBlocks s)
    (hret : s.heapMalloc sz = .ok (p, s')) :
    ∃ s₁ ret, ret = heapStart + 4096 * s.blocksAllocked ∧
      s.heapGetNewBlock s.kernHeap = .ok (ret, s₁) ∧ s₁.kernHeap = s.kernHeap ∧
      s₁.blocksAllocked = s.blocksAllocked + heapBlocks ∧ s₁.mem = initBlock s.mem ret b.addr ∧
      Rep ret s₁ (b :: newBlk ret b.addr :: t) live ∧ p = ret + hdrSz ∧
      s' = { s₁ with mem := takeBlock s₁.mem (roundSz (roundSz sz)) ret } := by
  obtain ⟨hb, hnext⟩ := h.wf.used_of_find?_none hsz hfind
  obtain ⟨hround, hround2⟩ := roundSz_roundSz hsz
  rw [heapMalloc, h.mallocLoop_none hsz hfind] at hret
  split at hret
  · cases hret
  · rename_i ret s₁ hnew
    obtain ⟨hr, hblocks, hkern, hmem, hrep⟩ := h.grow hb hnext hf hnew
    rw [hrep.mallocLoop_found hround2 (find?_newBlk hb hround2 ret t)] at hret
    cases hret
    exact ⟨s₁, ret, hr, hnew, hkern, hblocks, hmem, hrep, rfl, rfl⟩

/-- The search for `sz` bytes ends without a block, so that the heap has to grow. -/
def needsBlock (s : Heap) (sz : Nat) : Bool :=
  match searchLoop s.mem sz s.kernHeap (2 ^ 32) s.kernHeap with
  | some it => !fits s.mem sz it
  | none => false

/-- Whether the header that `heap_malloc(sz)` will split off carries the magic values, judging by
what the memory holds at that place before the call; `true` if nothing is split off. -/
def restMagic (s : Heap) (sz : Nat) : Bool :=
  if needsBlock s (roundSz sz) then hasMagic s.mem (s.nextPage + hdrSz + roundSz (roundSz sz))
  else
    match searchLoop s.mem (roundSz sz) s.kernHeap (2 ^ 32) s.kernHeap with
    | some it =>
      !decide (size s.mem it - roundSz sz > hdrSz) || hasMagic s.mem (it + hdrSz + roundSz sz)
    | none => true

theorem Rep.needsBlock_iff (h : Rep fresh s l live) (sz : Nat) :
    needsBlock s sz = true ↔ l.find? (Blk.fits sz) = none := by
  rw [needsBlock, h.search]
  cases hfind : l.find? (Blk.fits sz) with
  | some c => simp [h.fits_found hfind]
  | none => simp [h.fits_head hfind]

/-- Where a block fits, the header that is split off from it will stand behind its part. -/
theorem Rep.restMagic_found (h : Rep fresh s l live) {sz : Nat} {c : Blk}
    (hfind : l.find? (Blk.fits (roundSz sz)) = some c) : needsBlock s (roundSz sz) = false ∧
      restMagic s sz = (!decide (c.size - roundSz sz > hdrSz) ||
        hasMagic s.mem (c.addr + hdrSz + roundSz sz)) := by
  have hneeds : needsBlock s (roundSz sz) = false := by
    rw [← Bool.not_eq_true, h.needsBlock_iff, hfind]
    simp
  have hsearch := h.search (roundSz sz)
  rw [hfind] at hsearch
  obtain ⟨nx, hhdr⟩ := h.hdr (List.mem_of_find?_eq_some hfind)
  refine ⟨hneeds, ?_⟩
  rw [restMagic, hneeds, hsearch]
  simp [hhdr.size]

theorem hasMagic_congr {m m' : Mem} {a : Nat} (ha : a + hdrSz ≤ 2 ^ 32)
    (hm : ∀ x, a ≤ x → x < a + hdrSz → m' x = m x) : hasMagic m' a = hasMagic m a := by
  unfold hdrSz at ha hm
  rw [hasMagic, hasMagic, magic1, magic1, magic2, magic2,
    Bytes.rd_congr (by omega) fun x h1 h2 => hm x (by omega) (by omega),
    Bytes.rd_congr (by omega) fun x h1 h2 => hm x (by omega) (by omega)]

/-- Where an allocation of `sz` bytes, already rounded, gets its block from: out of the ring
`l₁ ++ c :: l₂` of the heap `s₁` it takes `r` bytes of `c`. -/
inductive Picks (s : Heap) (sz : Nat) (l : List Blk) :
    Heap → List Blk → Blk → List Blk → Nat → Prop where
  /-- The first block that fits. -/
  | found {l₁ l₂ : List Blk} {c : Blk} : l = l₁ ++ c :: l₂ → l.find? (Blk.fits sz) = some c →
      Picks s sz l s l₁ c l₂ sz
  /-- The new region in second place, for a size that is rounded again. -/
  | grown {s₁ : Heap} {b : Blk} {t : List Blk} : l = b :: t → l.find? (Blk.fits sz) = none →
      GetsFrames heapBlocks s →
      s.heapGetNewBlock s.kernHeap = .ok (heapStart + 4096 * s.blocksAllocked, s₁) →
      s₁.kernHeap = s.kernHeap → s₁.blocksAllocked = s.blocksAllocked + heapBlocks →
      Picks s sz l s₁ [b] (newBlk (heapStart + 4096 * s.blocksAllocked) b.addr) t (roundSz sz)

/-- Every allocation that returns takes an unused block that is large enough. -/
theorem Rep.heapMalloc_picks (h : Rep 0 s l live) {sz p : Nat} {s' : Heap}
    (hf : roundSz sz ≤ 4096 - hdrSz → needsBlock s (roundSz sz) = true → GetsFrames heapBlocks s)
    (hret : s.heapMalloc sz = .ok (p, s')) :
    ∃ s₁ l₁ c l₂ r, Rep c.addr s₁ (l₁ ++ c :: l₂) live ∧ Picks s (roundSz sz) l s₁ l₁ c l₂ r ∧
      c.used = false ∧ r ≤ c.size ∧ r ≤ 4096 - hdrSz ∧ roundSz sz ≤ r ∧ p = c.addr + hdrSz ∧
      s' = { s₁ with mem := takeBlock s₁.mem r c.addr } ∧
      (c.size - r > hdrSz → hasMagic s₁.mem (c.addr + hdrSz + r) = restMagic s sz) := by
  by_cases hbig : roundSz sz > 4096 - hdrSz
  · rw [heapMalloc, mallocLoop_big hbig] at hret
    cases hret
  have hbig := Nat.not_lt.mp hbig
  cases hfind : l.find? (Blk.fits (roundSz sz)) with
  | some c =>
    obtain ⟨_, hrest⟩ := h.restMagic_found hfind
    obtain ⟨l₁, l₂, rfl⟩ := List.append_of_mem (List.mem_of_find?_eq_some hfind)
    have hfits : c.fits (roundSz sz) = true := List.find?_some hfind
    simp only [Blk.fits, Bool.and_eq_true, Bool.not_eq_true', decide_eq_true_eq] at hfits
    rw [heapMalloc, h.mallocLoop_found hbig hfind] at hret
    cases hret
    refine ⟨s, l₁, c, l₂, roundSz sz, h.weaken, .found rfl hfind, hfits.1, hfits.2, hbig,
      Nat.le_refl _, rfl, rfl, fun hsplit => ?_⟩
    rw [hrest, decide_eq_true hsplit]
    rfl
  | none =>
    have hneeds := (h.needsBlock_iff _).mpr hfind
    obtain ⟨b, t, rfl, _⟩ := h.head
    obtain ⟨s₁, ret, rfl, hnew, hkern, hblocks, hmem, hrep, rfl, rfl⟩ :=
      h.heapMalloc_grown hbig hfind (hf hbig hneeds) hret
    obtain ⟨hround, hround2⟩ := roundSz_roundSz hbig
    have hfits := newBlk_fits hround2 (heapStart + 4096 * s.blocksAllocked) b.addr
    simp only [Blk.fits, Bool.and_eq_true, Bool.not_eq_true', decide_eq_true_eq] at hfits
    refine ⟨s₁, [b], newBlk _ b.addr, t, _, hrep, .grown rfl hfind (hf hbig hneeds) hnew hkern hblocks, rfl,
      hfits.2, hround2, hround, rfl, rfl, fun _ => ?_⟩
    -- the new region's header is written in front of the place
    have hbound := h.bound
    have hfin := hrep.fin_le (b := newBlk (heapStart + 4096 * s.blocksAllocked) b.addr) (by simp)
    rw [newBlk_fin] at hfin
    have hpage : s.nextPage = heapStart + 4096 * s.blocksAllocked := by unfold nextPage; omega
    have hbfin := (h.wf.tiles.bounds Blk.addr_lt_fin (a := b) (by simp)).2
    obtain ⟨_, _, hsame⟩ := initBlock_after h.ring.1 (h.wf.addr_ne_zero (by simp)) hbfin
      (by unfold heapBlocks at hfin; unfold hdrSz; omega)
    show hasMagic s₁.mem (heapStart + 4096 * s.blocksAllocked + hdrSz + roundSz (roundSz sz)) =
      restMagic s sz
    rw [restMagic, if_pos hneeds, hpage, hmem]
    have hin : heapStart + 4096 * s.blocksAllocked + hdrSz + roundSz (roundSz sz) + hdrSz ≤ 2 ^ 32 := by
      unfold heapBlocks at hfin; unfold hdrSz at hround2 ⊢; omega
    refine hasMagic_congr hin fun x hx1 hx2 => hsame x (.inr ?_) (.inr ?_)
    · unfold Blk.fin at hbfin; omega
    · omega

/-- An allocation returns if the heap can grow when it has to. -/
theorem Rep.heapMalloc_returns (h : Rep 0 s l live) {sz : Nat} (hsz : roundSz sz ≤ 4096 - hdrSz)
    (hf : GetsFrames heapBlocks s)
    (hnew : ∃ ret s₁, s.heapGetNewBlock s.kernHeap = .ok (ret, s₁)) :
    ∃ p s', s.heapMalloc sz = .ok (p, s') := by
  cases hfind : l.find? (Blk.fits (roundSz sz)) with
  | some c => exact ⟨_, _, h.mallocLoop_found hsz hfind 1024⟩
  | none =>
    obtain ⟨b, t, rfl, _⟩ := h.head
    obtain ⟨ret, s₁, hnew⟩ := hnew
    obtain ⟨hb, hnext⟩ := h.wf.used_of_find?_none hsz hfind
    obtain ⟨_, _, _, _, hrep⟩ := h.grow hb hnext hf hnew
    obtain ⟨_, hround⟩ := roundSz_roundSz hsz
    rw [heapMalloc, h.mallocLoop_none hsz hfind, hnew]
    exact ⟨_, _, hrep.mallocLoop_found hround (find?_newBlk hb hround ret t) 1023⟩

/-! ## `heap_init` -/

theorem heapInit_eq (s : Heap) : s.heapInit =
    (match mapLoop heapBlocks { s with blocksAllocked := 0 } with
    | .error e => .error e
    | .ok s₁ => .ok { s₁ with mem := initBlock s₁.mem heapStart 0, kernHeap := heapStart }) := by
  have hpage : nextPage { s with blocksAllocked := 0 } = heapStart := by
    simp only [nextPage, Nat.zero_mul, Nat.add_zero]; decide
  rw [heapInit]
  simp only [heapGetNewBlock, hpage, bind, Except.bind]
  generalize mapLoop heapBlocks { s with blocksAllocked := 0 } = r
  cases r <;> rfl

theorem initBlock_ring (m : Mem) :
    Ring (initBlock m heapStart 0) heapStart [newBlk heapStart heapStart] := by
  have h := (initBlock_first m (show heapStart + hdrSz ≤ 2 ^ 32 by decide)).1
  refine ⟨?_, trivial⟩
  exact h

theorem Rep.first (m : Mem) {v : Vmm} {A : PageMap} (hv : VmOk v A) :
    Rep 0 ⟨v, initBlock m heapStart 0, heapStart, heapBlocks⟩ [newBlk heapStart heapStart] [] := by
  have hbound : heapStart + 4096 * heapBlocks ≤ 0xFFC00000 := by decide
  refine ⟨?_, ?_, ?_, ?_, ?_⟩
  · exact Wf.first
  · exact initBlock_ring m
  · refine ⟨newBlk heapStart heapStart, [], ?_, ?_⟩
    · rfl
    · rfl
  · exact hbound
  · exact ⟨A, hv⟩

theorem heapInit_rep {s s₀ : Heap} {A : PageMap} (hv : VmOk s.vm A)
    (hf : GetsFrames heapBlocks { s with blocksAllocked := 0 }) (h : s.heapInit = .ok s₀) :
    ∃ v A', s₀ = ⟨v, initBlock s.mem heapStart 0, heapStart, heapBlocks⟩ ∧ VmOk v A' ∧
      Adds A A' (heapStart / kb4) heapBlocks := by
  rw [heapInit_eq] at h
  split at h
  · cases h
  · rename_i s₁ hloop
    obtain ⟨v, A', rfl, hv', _, hadds⟩ := mapLoop_spec (s := { s with blocksAllocked := 0 }) hv
      (by simp only [Nat.mul_zero]; decide) hf hloop
    have h := Except.ok.inj h
    simp only [grown, Nat.zero_add] at h
    have hadds : Adds A A' (heapStart / kb4 + 0) heapBlocks := hadds
    rw [Nat.add_zero] at hadds
    exact ⟨v, A', h.symm, hv', hadds⟩

theorem heapInit_ok {s : Heap} {A : PageMap} (hv : VmOk s.vm A)
    (hf : GetsFrames heapBlocks { s with blocksAllocked := 0 })
    (hA : ∀ p, heapStart / kb4 ≤ p → A p = none) :
    ∃ v A', s.heapInit = .ok ⟨v, initBlock s.mem heapStart 0, heapStart, heapBlocks⟩ ∧ VmOk v A' := by
  have hbound : heapStart + 4096 * (0 + heapBlocks) ≤ 0xFFC00000 := by decide
  have hA' : ∀ p, heapStart / kb4 + 0 ≤ p → A p = none := fun p hp => hA p hp
  obtain ⟨v, A', hloop, hv', _⟩ := mapLoop_ok (s := { s with blocksAllocked := 0 }) hv hbound hf hA'
  refine ⟨v, A', ?_, hv'⟩
  have hgrown : grown { s with blocksAllocked := 0 } v heapBlocks =
      ⟨v, s.mem, s.kernHeap, heapBlocks⟩ := by
    simp only [grown, Nat.zero_add]
  rw [heapInit_eq, hloop, hgrown]

/-! ## `heap_free` -/

theorem Rep.absorb {l₁ l₂ : List Blk} {b c : Blk} (h : Rep 0 s (l₁ ++ b :: c :: l₂) live)
    (hb : b.used = true) (hc : c.used = false) :
    Rep 0 { s with mem := absorbNext s.mem b.addr } (l₁ ++ b.absorb c :: l₂) live := by
  have hbfin := h.fin_le (b := b) (by simp)
  have hcfin := h.fin_le (b := c) (by simp)
  have hadj := h.wf.adjacent hc
  have hsz : b.size + hdrSz + c.size < 2 ^ 32 := by
    unfold Blk.fin at hadj hcfin; omega
  have hring : Ring s.mem s.kernHeap (l₁ ++ [b, c] ++ l₂) := by
    have := h.ring
    rwa [show l₁ ++ b :: c :: l₂ = l₁ ++ [b, c] ++ l₂ by simp] at this
  have hparts := (ring_append.mp h.ring).2
  obtain ⟨h1, h2⟩ := absorbNext_hdr hparts.1 hparts.2.1 (by omega) (by omega) (.inl hadj.le)
    (h.wf.prev_ne_next hb hc) hsz
  refine ⟨h.wf.absorb hb hc, ?_, ?_, h.bound, h.vm⟩
  · dsimp only
    rw [show l₁ ++ b.absorb c :: l₂ = l₁ ++ [b.absorb c] ++ l₂ by simp]
    have hmid : Ring (absorbNext s.mem b.addr) (nextAddr s.kernHeap l₂) [b.absorb c] := ⟨h1, trivial⟩
    refine hring.replace (fun d hd => ?_) hmid rfl
    have hd' : d ∈ l₁ ++ c :: l₂ := by
      simp only [List.mem_append, List.mem_cons] at hd ⊢; tauto
    obtain ⟨hdfin, hap⟩ := h.others hd'
    refine ⟨hdfin, fun x hx1 hx2 => ?_⟩
    have hx : x < b.addr ∨ b.addr + hdrSz ≤ x := by
      unfold Apart Blk.fin at hap
      omega
    exact h2 x hx hx
  · obtain ⟨d, t, heq, hd⟩ := h.head
    cases l₁ with
    | nil =>
      simp only [List.nil_append, List.cons.injEq] at heq
      exact ⟨_, l₂, rfl, by rw [← hd, ← heq.1]; rfl⟩
    | cons a l₁ =>
      simp only [List.cons_append, List.cons.injEq] at heq
      exact ⟨a, _, rfl, by rw [← hd, heq.1]⟩

/-- The merge with the previous block never happens: a previous pointer is the block itself or
a used block. -/
theorem Rep.mergePrev {b : Blk} (h : Rep 0 s l live) (hb : b ∈ l) :
    Heap.mergePrev s.mem b.addr = (s.mem, b.addr) := by
  obtain ⟨nx, hhdr⟩ := h.hdr hb
  rw [Heap.mergePrev, if_neg]
  rw [hhdr.prev]
  rintro ⟨hne, hu, _⟩
  rcases h.wf.prev b hb with he | ⟨c, hc, hcu, he⟩
  · exact hne he
  · obtain ⟨nx', hc'⟩ := h.hdr hc
    rw [← he, hc'.used, hcu] at hu
    simp at hu

/-- Releasing a used block. Without the magic values the kernel panics; else the next block is
merged if it is unused. -/
theorem Rep.heapFree_cases {l₁ l₂ : List Blk} {b : Blk} (h : Rep 0 s (l₁ ++ b :: l₂) live)
    (hb : b.used = true) :
    (b.magic = false ∧
        s.heapFree (b.addr + hdrSz) = .error (.panic "Heap magic value does not fit.\n")) ∨
      (b.magic = true ∧ (∀ c ∈ l₂.head?, c.used = true) ∧ s.heapFree (b.addr + hdrSz) = .ok s) ∨
      (b.magic = true ∧ ∃ c l₃, l₂ = c :: l₃ ∧ c.used = false ∧
        s.heapFree (b.addr + hdrSz) = .ok { s with mem := absorbNext s.mem b.addr }) := by
  have hmem : b ∈ l₁ ++ b :: l₂ := by simp
  have hbfin := h.fin_le hmem
  have hhdr := h.ring.hdr
  have hfree : (b.addr + hdrSz + 2 ^ 32 - hdrSz) % 2 ^ 32 = b.addr := by
    unfold Blk.fin at hbfin; omega
  cases hm : b.magic with
  | false =>
    refine .inl ⟨rfl, ?_⟩
    rw [heapFree, hfree, hhdr.magic, hm, if_pos (.inr rfl)]
  | true =>
    have hrun : s.heapFree (b.addr + hdrSz) = .ok { s with mem := mergeNext s.mem b.addr } := by
      rw [heapFree, hfree, hhdr.magic, hhdr.used, hm, if_neg (by simp [hb]), h.mergePrev hmem]
    cases l₂ with
    | nil =>
      -- the next block is the first one, which is `b` itself or used
      refine .inr (.inl ⟨rfl, fun c hc => (by simp at hc), ?_⟩)
      rw [hrun, mergeNext, if_neg]
      rintro ⟨hne, hu⟩
      rw [hhdr.next] at hne hu
      obtain ⟨d, t, heq, hd⟩ := h.head
      have hdm : d ∈ l₁ ++ [b] := by rw [heq]; simp
      obtain ⟨nx', hd'⟩ := h.hdr hdm
      simp only [nextAddr, ← hd] at hne hu
      rw [hd'.used] at hu
      rcases h.wf.head d t heq with hdu | ⟨rfl, _⟩
      · rw [hdu] at hu; simp at hu
      · have : b = d := by
          have hb' := hmem
          rw [heq] at hb'
          simpa using hb'
        exact hne (by rw [this])
    | cons c l₃ =>
      have hc' : HdrIs s.mem c (nextAddr s.kernHeap l₃) := (ring_append.mp h.ring).2.2.1
      have hnext : next s.mem b.addr = c.addr := hhdr.next
      have hne : c.addr ≠ b.addr := by
        intro he
        have hcb := h.wf.inj (a := c) (b := b) (by simp) (by simp) he
        have := h.wf.tiles.nodup Blk.addr_lt_fin
        rw [List.nodup_append, List.nodup_cons, hcb] at this
        exact this.2.1.1 (by simp)
      cases hcu : c.used with
      | true =>
        refine .inr (.inl ⟨rfl, fun d hd => by cases hd; exact hcu, ?_⟩)
        rw [hrun, mergeNext, hnext, if_neg]
        rintro ⟨_, hu⟩
        rw [hc'.used, hcu] at hu
        simp at hu
      | false =>
        refine .inr (.inr ⟨rfl, c, l₃, rfl, hcu, ?_⟩)
        rw [hrun, mergeNext, hnext, if_pos ⟨hne, by rw [hc'.used, hcu]; rfl⟩]

/-! ## Callers -/

/-- A caller that writes to its own payload changes no header. -/
theorem Rep.write (h : Rep fresh s l live) {p : Nat × Nat} (hp : p ∈ live) {a : Nat}
    (ha1 : p.1 ≤ a) (ha2 : a < p.1 + p.2) (v : Byte) :
    Rep fresh { s with mem := Function.update s.mem a v } l live := by
  obtain ⟨b, hb, _, hp1, hp2⟩ := h.wf.holds p hp
  refine ⟨h.wf, ?_, h.head, h.bound, h.vm⟩
  refine h.ring.congr fun c hc => ⟨by have := h.fin_le hc; omega, fun x hx1 hx2 => ?_⟩
  show Function.update s.mem a v x = s.mem x
  rw [Function.update_of_ne]
  rintro rfl
  by_cases hcb : c = b
  · subst hcb
    omega
  · have hap := h.wf.tiles.apart_of_ne hc hb hcb
    unfold Apart Blk.fin at hap
    omega

end Rep

end Heap
end Frod
