import Frod.Heap.Backed

/-!
# Frod.Heap.Admit

Which sizes `heap_malloc` admits.

The size is rounded with `sz += sz % 4` before it is compared with the limit, in 32 bits. This is not
rounding up to a multiple of 4: it takes 4079 past the limit of 4080, although 4080 bytes are given
out, and the two largest sizes around to 2 and to 0. `admits_iff`: these three are all. The second
rounding, in the call of `heap_malloc` to itself after the heap has grown, does no harm
(`roundSz_roundSz`).
-/

namespace Frod
namespace Heap

open Vmm (PageMap)

/-- `heap_malloc(sz)` panics over the size exactly if it is too large, and else returns a block that
holds it. -/
structure Admits (s : Heap) (sz : Nat) : Prop where
  panics : s.heapMalloc sz = .error (.panic "We don't have memory pages that big\n") ↔
    4096 - hdrSz < sz
  returns : sz ≤ 4096 - hdrSz →
    ∃ p s', s.heapMalloc sz = .ok (p, s') ∧ sz ≤ size s'.mem (p - hdrSz)

/-- The sizes that rounding takes across the limit, one upwards and two downwards. -/
theorem roundSz_crosses {sz : Nat} (h32 : sz < 2 ^ 32) :
    (4096 - hdrSz < roundSz sz ↔ 4096 - hdrSz < sz) ↔
      sz ≠ 4079 ∧ sz ≠ 2 ^ 32 - 2 ∧ sz ≠ 2 ^ 32 - 1 := by
  unfold roundSz hdrSz
  omega

theorem le_roundSz {sz : Nat} (h : sz ≤ 4096 - hdrSz) : sz ≤ roundSz sz := by
  rw [roundSz_eq (h.trans (by decide))]
  exact Nat.le_add_right sz _

section Admit

variable {s : Heap} {l : List Blk} {live : List (Nat × Nat)} {sz : Nat} (h : Rep 0 s l live)
  (hroom : needsBlock s (roundSz sz) = true → Unmapped s ∧ Enough s)
include h hroom

/-- When the heap has to grow it gets its frames and does grow. -/
theorem Rep.grows (hneeds : needsBlock s (roundSz sz) = true) : GetsFrames heapBlocks s ∧
    ∃ ret s', s.heapGetNewBlock s.kernHeap = .ok (ret, s') := by
  obtain ⟨A, hv⟩ := h.vm
  obtain ⟨hun, hen⟩ := hroom hneeds
  obtain ⟨hframes, ret, s', _, hnew, _⟩ := heapGetNewBlock_backed hv hun hen s.kernHeap
  exact ⟨hframes, ret, s', hnew⟩

/-- A size that is small enough after rounding is given a block that holds the rounded size. -/
theorem Rep.heapMalloc_holds (hsz : roundSz sz ≤ 4096 - hdrSz) :
    ∃ p s', s.heapMalloc sz = .ok (p, s') ∧ roundSz sz ≤ size s'.mem (p - hdrSz) := by
  have hret : ∃ p s', s.heapMalloc sz = .ok (p, s') := by
    cases hfind : l.find? (Blk.fits (roundSz sz)) with
    | some c => exact ⟨_, _, h.mallocLoop_found hsz hfind 1024⟩
    | none =>
      obtain ⟨hframes, hnew⟩ := h.grows hroom ((h.needsBlock_iff _).mpr hfind)
      exact h.heapMalloc_returns hsz hframes hnew
  obtain ⟨p, s', hret⟩ := hret
  obtain ⟨s₁, l₁, c, l₂, r, hrep, _, hc, hr, hpage, hle, rfl, rfl, _⟩ :=
    h.heapMalloc_picks (fun _ hneeds => (h.grows hroom hneeds).1) hret
  refine ⟨_, _, hret, ?_⟩
  -- the block of the new allocation is in the ring that it leaves
  have htaken := hrep.take hc hr hpage (Nat.le_refl r)
  obtain ⟨b, hb, _, haddr, hsize⟩ := htaken.wf.holds (c.addr + hdrSz, r) List.mem_cons_self
  obtain ⟨nx, hhdr⟩ := htaken.hdr hb
  simp only at haddr hsize
  have hsub : c.addr + hdrSz - hdrSz = b.addr := by omega
  have hread := hhdr.size
  rw [hsub]
  omega

theorem Rep.admits_sizes (h32 : sz < 2 ^ 32) :
    Admits s sz ↔ sz ≠ 4079 ∧ sz ≠ 2 ^ 32 - 2 ∧ sz ≠ 2 ^ 32 - 1 := by
  have hpanics : s.heapMalloc sz = .error (.panic "We don't have memory pages that big\n") ↔
      4096 - hdrSz < roundSz sz := by
    constructor
    · intro hpanic
      by_contra hsmall
      obtain ⟨p, s', hret, _⟩ := h.heapMalloc_holds hroom (Nat.not_lt.mp hsmall)
      rw [hpanic] at hret
      cases hret
    · intro hbig
      exact mallocLoop_big hbig 1024
  rw [← roundSz_crosses h32]
  constructor
  · intro hadm
    rw [← hpanics, hadm.panics]
  · intro hcross
    refine ⟨hpanics.trans hcross, fun hsz => ?_⟩
    have hround : roundSz sz ≤ 4096 - hdrSz := by omega
    obtain ⟨p, s', hret, hsize⟩ := h.heapMalloc_holds hroom hround
    exact ⟨p, s', hret, (le_roundSz hsz).trans hsize⟩

end Admit

/-- **Sizes that are admitted.** In every state of every run from `heap_init`, whatever sizes were
asked for before, and with frames and pages left when the heap has to grow, `heap_malloc` admits a
size as it should exactly if it is not 4079 and not one of the two largest. -/
theorem admits_iff {s s₀ : Heap} {A : PageMap} (hv : VmOk s.vm A)
    (hf : GetsFrames heapBlocks { s with blocksAllocked := 0 }) (hinit : s.heapInit = .ok s₀)
    (calls : List Call) (hadm : Machine.Admissible (UsePre granted) step ⟨s₀, []⟩ calls)
    {os : List Nat} {r : Run} (hrun : Machine.runAll step ⟨s₀, []⟩ calls = .ok (os, r)) {sz : Nat}
    (h32 : sz < 2 ^ 32)
    (hroom : needsBlock r.heap (roundSz sz) = true → Unmapped r.heap ∧ Enough r.heap) :
    Admits r.heap sz ↔ sz ≠ 4079 ∧ sz ≠ 2 ^ 32 - 2 ∧ sz ≠ 2 ^ 32 - 1 := by
  obtain ⟨l, hrep⟩ := run_uses hv hf hinit hadm hrun
  exact hrep.admits_sizes hroom h32

/-- On the fresh sample heap 100 bytes are admitted as they should. -/
theorem admits_iff_fresh : ∃ s₀, sampleHeap.heapInit = .ok s₀ ∧ Admits s₀ 100 := by
  obtain ⟨v, m, hinit, hrep, _⟩ := sampleHeap_init
  refine ⟨_, hinit, (admits_iff sampleHeap_vmOk sampleHeap_getsFrames hinit [] trivial rfl
    (by decide) fun hn => ?_).mpr (by decide)⟩
  rw [hrep.needsBlock_iff, newBlk_find? (by decide)] at hn
  cases hn

/-- 4079 bytes are refused, and `2^32 - 1` bytes are given a block of 2. -/
theorem not_admits_fresh : ∃ s₀, sampleHeap.heapInit = .ok s₀ ∧ ¬ Admits s₀ 4079 ∧
    ¬ Admits s₀ (2 ^ 32 - 1) := by
  obtain ⟨v, m, hinit, hrep, _⟩ := sampleHeap_init
  refine ⟨_, hinit, fun hadm => ?_, fun hadm => ?_⟩
  · have hbig : 4096 - hdrSz < roundSz 4079 := by decide
    exact absurd (hadm.panics.mp (mallocLoop_big hbig 1024)) (by decide)
  · have hsmall : roundSz (2 ^ 32 - 1) ≤ 4096 - hdrSz := by decide
    have hfound := hrep.mallocLoop_found hsmall (newBlk_find? hsmall _ _) 1024
    have hpanic := hadm.panics.mpr (by decide)
    rw [heapMalloc, hfound] at hpanic
    cases hpanic

end Heap
end Frod
