import Frod.Heap.Run

/-!
# Frod.Heap.Align

When the pointers of `heap_malloc` are multiples of 4.

`sz += (sz%4)` rounds an even size up to a multiple of 4 and an odd one to twice an odd number. A
header that is split off behind such a block is not aligned any more, and neither is the payload
behind it. Two things hide this: after growth the size is rounded a second time, and a block that is
taken whole keeps its size (`malloc_aligned`).
-/

namespace Frod
namespace Heap

open Vmm (PageMap)

/-- The size `heap_malloc(sz)` leaves to the block it returns is a multiple of 4: the size is even,
the heap grows, or the block that is found is not split. -/
def KeepsAligned (s : Heap) (sz : Nat) : Prop :=
  sz % 2 = 0 ∨ needsBlock s (roundSz sz) = true ∨
    ∀ it, searchLoop s.mem (roundSz sz) s.kernHeap (2 ^ 32) s.kernHeap = some it →
      size s.mem it - roundSz sz ≤ hdrSz

def AlignPre (r : Run) : Call → Prop
  | .malloc sz => KeepsAligned r.heap sz
  | _ => True

/-- Address and size of the block are multiples of 4. -/
def Blk.Aligned (b : Blk) : Prop := b.addr % 4 = 0 ∧ b.size % 4 = 0

theorem roundSz_mod {sz : Nat} : roundSz sz % 4 = 2 * (sz % 2) := by
  unfold roundSz; omega

theorem roundSz_roundSz_mod (sz : Nat) : roundSz (roundSz sz) % 4 = 0 := by
  unfold roundSz; omega

theorem Blk.Aligned.take {b c : Blk} {sz : Nat} {magic : Bool} (h : b.Aligned)
    (hsz : b.size - sz > hdrSz → sz % 4 = 0) (hc : c ∈ b.take sz magic) : c.Aligned := by
  obtain ⟨h1, h2⟩ := h
  unfold Blk.take at hc
  split at hc
  · rename_i hsplit
    have hmod := hsz hsplit
    unfold hdrSz at hsplit
    simp only [List.mem_cons, List.not_mem_nil, or_false] at hc
    rcases hc with rfl | rfl
    · exact ⟨h1, hmod⟩
    · constructor
      · show (b.addr + 16 + sz) % 4 = 0
        omega
      · show (b.size - 16 - sz) % 4 = 0
        omega
  · simp only [List.mem_cons, List.not_mem_nil, or_false] at hc
    rw [hc]
    exact ⟨h1, h2⟩

theorem Blk.Aligned.absorb {b c : Blk} (hb : b.Aligned) (hc : c.Aligned) : (b.absorb c).Aligned := by
  refine ⟨hb.1, ?_⟩
  have h1 := hb.2
  have h2 := hc.2
  show (b.size + 16 + c.size) % 4 = 0
  omega

theorem newBlk_aligned (n prev : Nat) : (newBlk (heapStart + 4096 * n) prev).Aligned := by
  constructor
  · show (heapStart + 4096 * n) % 4 = 0
    unfold heapStart procVmmEnd procVmmStart mb256
    omega
  · show (4096 * heapBlocks - hdrSz) % 4 = 0
    decide

/-- The block that is taken, and how much of it when it is split. -/
theorem Picks.aligned {s s₁ : Heap} {l l₁ l₂ : List Blk} {c : Blk} {sz r : Nat}
    {live : List (Nat × Nat)} (hpick : Picks s (roundSz sz) l s₁ l₁ c l₂ r) (hrep : Rep 0 s l live)
    (h : ∀ b ∈ l, b.Aligned) (hk : KeepsAligned s sz) :
    (∀ b ∈ l₁ ++ c :: l₂, b.Aligned) ∧ (c.size - r > hdrSz → r % 4 = 0) := by
  cases hpick with
  | found hl hfind =>
    refine ⟨fun b hb => h b (by rw [hl]; exact hb), fun hsplit => ?_⟩
    rcases hk with heven | hneeds | hwhole
    · rw [roundSz_mod, heven]
    · rw [hrep.needsBlock_iff, hfind] at hneeds
      cases hneeds
    · have hsearch := hrep.search (roundSz sz)
      rw [hfind] at hsearch
      obtain ⟨nx, hhdr⟩ := hrep.hdr (List.mem_of_find?_eq_some hfind)
      have hle := hwhole _ hsearch
      rw [hhdr.size] at hle
      exact absurd hle (Nat.not_le.mpr hsplit)
  | grown hl hfind _ _ _ _ =>
    refine ⟨fun b hb => ?_, fun _ => roundSz_roundSz_mod sz⟩
    simp only [List.cons_append, List.nil_append, List.mem_cons] at hb
    rcases hb with rfl | rfl | hb
    · exact h b (by simp [hl])
    · exact newBlk_aligned _ _
    · exact h b (by simp [hl, hb])

/-- One call keeps the blocks aligned and returns an aligned pointer. -/
theorem Moves.aligned {r : Run} {s' : Heap} {l l' : List Blk} {c : Call} {o : Nat}
    {live : List (Nat × Nat)} (hm : Moves r.heap l c o l' s') (hrep : Rep 0 r.heap l live)
    (h : ∀ b ∈ l, b.Aligned) (hk : AlignPre r c) : (∀ b ∈ l', b.Aligned) ∧ o % 4 = 0 := by
  cases hm with
  | malloc hpick _ =>
    obtain ⟨hblocks, hsz⟩ := hpick.aligned hrep h hk
    have hc := hblocks _ (List.mem_append_right _ List.mem_cons_self)
    refine ⟨fun b hb => ?_, ?_⟩
    · simp only [List.mem_append] at hb
      rcases hb with (hb | hb) | hb
      · exact hblocks b (by simp [hb])
      · exact hc.take hsz hb
      · exact hblocks b (by simp [hb])
    · have := hc.1
      unfold hdrSz
      omega
  | kept => exact ⟨h, rfl⟩
  | merged hl _ _ =>
    refine ⟨fun x hx => ?_, rfl⟩
    simp only [List.mem_append, List.mem_cons] at hx
    rcases hx with hx | rfl | hx
    · exact h x (by simp [hl, hx])
    · exact (h _ (by simp [hl])).absorb (h _ (by simp [hl]))
    · exact h x (by simp [hl, hx])
  | write => exact ⟨h, rfl⟩

/-- **Aligned pointers.** In every run from `heap_init` in which every allocation of an odd size grows
the heap or takes a block whole, every pointer returned is a multiple of 4. -/
theorem malloc_aligned {s s₀ : Heap} {A : PageMap} (hv : VmOk s.vm A)
    (hf : GetsFrames heapBlocks { s with blocksAllocked := 0 }) (hinit : s.heapInit = .ok s₀)
    (calls : List Call)
    (hadm : Machine.Admissible (fun r c => UsePre granted r c ∧ AlignPre r c) step ⟨s₀, []⟩ calls)
    {os : List Nat} {r : Run} (hrun : Machine.runAll step ⟨s₀, []⟩ calls = .ok (os, r)) :
    ∀ o ∈ os, o % 4 = 0 := by
  refine Machine.outputs
    (I := fun r : Run => ∃ l, Rep 0 r.heap l (r.uses granted) ∧ ∀ b ∈ l, b.Aligned)
    ?_ calls ?_ hadm hrun
  · rintro r c o r' ⟨l, hrep, hl⟩ ⟨hpre, hk⟩ hs
    obtain ⟨l', hrep', hmoves⟩ := step_moves hrep hpre hs
    obtain ⟨hl', ho⟩ := hmoves.aligned hrep hl hk
    exact ⟨⟨l', hrep', hl'⟩, ho⟩
  · refine ⟨_, (heapInit_uses hv hf hinit granted).2.2, fun b hb => ?_⟩
    obtain rfl := List.mem_singleton.mp hb
    exact newBlk_aligned 0 heapStart

/-- Two allocations on the sample machine: the second payload lies behind the first one. -/
theorem sampleHeap_two {sz sz' : Nat} (hsz : roundSz sz ≤ 4096 - hdrSz)
    (hsz' : roundSz sz' ≤ 4096 - hdrSz) : ∃ s₀ r, sampleHeap.heapInit = .ok s₀ ∧
      Machine.Admissible (UsePre granted) step ⟨s₀, []⟩ [.malloc sz, .malloc sz'] ∧
      Machine.runAll step ⟨s₀, []⟩ [.malloc sz, .malloc sz'] =
        .ok ([heapStart + hdrSz, heapStart + hdrSz + roundSz sz + hdrSz], r) := by
  obtain ⟨v, m, hinit, hrep, _⟩ := sampleHeap_init
  obtain ⟨s₁, s₂, h₁, h₂, hn₁, hn₂, _⟩ := hrep.two_mallocs hsz hsz'
  refine ⟨_, _, hinit, ?_, Machine.runAll_cons_of h₁ (Machine.runAll_cons_of h₂ rfl)⟩
  refine .cons_of ⟨Nat.min_le_right _ _, fun _ hn => ?_⟩ h₁
    (.cons_of ⟨Nat.min_le_right _ _, fun _ hn => ?_⟩ h₂ trivial)
  · rw [hn₁] at hn
    cases hn
  · rw [hn₂] at hn
    cases hn

theorem malloc_aligned_even : ∃ s₀ r os, sampleHeap.heapInit = .ok s₀ ∧
    Machine.runAll step ⟨s₀, []⟩ [.malloc 6, .malloc 6] = .ok (os, r) ∧ ∀ o ∈ os, o % 4 = 0 := by
  obtain ⟨s₀, r, hinit, hadm, hrun⟩ := @sampleHeap_two 6 6 (by decide) (by decide)
  refine ⟨s₀, r, _, hinit, hrun, malloc_aligned sampleHeap_vmOk sampleHeap_getsFrames hinit _ ?_ hrun⟩
  refine hadm.imp fun r c hc hpre => ⟨hpre, ?_⟩
  simp only [List.mem_cons, List.not_mem_nil, or_false, or_self] at hc
  subst hc
  exact .inl rfl

/-- The second of two allocations of one byte is not aligned. -/
theorem malloc_not_aligned : ∃ s₀ r, sampleHeap.heapInit = .ok s₀ ∧
    Machine.Admissible (UsePre granted) step ⟨s₀, []⟩ [.malloc 1, .malloc 1] ∧
    Machine.runAll step ⟨s₀, []⟩ [.malloc 1, .malloc 1] = .ok ([0x20000010, 0x20000022], r) ∧
    0x20000022 % 4 ≠ 0 := by
  obtain ⟨s₀, r, hinit, hadm, hrun⟩ := @sampleHeap_two 1 1 (by decide) (by decide)
  exact ⟨s₀, r, hinit, hadm, hrun, by decide⟩

end Heap
end Frod
