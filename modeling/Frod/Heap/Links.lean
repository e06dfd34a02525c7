import Frod.Heap.Run

/-!
# Frod.Heap.Links

The previous pointers of the ring.

A split and a new region are put behind a block, and neither sets the previous pointer of the block
that comes after them. The first header of the heap therefore points to itself for good, and the ring
is doubly linked only as long as that header is the whole ring (`doublyLinked_iff`).
-/

namespace Frod
namespace Heap

open Vmm (PageMap)

/-- Every header reached from `kern_heap` is the previous one of its next one and the next one of its
previous one. -/
def DoublyLinked (s : Heap) : Prop :=
  ∀ i, prev s.mem (next s.mem ((next s.mem)^[i] s.kernHeap)) = (next s.mem)^[i] s.kernHeap ∧
    next s.mem (prev s.mem ((next s.mem)^[i] s.kernHeap)) = (next s.mem)^[i] s.kernHeap

/-- A first header that points back to itself has to be alone. -/
theorem doublyLinked_iff {s : Heap} (h : prev s.mem s.kernHeap = s.kernHeap) :
    DoublyLinked s ↔ next s.mem s.kernHeap = s.kernHeap := by
  constructor
  · intro hd
    have h0 := (hd 0).2
    rwa [Function.iterate_zero, id, h] at h0
  · intro hn i
    rw [Function.iterate_fixed hn i, hn, h]
    exact ⟨rfl, hn⟩

/-! ## The first header -/

/-- The first block points back to itself. -/
def HeadLoops (l : List Blk) : Prop := ∀ b t, l = b :: t → b.prev = b.addr

theorem Rep.prev_kernHeap {s : Heap} {l : List Blk} {live : List (Nat × Nat)} (h : Rep 0 s l live)
    (hl : HeadLoops l) : prev s.mem s.kernHeap = s.kernHeap := by
  obtain ⟨b, t, rfl, hb⟩ := h.head
  rw [← hb, h.ring.1.prev]
  exact hl b t rfl

/-- Exchanging a block for others that start with its address and its previous pointer. -/
theorem HeadLoops.replace {l₁ l₂ r : List Blk} {b c : Blk} (h : HeadLoops (l₁ ++ b :: l₂))
    (hprev : c.prev = b.prev) (haddr : c.addr = b.addr) : HeadLoops (l₁ ++ c :: r) := by
  intro x t hx
  cases l₁ with
  | nil =>
    obtain ⟨rfl, _⟩ := List.cons.inj hx
    rw [hprev, haddr]
    exact h b l₂ rfl
  | cons a l₁ =>
    obtain ⟨rfl, _⟩ := List.cons.inj hx
    exact h a _ rfl

/-- No call writes the previous pointer of the first header. -/
theorem Moves.headLoops {s s' : Heap} {l l' : List Blk} {c : Call} {o : Nat}
    (hm : Moves s l c o l' s') (h : HeadLoops l) : HeadLoops l' := by
  cases hm with
  | @malloc sz r s₁ l₁ l₂ c magic hpick _ =>
    have hl : HeadLoops (l₁ ++ c :: l₂) := by
      cases hpick with
      | found hl _ => rwa [← hl]
      | grown hl _ _ _ _ _ =>
        intro x t hx
        obtain ⟨rfl, _⟩ := List.cons.inj hx
        exact h _ _ hl
    have htake : ∃ d t, c.take r magic = d :: t ∧ d.prev = c.prev ∧ d.addr = c.addr := by
      unfold Blk.take
      split
      · exact ⟨_, _, rfl, rfl, rfl⟩
      · exact ⟨_, _, rfl, rfl, rfl⟩
    obtain ⟨d, t, heq, hprev, haddr⟩ := htake
    rw [heq, List.append_assoc, List.cons_append]
    exact hl.replace hprev haddr
  | kept => exact h
  | merged hl _ _ =>
    rw [hl] at h
    exact h.replace rfl rfl
  | write => exact h

/-! ## Runs -/

/-- The first allocation splits the fresh heap, and its header is not alone any more. -/
theorem not_doublyLinked_first {s : Heap} {L : List (Nat × Nat)} {o sz : Nat} {r : Run}
    (h : Rep 0 s [newBlk heapStart heapStart] L) (hs : step ⟨s, L⟩ (.malloc sz) = .ok (o, r))
    (hprev : prev r.heap.mem r.heap.kernHeap = r.heap.kernHeap) : ¬ DoublyLinked r.heap := by
  have hsz : roundSz sz ≤ 4096 - hdrSz := by
    by_contra hbig
    simp only [step, heapMalloc, mallocLoop_big (Nat.not_le.mp hbig)] at hs
    cases hs
  have hroom : roundSz sz + hdrSz < (newBlk heapStart heapStart).size := by
    show roundSz sz + hdrSz < 4096 * heapBlocks - hdrSz
    unfold hdrSz heapBlocks at *
    omega
  have h' : Rep 0 s ([] ++ newBlk heapStart heapStart :: []) L := h
  obtain ⟨_, _, hstep, hrep⟩ := h'.step_split hsz (by simp) rfl hroom (Nat.zero_le _) L
  rw [hstep] at hs
  obtain ⟨_, rfl⟩ := Prod.mk.inj (Except.ok.inj hs)
  rw [doublyLinked_iff hprev]
  obtain ⟨b, t, heq, hb⟩ := hrep.head
  obtain ⟨rfl, _⟩ := List.cons.inj heq
  have hnext : next (takeBlock s.mem (roundSz sz) heapStart) heapStart =
      heapStart + hdrSz + roundSz sz := hrep.ring.1.next
  have hk : heapStart = s.kernHeap := hb
  show next (takeBlock s.mem (roundSz sz) heapStart) s.kernHeap ≠ s.kernHeap
  rw [← hk, hnext]
  unfold hdrSz
  omega

/-- **The ring is doubly linked only before the first allocation.** In every run from `heap_init`
that returns, the ring it ends with is doubly linked exactly if it has one header, and all the rings
on the way are doubly linked exactly if nothing is allocated. -/
theorem doublyLinked_run_iff {s s₀ : Heap} {A : PageMap} (hv : VmOk s.vm A)
    (hf : GetsFrames heapBlocks { s with blocksAllocked := 0 }) (hinit : s.heapInit = .ok s₀)
    (calls : List Call) (hadm : Machine.Admissible (UsePre granted) step ⟨s₀, []⟩ calls)
    {os : List Nat} {r : Run} (hrun : Machine.runAll step ⟨s₀, []⟩ calls = .ok (os, r)) :
    (DoublyLinked r.heap ↔ next r.heap.mem r.heap.kernHeap = r.heap.kernHeap) ∧
      (Machine.Always (fun r => DoublyLinked r.heap) step ⟨s₀, []⟩ calls ↔
        ∀ sz, .malloc sz ∉ calls) := by
  obtain ⟨_, _, hrep⟩ := heapInit_uses hv hf hinit granted
  have hhead : HeadLoops [newBlk heapStart heapStart] := by
    intro b t hb
    obtain ⟨rfl, _⟩ := List.cons.inj hb
    rfl
  have hstep : ∀ r c o r', (∃ l, Rep 0 r.heap l (r.uses granted) ∧ HeadLoops l) →
      UsePre granted r c → step r c = .ok (o, r') →
      ∃ l, Rep 0 r'.heap l (r'.uses granted) ∧ HeadLoops l := by
    rintro r c o r' ⟨l, hrep, hl⟩ hpre hs
    obtain ⟨l', hrep', hmoves⟩ := step_moves hrep hpre hs
    exact ⟨l', hrep', hmoves.headLoops hl⟩
  constructor
  · obtain ⟨l, hl, hloops⟩ := Machine.invariant hstep calls ⟨_, hrep, hhead⟩ hadm hrun
    exact doublyLinked_iff (hl.prev_kernHeap hloops)
  · cases calls with
    | nil =>
      have hlinked : DoublyLinked s₀ := by
        rw [doublyLinked_iff (hrep.prev_kernHeap hhead)]
        obtain ⟨b, t, heq, hb⟩ := hrep.head
        obtain ⟨rfl, _⟩ := List.cons.inj heq
        have hnext : next s₀.mem heapStart = s₀.kernHeap := hrep.ring.1.next
        rw [← hb] at hnext ⊢
        exact hnext
      exact ⟨fun _ sz => List.not_mem_nil, fun _ => hlinked⟩
    | cons c calls =>
      obtain ⟨o, r₁, _, _, h₁, _⟩ := Machine.runAll_cons hrun
      cases c with
      | malloc sz =>
        constructor
        · intro halways
          obtain ⟨l, hl, hloops⟩ := hstep _ _ _ _ ⟨_, hrep, hhead⟩ hadm.1 h₁
          have hno := not_doublyLinked_first hrep h₁ (hl.prev_kernHeap hloops)
          exact absurd (halways.2 o r₁ h₁).head hno
        · intro hno
          exact absurd List.mem_cons_self (hno sz)
      | free addr =>
        -- nothing is live yet
        obtain ⟨_, hlive⟩ := hadm.1
        cases hlive
      | write addr v =>
        obtain ⟨_, hlive, _⟩ := hadm.1
        cases hlive

/-- The fresh ring is doubly linked, and after one allocation it is not. -/
theorem doublyLinked_run_iff_init : ∃ s₀ os r, sampleHeap.heapInit = .ok s₀ ∧ DoublyLinked s₀ ∧
    Machine.runAll step ⟨s₀, []⟩ [.malloc 100] = .ok (os, r) ∧
    ¬ Machine.Always (fun r => DoublyLinked r.heap) step ⟨s₀, []⟩ [.malloc 100] := by
  obtain ⟨v, m, s₁, hinit, _, hpre, h₁⟩ := sampleHeap_malloc
  have hnil : Machine.runAll step ⟨s₁, [(heapStart + hdrSz, 100)]⟩ [] =
      .ok ([], ⟨s₁, [(heapStart + hdrSz, 100)]⟩) := rfl
  have hrun := Machine.runAll_cons_of h₁ hnil
  have hfresh := (doublyLinked_run_iff sampleHeap_vmOk sampleHeap_getsFrames hinit [] trivial rfl).2
  have hiff := (doublyLinked_run_iff sampleHeap_vmOk sampleHeap_getsFrames hinit [.malloc 100]
    (.cons_of hpre h₁ trivial) hrun).2
  refine ⟨_, _, _, hinit, (hfresh.mpr fun sz => List.not_mem_nil).head, hrun, fun halways => ?_⟩
  exact absurd List.mem_cons_self (hiff.mp halways 100)

/-- After one allocation the first header still points back to itself, though there are two. -/
theorem not_doublyLinked_malloc : ∃ s₀ r, sampleHeap.heapInit = .ok s₀ ∧
    Machine.Admissible (UsePre granted) step ⟨s₀, []⟩ [.malloc 100] ∧
    Machine.runAll step ⟨s₀, []⟩ [.malloc 100] = .ok ([heapStart + hdrSz], r) ∧
    ¬ DoublyLinked r.heap := by
  obtain ⟨v, m, s₁, hinit, hrep, hpre, h₁⟩ := sampleHeap_malloc
  obtain ⟨l, hl, hmoves⟩ := step_moves hrep hpre h₁
  have hloops := hmoves.headLoops fun b t hb => by
    obtain ⟨rfl, _⟩ := List.cons.inj hb
    rfl
  exact ⟨_, _, hinit, .cons_of hpre h₁ trivial, Machine.runAll_cons_of h₁ rfl,
    not_doublyLinked_first hrep h₁ (hl.prev_kernHeap hloops)⟩

end Heap
end Frod
