import Frod.Heap.Run

/-!
# Frod.Heap.Magic

When a pointer that `heap_malloc` returned can be freed.

`heap_get_new_block` writes the magic values of a header, the split in `heap_malloc` does not. A
header that was split off carries whatever the page held before, and `heap_free` panics on it unless
that happened to be the magic values (`freeable_of_restMagic`, `heapFree_panics`).
-/

namespace Frod
namespace Heap

open Vmm (PageMap)

/-- Every header reached from `kern_heap` carries the magic values, and every live pointer can be
freed. -/
structure Freeable (r : Run) : Prop where
  magic : ∀ i, hasMagic r.heap.mem ((next r.heap.mem)^[i] r.heap.kernHeap) = true
  free : ∀ p ∈ r.live, ∃ s, r.heap.heapFree p.1 = .ok s

theorem Rep.iterate {fresh : Nat} {s : Heap} {l : List Blk} {live : List (Nat × Nat)}
    (h : Rep fresh s l live) (i : Nat) : ∃ b ∈ l, (next s.mem)^[i] s.kernHeap = b.addr := by
  induction i with
  | zero =>
    obtain ⟨b, t, rfl, hb⟩ := h.head
    exact ⟨b, by simp, hb.symm⟩
  | succ i ih =>
    obtain ⟨b, hb, hi⟩ := ih
    obtain ⟨l₁, l₂, rfl⟩ := List.append_of_mem hb
    rw [Function.iterate_succ_apply', hi, h.ring.hdr.next]
    cases l₂ with
    | nil =>
      obtain ⟨c, t, heq, hc⟩ := h.head
      exact ⟨c, by rw [heq]; simp, hc.symm⟩
    | cons c l₂ => exact ⟨c, by simp, rfl⟩

theorem Rep.freeable {g : Nat → Nat} {r : Run} {l : List Blk} (h : Rep 0 r.heap l (r.uses g))
    (hm : ∀ b ∈ l, b.magic = true) : Freeable r := by
  constructor
  · intro i
    obtain ⟨b, hb, hi⟩ := h.iterate i
    obtain ⟨nx, hhdr⟩ := h.hdr hb
    rw [hi, hhdr.magic, hm b hb]
  · intro p hp
    obtain ⟨b, hb, hbu, hp1, _⟩ := h.wf.holds _ (List.mem_map_of_mem hp)
    have hp1 : p.1 = b.addr + hdrSz := hp1
    have hbm := hm b hb
    obtain ⟨l₁, l₂, rfl⟩ := List.append_of_mem hb
    rw [hp1]
    rcases h.heapFree_cases hbu with ⟨hno, _⟩ | ⟨_, _, hf⟩ | ⟨_, _, _, _, _, hf⟩
    · rw [hbm] at hno
      cases hno
    · exact ⟨_, hf⟩
    · exact ⟨_, hf⟩

/-- The memory where a call splits off a header holds the magic values already. -/
def RestPre (r : Run) : Call → Prop
  | .malloc sz => restMagic r.heap sz = true
  | _ => True

/-- **Pointers can be freed.** In every run whose allocations get frames when they have to grow the
heap, and find the magic values at the place where they split off a header, every header of every
state reached carries them, and `heap_free` on a live pointer does not panic. The sizes are any that
`heap_malloc` admits, and the callers write to what it has room for. -/
theorem freeable_of_restMagic {s s₀ : Heap} {A : PageMap} (hv : VmOk s.vm A)
    (hf : GetsFrames heapBlocks { s with blocksAllocked := 0 }) (hinit : s.heapInit = .ok s₀)
    (calls : List Call)
    (hadm : Machine.Admissible (fun r c => UsePre granted r c ∧ RestPre r c) step ⟨s₀, []⟩ calls)
    {os : List Nat} {r : Run} (hrun : Machine.runAll step ⟨s₀, []⟩ calls = .ok (os, r)) :
    Freeable r := by
  have hinv : ∃ l, Rep 0 r.heap l (r.uses granted) ∧ ∀ b ∈ l, b.magic = true := by
    refine Machine.invariant
      (I := fun r : Run => ∃ l, Rep 0 r.heap l (r.uses granted) ∧ ∀ b ∈ l, b.magic = true)
      ?_ calls ?_ hadm hrun
    · rintro r c o r' ⟨l, h, hm⟩ ⟨hpre, hrest⟩ hs
      obtain ⟨l', h', hmoves⟩ := step_moves h hpre hs
      refine ⟨l', h', fun b hb => ?_⟩
      rcases hmoves.magic b hb with ⟨a, ha, he⟩ | he | ⟨sz, rfl, he⟩
      · rw [he, hm a ha]
      · exact he
      · rw [he]
        exact hrest
    · obtain ⟨_, _, hrep⟩ := heapInit_uses hv hf hinit granted
      refine ⟨_, hrep, fun b hb => ?_⟩
      obtain rfl := List.mem_singleton.mp hb
      rfl
  obtain ⟨l, h, hm⟩ := hinv
  exact h.freeable hm

/-- On pages that hold the magic values at the right places, both of two allocations can be freed:
each of them splits off a header and finds the magic values there. -/
theorem freeable_of_restMagic_stamped : ∃ s₀ r q,
    ({ sampleHeap with mem := stamped } : Heap).heapInit = .ok s₀ ∧
    Machine.runAll step ⟨s₀, []⟩ [.malloc 4, .malloc 4] = .ok ([heapStart + hdrSz, q], r) ∧
    r.live = [(q, 4), (heapStart + hdrSz, 4)] ∧ Freeable r := by
  obtain ⟨v, hinit, hrep⟩ := sampleHeap_init_mem stamped
  have hsz : roundSz 4 ≤ 4096 - hdrSz := by decide
  obtain ⟨s₁, s₂, h₁, h₂, hn₁, hn₂, ⟨hm₁, hm₂⟩, _⟩ := hrep.two_mallocs hsz hsz
  have hfirst : hasMagic (initBlock stamped heapStart 0) (heapStart + hdrSz + roundSz 4) = true := by
    decide +kernel
  have hsecond : hasMagic (takeBlock (initBlock stamped heapStart 0) (roundSz 4) heapStart)
      (heapStart + hdrSz + roundSz 4 + hdrSz + roundSz 4) = true := by
    decide +kernel
  have hrun : Machine.runAll step _ [.malloc 4, .malloc 4] = .ok ([heapStart + hdrSz, _], _) :=
    Machine.runAll_cons_of h₁ (Machine.runAll_cons_of h₂ rfl)
  refine ⟨_, _, _, hinit, hrun, rfl, freeable_of_restMagic (s := { sampleHeap with mem := stamped })
    sampleHeap_vmOk (sampleHeap_getsFrames_mem stamped) hinit _ ?_ hrun⟩
  refine .cons_of ⟨⟨Nat.min_le_right _ _, fun _ hn => ?_⟩, hm₁.trans hfirst⟩ h₁
    (.cons_of ⟨⟨Nat.min_le_right _ _, fun _ hn => ?_⟩, hm₂.trans hsecond⟩ h₂ trivial)
  · rw [hn₁] at hn
    cases hn
  · rw [hn₂] at hn
    cases hn

/-- On zeroed pages the second of two allocations cannot be freed: its header was split off. -/
theorem heapFree_panics : ∃ s₀ r q, sampleHeap.heapInit = .ok s₀ ∧
    Machine.Admissible Pre step ⟨s₀, []⟩ [.malloc 4, .malloc 4] ∧
    Machine.runAll step ⟨s₀, []⟩ [.malloc 4, .malloc 4] = .ok ([heapStart + hdrSz, q], r) ∧
    (q, 4) ∈ r.live ∧ r.heap.heapFree q = .error (.panic "Heap magic value does not fit.\n") := by
  obtain ⟨v, m, hinit, hrep, hmagic⟩ := sampleHeap_init
  have hsz : roundSz 4 ≤ 4096 - hdrSz := by decide
  obtain ⟨s₁, s₂, h₁, h₂, hn₁, hn₂, _, l₁, b, l₂, live, hrep₂, hb, haddr, hbm⟩ :=
    hrep.two_mallocs hsz hsz
  rw [show roundSz 4 = 4 by decide] at *
  refine ⟨_, _, _, hinit, ?_, Machine.runAll_cons_of h₁ (Machine.runAll_cons_of h₂ rfl), by simp, ?_⟩
  · refine .cons_of ⟨by decide, fun hn => ?_⟩ h₁ (.cons_of ⟨by decide, fun hn => ?_⟩ h₂ trivial)
    · rw [show roundSz 4 = 4 by decide, hn₁] at hn
      cases hn
    · rw [show roundSz 4 = 4 by decide, hn₂] at hn
      cases hn
  · rw [hmagic] at hbm
    rw [← haddr]
    rcases hrep₂.heapFree_cases hb with ⟨_, hf⟩ | ⟨hm, _⟩ | ⟨hm, _⟩
    · exact hf
    · rw [hbm] at hm
      cases hm
    · rw [hbm] at hm
      cases hm

end Heap
end Frod
