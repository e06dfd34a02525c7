import Frod.Heap.Run

/-!
# Frod.Heap.Range

The virtual addresses the heap takes.

The layout reserves `HEAP_START` to `HEAP_END` for the heap, and `heap_get_new_block` maps one page
after the other from `HEAP_START` on without ever looking at `HEAP_END`. As memory that is freed is
not used again, a run leaves the range exactly when it grows the heap for the 65th time
(`heap_inRange_iff`).
-/

namespace Frod
namespace Heap

open Vmm (PageMap Refines)

/-- The pages mapped since the heap `s` was given, below the window of the page tables, and the live
pointers lie in the range that the layout reserves. -/
structure InRange (s : Heap) (r : Run) : Prop where
  pages : ∀ va, va < 0xFFC00000 → s.vm.walk va = none → r.heap.vm.walk va ≠ none →
    heapStart ≤ va ∧ va < heapEnd
  pointers : ∀ p ∈ r.live, heapStart ≤ p.1 ∧ p.1 < heapEnd

/-- A call that has to grow the heap. -/
def grows (r : Run) : Call → Bool
  | .malloc sz => needsBlock r.heap (roundSz sz)
  | _ => false

/-- Growth ends before `HEAP_END`. -/
def RangePre (r : Run) (c : Call) : Prop :=
  grows r c = true → heapStart + 4096 * (r.heap.blocksAllocked + heapBlocks) ≤ heapEnd

/-- The payload of every block begins in one of the first `n` pages. -/
def Inside (n : Nat) (l : List Blk) : Prop := ∀ b ∈ l, b.addr + hdrSz < heapStart + 4096 * n

/-- The heap over the page map `A` has mapped its first `blocks_allocked` pages and nothing else. -/
structure Spans (A : PageMap) (r : Run) : Prop where
  blocks : ∃ l, Rep 0 r.heap l (r.uses granted) ∧ Inside r.heap.blocksAllocked l
  map : ∃ A', VmOk r.heap.vm A' ∧ Adds A A' (heapStart / kb4) r.heap.blocksAllocked

/-! ## One call -/

/-- What is split off has room for a byte. -/
theorem Inside.take {n sz : Nat} {l₁ l₂ : List Blk} {c : Blk} {magic : Bool}
    (h : Inside n (l₁ ++ c :: l₂)) (hc : c.fin ≤ heapStart + 4096 * n) :
    Inside n (l₁ ++ c.take sz magic ++ l₂) := by
  have hca := h c (by simp)
  intro b hb
  simp only [List.mem_append] at hb
  rcases hb with (hb | hb) | hb
  · exact h b (by simp [hb])
  · unfold Blk.take at hb
    split at hb
    · rename_i hsplit
      simp only [List.mem_cons, List.not_mem_nil, or_false] at hb
      rcases hb with rfl | rfl
      · exact hca
      · unfold Blk.fin hdrSz at hc
        unfold hdrSz at hsplit
        show c.addr + 16 + sz + 16 < heapStart + 4096 * n
        omega
    · simp only [List.mem_cons, List.not_mem_nil, or_false] at hb
      rw [hb]
      exact hca
  · exact h b (by simp [hb])

/-- A call that returns keeps the payloads inside the heap. -/
theorem Moves.inside {s s' : Heap} {l l' : List Blk} {c : Call} {o : Nat} {live : List (Nat × Nat)}
    (hm : Moves s l c o l' s') (hrep : Rep 0 s l live) (h : Inside s.blocksAllocked l) :
    Inside s'.blocksAllocked l' := by
  cases hm with
  | @malloc sz q s₁ l₁ l₂ c magic hpick _ =>
    cases hpick with
    | found hl _ =>
      subst hl
      exact h.take (hrep.wf.tiles.bounds Blk.addr_lt_fin (by simp)).2
    | @grown _ b _ hl _ _ _ _ hblocks =>
      subst hl
      have hend : (newBlk (heapStart + 4096 * s.blocksAllocked) b.addr).fin =
          heapStart + 4096 * s₁.blocksAllocked := by
        rw [newBlk_fin, hblocks]
        omega
      refine Inside.take (fun x hx => ?_) hend.le
      have hlt : 4096 * s.blocksAllocked + hdrSz < 4096 * s₁.blocksAllocked := by
        rw [hblocks]
        unfold hdrSz heapBlocks
        omega
      simp only [List.cons_append, List.nil_append, List.mem_cons] at hx
      show x.addr + hdrSz < heapStart + 4096 * s₁.blocksAllocked
      rcases hx with rfl | rfl | hx
      · have := h x (by simp)
        omega
      · show heapStart + 4096 * s.blocksAllocked + hdrSz < heapStart + 4096 * s₁.blocksAllocked
        omega
      · have := h x (by simp [hx])
        omega
  | kept => exact h
  | @merged l₁ l₂ b c hl _ _ =>
    subst hl
    intro x hx
    simp only [List.mem_append, List.mem_cons] at hx
    rcases hx with hx | rfl | hx
    · exact h x (by simp [hx])
    · exact h b (by simp)
    · exact h x (by simp [hx])
  | write => exact h

theorem heapGetNewBlock_adds {s s₁ : Heap} {A : PageMap} {ret prev : Nat} (hv : VmOk s.vm A)
    (hb : heapStart + 4096 * s.blocksAllocked ≤ 0xFFC00000) (hf : GetsFrames heapBlocks s)
    (h : s.heapGetNewBlock prev = .ok (ret, s₁)) :
    ∃ A', VmOk s₁.vm A' ∧ Adds A A' (heapStart / kb4 + s.blocksAllocked) heapBlocks := by
  obtain ⟨s₂, hloop, h⟩ := Machine.bind_eq_ok.mp h
  obtain ⟨v, A', rfl, hv', _, hadds⟩ := mapLoop_spec hv hb hf hloop
  cases h
  exact ⟨A', hv', hadds⟩

/-- The page tables change when the heap grows, and then by its next pages. -/
theorem Moves.adds {r : Run} {s' : Heap} {l l' : List Blk} {c : Call} {o : Nat}
    {live : List (Nat × Nat)} {A A₁ : PageMap} (hm : Moves r.heap l c o l' s')
    (hrep : Rep 0 r.heap l live) (hv : VmOk r.heap.vm A₁)
    (hadds : Adds A A₁ (heapStart / kb4) r.heap.blocksAllocked) :
    s'.blocksAllocked = r.heap.blocksAllocked + (if grows r c then heapBlocks else 0) ∧
      ∃ A', VmOk s'.vm A' ∧ Adds A A' (heapStart / kb4) s'.blocksAllocked := by
  cases hm with
  | malloc hpick _ =>
    cases hpick with
    | found _ hfind =>
      refine ⟨?_, A₁, hv, hadds⟩
      rw [if_neg]
      · rfl
      · rw [grows, hrep.needsBlock_iff, hfind]
        simp
    | grown _ hfind hf hnew _ hblocks =>
      refine ⟨?_, ?_⟩
      · rw [if_pos]
        · exact hblocks
        · rw [grows, hrep.needsBlock_iff, hfind]
      · obtain ⟨A', hv', hadds'⟩ := heapGetNewBlock_adds hv hrep.bound hf hnew
        refine ⟨A', hv', ?_⟩
        dsimp only
        rw [hblocks]
        exact hadds.trans hadds'
  | kept => exact ⟨rfl, A₁, hv, hadds⟩
  | merged _ _ _ => exact ⟨rfl, A₁, hv, hadds⟩
  | write => exact ⟨rfl, A₁, hv, hadds⟩

theorem Spans.keeps {A : PageMap} {r r' : Run} {c : Call} {o : Nat} (h : Spans A r)
    (hpre : UsePre granted r c) (hs : step r c = .ok (o, r')) :
    Spans A r' ∧ r'.heap.blocksAllocked =
      r.heap.blocksAllocked + if grows r c then heapBlocks else 0 := by
  obtain ⟨l, hrep, hin⟩ := h.blocks
  obtain ⟨A₁, hv, hadds⟩ := h.map
  obtain ⟨l', hrep', hmoves⟩ := step_moves hrep hpre hs
  obtain ⟨hblocks, hmap⟩ := hmoves.adds hrep hv hadds
  exact ⟨⟨⟨l', hrep', hmoves.inside hrep hin⟩, hmap⟩, hblocks⟩

theorem heapInit_spans {s s₀ : Heap} {A : PageMap} (hv : VmOk s.vm A)
    (hf : GetsFrames heapBlocks { s with blocksAllocked := 0 }) (hinit : s.heapInit = .ok s₀) :
    Spans A ⟨s₀, []⟩ ∧ s₀.blocksAllocked = heapBlocks := by
  obtain ⟨_, hblocks, hrep⟩ := heapInit_uses hv hf hinit granted
  refine ⟨⟨⟨_, hrep, fun b hb => ?_⟩, ?_⟩, hblocks⟩
  · obtain rfl := List.mem_singleton.mp hb
    rw [hblocks]
    show heapStart + hdrSz < heapStart + 4096 * heapBlocks
    decide
  · obtain ⟨v, A', rfl, hv', hadds⟩ := heapInit_rep hv hf hinit
    exact ⟨A', hv', hadds⟩

/-! ## Runs -/

/-- The heap is in its range as long as it has at most 65536 pages. -/
theorem Spans.inRange_iff {s : Heap} {A : PageMap} {r : Run} (h : Spans A r) (hv : VmOk s.vm A) :
    InRange s r ↔ heapStart + 4096 * r.heap.blocksAllocked ≤ heapEnd := by
  obtain ⟨l, hrep, hin⟩ := h.blocks
  obtain ⟨A', hv', hadds⟩ := h.map
  have hbound := hrep.bound
  have hstart : heapStart / kb4 * 4096 = heapStart := by decide
  have hkb : kb4 = 4096 := rfl
  constructor
  · intro hr
    by_contra hc
    -- the page at `HEAP_END` is mapped
    have hpage : heapEnd / kb4 = heapStart / kb4 + 65536 := by decide
    have hend : heapEnd = heapStart + 4096 * 65536 := by decide
    obtain ⟨hold, hnew⟩ := hadds.new 65536 (by omega)
    rw [← hpage] at hold hnew
    have hlt := (hr.pages heapEnd (by omega) (by rw [hv.refines.walk (by omega)]; exact hold)
      (by rw [hv'.refines.walk (by omega)]; exact hnew)).2
    exact absurd hlt (Nat.lt_irrefl _)
  · intro hle
    refine ⟨fun va hva hold hnew => ?_, fun p hp => ?_⟩
    · rw [hv.refines.walk hva] at hold
      rw [hv'.refines.walk hva] at hnew
      by_contra hc
      refine hnew ?_
      rw [hadds.old (va / kb4) (by rw [hkb] at *; omega)]
      exact hold
    · obtain ⟨b, hb, _, hpb, _⟩ := hrep.wf.holds _ (List.mem_map_of_mem hp)
      have hlow := (hrep.wf.tiles.bounds Blk.addr_lt_fin hb).1
      have hhigh := hin b hb
      simp only at hpb
      omega

/-- A step that starts in the range ends in it exactly if its growth does. -/
theorem Spans.fits_iff {A : PageMap} {r r' : Run} {c : Call} {o : Nat} (h : Spans A r)
    (hle : heapStart + 4096 * r.heap.blocksAllocked ≤ heapEnd) (hpre : UsePre granted r c)
    (hs : step r c = .ok (o, r')) :
    heapStart + 4096 * r'.heap.blocksAllocked ≤ heapEnd ↔ RangePre r c := by
  obtain ⟨_, hblocks⟩ := h.keeps hpre hs
  rw [hblocks]
  by_cases hg : grows r c = true
  · rw [if_pos hg]
    exact ⟨fun hfit _ => hfit, fun hfit => hfit hg⟩
  · rw [if_neg hg]
    exact ⟨fun _ hc => absurd hc hg, fun _ => hle⟩

/-- **The heap stays in its range.** A run from `heap_init` that returns maps pages and returns
pointers between `HEAP_START` and `HEAP_END` only, exactly if whenever it grows the heap there are
1024 pages left before `HEAP_END`. -/
theorem heap_inRange_iff {s s₀ : Heap} {A : PageMap} (hv : VmOk s.vm A)
    (hf : GetsFrames heapBlocks { s with blocksAllocked := 0 }) (hinit : s.heapInit = .ok s₀)
    (calls : List Call) (hadm : Machine.Admissible (UsePre granted) step ⟨s₀, []⟩ calls)
    {os : List Nat} {r : Run} (hrun : Machine.runAll step ⟨s₀, []⟩ calls = .ok (os, r)) :
    Machine.Always (InRange s) step ⟨s₀, []⟩ calls ↔
      Machine.Admissible RangePre step ⟨s₀, []⟩ calls := by
  obtain ⟨hspans, hblocks⟩ := heapInit_spans hv hf hinit
  have hfit₀ : heapStart + 4096 * s₀.blocksAllocked ≤ heapEnd := by
    rw [hblocks]
    decide
  refine Machine.always_iff
    (I := fun r => Spans A r ∧ heapStart + 4096 * r.heap.blocksAllocked ≤ heapEnd)
    (fun r h => (h.1.inRange_iff hv).mpr h.2) ?_ ?_ ⟨hspans, hfit₀⟩ (hadm.returns hrun)
  · rintro r c o r' ⟨h, hle⟩ ⟨hpre, _⟩ hfit hs
    exact ⟨(h.keeps hpre hs).1, (h.fits_iff hle hpre hs).mpr hfit⟩
  · rintro r c ⟨h, hle⟩ ⟨hpre, o, r', hs⟩ hfit
    refine ⟨o, r', hs, fun hin => hfit ((h.fits_iff hle hpre hs).mp ?_)⟩
    exact ((h.keeps hpre hs).1.inRange_iff hv).mp hin

/-- With a heap of 4 MB there is room for many more regions. -/
theorem heap_inRange_iff_first : ∃ s₀, sampleHeap.heapInit = .ok s₀ ∧
    Machine.Always (InRange sampleHeap) step ⟨s₀, []⟩ [.malloc 100] := by
  obtain ⟨v, m, s₁, hinit, _, hpre, h₁⟩ := sampleHeap_malloc
  refine ⟨_, hinit, (heap_inRange_iff sampleHeap_vmOk sampleHeap_getsFrames hinit [.malloc 100]
    (.cons_of hpre h₁ trivial) (Machine.runAll_cons_of h₁ rfl)).mpr ⟨fun _ => ?_, fun _ _ _ => trivial⟩⟩
  show heapStart + 4096 * (heapBlocks + heapBlocks) ≤ heapEnd
  decide

/-! ## A run that leaves the range -/

/-- Blocks of at least a page each are no more than there are pages. -/
theorem Rep.length_live_le {fresh : Nat} {s : Heap} {l : List Blk} {live : List (Nat × Nat)}
    (h : Rep fresh s l live) (hsz : ∀ p ∈ live, 4096 - hdrSz ≤ p.2) :
    live.length ≤ s.blocksAllocked := by
  have hhdr : hdrSz = 16 := rfl
  -- the page in which the payload begins
  let page : Nat × Nat → Nat := fun p => (p.1 - heapStart - hdrSz) / 4096
  have hbounds : ∀ p ∈ live, heapStart + hdrSz ≤ p.1 ∧
      p.1 + (4096 - hdrSz) ≤ heapStart + 4096 * s.blocksAllocked := by
    intro p hp
    obtain ⟨b, hb, _, hp1, hp2⟩ := h.wf.holds p hp
    have hin := h.wf.tiles.bounds Blk.addr_lt_fin hb
    have := hsz p hp
    unfold Blk.fin at hin
    omega
  have hnd : (live.map page).Nodup := by
    have hlive := h.wf.nodup
    rw [List.Nodup, List.pairwise_map] at hlive ⊢
    refine hlive.imp_of_mem fun {p q} hp hq hpq hpage => ?_
    obtain ⟨b, hb, _, hp1, hp2⟩ := h.wf.holds p hp
    obtain ⟨c, hc, _, hq1, hq2⟩ := h.wf.holds q hq
    have hbc : b ≠ c := fun he => hpq (by rw [hp1, hq1, he])
    have hap := h.wf.tiles.apart_of_ne hb hc hbc
    have h1 := hsz p hp
    have h2 := hsz q hq
    have h3 := (h.wf.tiles.bounds Blk.addr_lt_fin hb).1
    have h4 := (h.wf.tiles.bounds Blk.addr_lt_fin hc).1
    simp only [page] at hpage
    unfold Apart Blk.fin at hap
    omega
  have hsub : live.map page ⊆ List.range s.blocksAllocked := by
    intro x hx
    obtain ⟨p, hp, rfl⟩ := List.mem_map.mp hx
    have := hbounds p hp
    rw [List.mem_range]
    simp only [page]
    omega
  have := (List.subperm_of_subset hnd hsub).length_le
  simpa using this

/-- A run that has allocated whole pages on a machine with 1 GB. -/
structure Filling (r : Run) : Prop where
  spans : Spans Vmm.initMap r
  sizes : ∀ p ∈ r.live, p.2 = 4080
  free : FreeFrom (1024 + 2 * r.heap.blocksAllocked) r.heap.vm.pmm
  sz : r.heap.vm.pmm.bitmapSz = 262144

theorem Filling.length_le {r : Run} (h : Filling r) : r.live.length ≤ r.heap.blocksAllocked := by
  obtain ⟨l, hrep, _⟩ := h.spans.blocks
  have hle := hrep.length_live_le fun p hp => by
    obtain ⟨q, hq, rfl⟩ := List.mem_map.mp hp
    show 4096 - hdrSz ≤ granted q.2
    rw [h.sizes q hq]
    decide
  rwa [Run.uses, List.length_map] at hle

/-- Growth takes two frames a page at most. -/
theorem Moves.freeFrom {s s' : Heap} {l l' : List Blk} {c : Call} {o : Nat} {A : PageMap}
    (hm : Moves s l c o l' s') (hv : VmOk s.vm A)
    (hb : heapStart + 4096 * (s.blocksAllocked + heapBlocks) ≤ 0xFFC00000)
    (hfree : FreeFrom (1024 + 2 * s.blocksAllocked) s.vm.pmm)
    (hsz : 1024 + 2 * s.blocksAllocked + 2 * heapBlocks < s.vm.pmm.bitmapSz) :
    FreeFrom (1024 + 2 * s'.blocksAllocked) s'.vm.pmm ∧
      s'.vm.pmm.bitmapSz = s.vm.pmm.bitmapSz := by
  cases hm with
  | malloc hpick _ =>
    cases hpick with
    | found _ _ => exact ⟨hfree, rfl⟩
    | grown _ _ _ hnew _ hblocks =>
      obtain ⟨s₂, hloop, h⟩ := Machine.bind_eq_ok.mp hnew
      obtain ⟨hfree', hsz'⟩ := mapLoop_freeFrom hv hb hfree (by omega) hsz hloop
      obtain ⟨_, rfl⟩ := Prod.mk.inj (Except.ok.inj h)
      dsimp only at hblocks ⊢
      rw [hblocks, Nat.mul_add, ← Nat.add_assoc]
      exact ⟨hfree', hsz'⟩
  | kept => exact ⟨hfree, rfl⟩
  | merged _ _ _ => exact ⟨hfree, rfl⟩
  | write => exact ⟨hfree, rfl⟩

/-- As long as the heap is in its range and two frames are free for each of its next pages, it can
grow for any allocation. -/
theorem Spans.malloc {r : Run} (h : Spans Vmm.initMap r)
    (hfree : FreeFrom (1024 + 2 * r.heap.blocksAllocked) r.heap.vm.pmm)
    (hsz : 1024 + 2 * r.heap.blocksAllocked + 2 * heapBlocks < r.heap.vm.pmm.bitmapSz)
    (hle : heapStart + 4096 * r.heap.blocksAllocked ≤ heapEnd) {sz : Nat}
    (hsmall : roundSz sz ≤ 4096 - hdrSz) :
    UsePre granted r (.malloc sz) ∧ ∃ p s', r.heap.heapMalloc sz = .ok (p, s') := by
  obtain ⟨l, hrep, _⟩ := h.blocks
  obtain ⟨A, hv, hadds⟩ := h.map
  have hend : heapEnd + 4096 * heapBlocks ≤ 0xFFC00000 := by decide
  have hbound : heapStart + 4096 * (r.heap.blocksAllocked + heapBlocks) ≤ 0xFFC00000 := by omega
  have hframes : GetsFrames heapBlocks r.heap :=
    getsFrames_of_freeFrom hv hbound hfree (by omega) hsz
  have hA : ∀ p, heapStart / kb4 + r.heap.blocksAllocked ≤ p → A p = none := by
    intro p hp
    have hlow : 1024 ≤ heapStart / kb4 := by decide
    rw [hadds.old p (.inr hp), Vmm.initMap, if_neg (by omega)]
  obtain ⟨v, _, hloop, _⟩ := mapLoop_ok hv hbound hframes hA
  exact ⟨⟨Nat.min_le_right _ _, fun _ _ => hframes⟩,
    hrep.heapMalloc_returns hsmall hframes ⟨_, _, by rw [heapGetNewBlock, hloop]; rfl⟩⟩

/-- As long as the heap is in its range, there is memory for another page. -/
theorem Filling.malloc {r : Run} (h : Filling r)
    (hle : heapStart + 4096 * r.heap.blocksAllocked ≤ heapEnd) :
    UsePre granted r (.malloc 4080) ∧ ∃ o r', step r (.malloc 4080) = .ok (o, r') ∧ Filling r' ∧
      r'.live.length = r.live.length + 1 := by
  obtain ⟨l, hrep, _⟩ := h.spans.blocks
  obtain ⟨A, hv, _⟩ := h.spans.map
  have hsz := h.sz
  have hend : heapEnd = heapStart + 4096 * 65536 := by decide
  have hwin : heapEnd + 4096 * heapBlocks ≤ 0xFFC00000 := by decide
  have hblocks : heapBlocks = 1024 := rfl
  have henough : 1024 + 2 * r.heap.blocksAllocked + 2 * heapBlocks < r.heap.vm.pmm.bitmapSz := by
    omega
  obtain ⟨hpre, p, s', hret⟩ :=
    h.spans.malloc h.free henough hle (show roundSz 4080 ≤ 4096 - hdrSz by decide)
  have hstep : step r (.malloc 4080) = .ok (p, ⟨s', (p, 4080) :: r.live⟩) := by
    simp only [step, hret]
  obtain ⟨_, _, hmoves⟩ := step_moves hrep hpre hstep
  obtain ⟨hfree', hsz'⟩ := hmoves.freeFrom hv (by omega) h.free henough
  refine ⟨hpre, _, _, hstep, ⟨(h.spans.keeps hpre hstep).1, fun q hq => ?_, hfree', hsz'.trans hsz⟩,
    rfl⟩
  rcases List.mem_cons.mp hq with rfl | hq
  · rfl
  · exact h.sizes q hq

/-- Allocating whole pages leads out of the range, as 65537 of them do not fit in. -/
theorem Filling.leaves {r : Run} (h : Filling r) : ∃ n os r', n ≤ 65537 ∧
      Machine.Admissible (UsePre granted) step r (List.replicate n (.malloc 4080)) ∧
      Machine.runAll step r (List.replicate n (.malloc 4080)) = .ok (os, r') ∧ Filling r' ∧
      ¬ heapStart + 4096 * r'.heap.blocksAllocked ≤ heapEnd := by
  refine Machine.exists_replicate (f := fun r => 65537 - r.live.length) (fun r h hle => ?_) h ?_
  · obtain ⟨hpre, o, r₁, h₁, hr₁, hlen⟩ := h.malloc hle
    have hmany := h.length_le
    have hend : heapEnd = heapStart + 4096 * 65536 := by decide
    exact ⟨hpre, o, r₁, h₁, hr₁, by omega⟩
  · exact Nat.sub_le _ _

/-- In the first region they leave no room for one more, as 1025 of them do not fit in. -/
theorem Filling.fills {r : Run} (h : Filling r) (hblocks : r.heap.blocksAllocked = heapBlocks) :
    ∃ n os r', n ≤ heapBlocks + 1 ∧
      Machine.Admissible (UsePre granted) step r (List.replicate n (.malloc 4080)) ∧
      Machine.runAll step r (List.replicate n (.malloc 4080)) = .ok (os, r') ∧
      (Filling r' ∧ r'.heap.blocksAllocked = heapBlocks) ∧
      ¬ needsBlock r'.heap (roundSz 4080) = false := by
  have hfit : heapStart + 4096 * heapBlocks ≤ heapEnd := by decide
  refine Machine.exists_replicate (f := fun r => heapBlocks + 1 - r.live.length)
    (fun r hr hno => ?_) ⟨h, hblocks⟩ (Nat.sub_le _ _)
  obtain ⟨h, hblocks⟩ := hr
  obtain ⟨hpre, o, r₁, h₁, hr₁, hlen⟩ := h.malloc (by rw [hblocks]; exact hfit)
  have hkeeps := (h.spans.keeps hpre h₁).2
  rw [grows, hno] at hkeeps
  have hmany := h.length_le
  exact ⟨hpre, o, r₁, h₁, ⟨hr₁, hkeeps.trans hblocks⟩, by omega⟩

theorem heapInit_freeFrom {s s₀ : Heap} {A : PageMap} (hv : VmOk s.vm A)
    (hfree : FreeFrom 1024 s.vm.pmm) (hsz : 1024 + 2 * heapBlocks < s.vm.pmm.bitmapSz)
    (hinit : s.heapInit = .ok s₀) :
    FreeFrom (1024 + 2 * heapBlocks) s₀.vm.pmm ∧ s₀.vm.pmm.bitmapSz = s.vm.pmm.bitmapSz := by
  have hbound : heapStart + 4096 * (0 + heapBlocks) ≤ 0xFFC00000 := by decide
  rw [heapInit_eq] at hinit
  split at hinit
  · cases hinit
  · rename_i s₁ hloop
    have h := mapLoop_freeFrom (s := { s with blocksAllocked := 0 }) hv hbound hfree (by omega) hsz
      hloop
    cases hinit
    exact h

/-- A machine with 1 GB before `vmm_init`. -/
def largeVmm : Vmm := { Vmm.sampleVmm with pmm := ⟨fun _ => 0#8, 262144⟩ }

def largeHeap : Heap :=
  { vm := largeVmm.vmmInit, mem := fun _ => 0#8, kernHeap := 0, blocksAllocked := 0 }

theorem largeHeap_vmOk : VmOk largeHeap.vm Vmm.initMap ∧ FreeFrom 1024 largeHeap.vm.pmm ∧
    largeHeap.vm.pmm.bitmapSz = 262144 := by
  have hvm : largeHeap.vm = largeVmm.vmmInit := rfl
  have htwo : Vmm.TwoFree largeVmm.pmm :=
    ⟨⟨1, by decide, by decide, by decide⟩, ⟨2, by decide, by decide, by decide⟩⟩
  obtain ⟨hfree, hsz⟩ := freeFrom_vmmInit (s := largeVmm) (by decide) htwo fun j => by
    simp [largeVmm, Pmm.isTaken, BitArray.isSet]
  rw [hvm]
  exact ⟨⟨Vmm.vmmInit_refines (by decide) htwo, 0, by omega, by decide⟩, hfree, hsz⟩

theorem largeHeap_getsFrames_mem (m : Mem) :
    GetsFrames heapBlocks { largeHeap with mem := m, blocksAllocked := 0 } := by
  obtain ⟨hv, hfree, hsz⟩ := largeHeap_vmOk
  have hbound : heapStart + 4096 * (0 + heapBlocks) ≤ 0xFFC00000 := by decide
  have henough : 1024 + 2 * heapBlocks < largeHeap.vm.pmm.bitmapSz := by rw [hsz]; decide
  exact getsFrames_of_freeFrom (s := { largeHeap with mem := m, blocksAllocked := 0 }) hv hbound hfree
    (by omega) henough

theorem largeHeap_getsFrames : GetsFrames heapBlocks { largeHeap with blocksAllocked := 0 } :=
  largeHeap_getsFrames_mem fun _ => 0#8

/-- What `heap_init` makes of it, whatever the heap's pages hold. -/
theorem largeHeap_init_mem (m : Mem) : ∃ v, ({ largeHeap with mem := m } : Heap).heapInit =
      .ok ⟨v, initBlock m heapStart 0, heapStart, heapBlocks⟩ ∧
    Filling ⟨⟨v, initBlock m heapStart 0, heapStart, heapBlocks⟩, []⟩ := by
  obtain ⟨hv, hfree, hsz⟩ := largeHeap_vmOk
  have hframes := largeHeap_getsFrames_mem m
  have hA : ∀ p, heapStart / kb4 ≤ p → Vmm.initMap p = none := by
    intro p hp
    have hlow : 1024 ≤ heapStart / kb4 := by decide
    rw [Vmm.initMap, if_neg (by omega)]
  have henough : 1024 + 2 * heapBlocks < largeHeap.vm.pmm.bitmapSz := by rw [hsz]; decide
  obtain ⟨v, _, hinit, _⟩ := heapInit_ok (s := { largeHeap with mem := m }) hv hframes hA
  obtain ⟨hspans, _⟩ := heapInit_spans (s := { largeHeap with mem := m }) hv hframes hinit
  obtain ⟨hfree₀, hsz₀⟩ := heapInit_freeFrom (s := { largeHeap with mem := m }) hv hfree henough hinit
  refine ⟨v, hinit, hspans, fun p hp => ?_, hfree₀, hsz₀.trans hsz⟩
  cases hp

theorem largeHeap_init : ∃ s₀, largeHeap.heapInit = .ok s₀ ∧ s₀.blocksAllocked = heapBlocks ∧
    Filling ⟨s₀, []⟩ := by
  obtain ⟨v, hinit, hfill⟩ := largeHeap_init_mem fun _ => 0#8
  exact ⟨_, hinit, rfl, hfill⟩

/-- On a machine with 1 GB at most 65537 allocations of a page lead out of the range. -/
theorem not_inRange_large : ∃ s₀ n os r, largeHeap.heapInit = .ok s₀ ∧ n ≤ 65537 ∧
    Machine.Admissible (UsePre granted) step ⟨s₀, []⟩ (List.replicate n (.malloc 4080)) ∧
    Machine.runAll step ⟨s₀, []⟩ (List.replicate n (.malloc 4080)) = .ok (os, r) ∧
    ¬ InRange largeHeap r := by
  obtain ⟨s₀, hinit, _, hfill⟩ := largeHeap_init
  obtain ⟨n, os, r, hn, hadm, hrun, hr, hout⟩ := hfill.leaves
  refine ⟨s₀, n, os, r, hinit, hn, hadm, hrun, fun hin => ?_⟩
  exact hout ((hr.spans.inRange_iff largeHeap_vmOk.1).mp hin)

end Heap
end Frod
