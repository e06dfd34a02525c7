import Frod.Heap.Range
import Frod.Heap.Reuse

/-!
# Frod.Heap.Terminate

`heap_malloc` terminates.

Neither its search nor its call to itself has a counter. `searchTraced` and `mallocTraced` are the
two with a record of what they do, the headers that are visited and the regions that are asked for;
they compute what the functions of the source compute (`searchTraced_snd`, `mallocTraced_snd`).

* The search stays within one round of the ring (`searchTraced_prefix`), and the ring is a cycle
  through `kern_heap` without repetitions.
* A search that finds nothing has gone once round the ring (`searchTraced_none`). The new region is
  then in second place, where the second search finds it (`Rep.terminates_grown`).
-/

namespace Frod
namespace Heap

open Vmm (PageMap)

/-! ## The search, recorded -/

/-- `searchLoop`, and the headers in whose place the body of the loop runs. -/
def searchTraced (m : Mem) (sz stop : Nat) : Nat → Nat → List Nat × Option Nat
  | 0, _ => ([], none)
  | n + 1, it =>
    if fits m sz it then ([it], some it)
    else if next m it = stop then ([it], some (next m it))
    else
      let rest := searchTraced m sz stop n (next m it)
      (it :: rest.1, rest.2)

theorem searchTraced_snd (m : Mem) (sz stop : Nat) : ∀ n it : Nat,
    (searchTraced m sz stop n it).2 = searchLoop m sz stop n it := by
  intro n
  induction n with
  | zero => intro it; rfl
  | succ n ih =>
    intro it
    simp only [searchTraced, searchLoop]
    split
    · rfl
    · split
      · rfl
      · exact ih _

/-- The search visits the ring in order, and does not go on after one round. -/
theorem searchTraced_prefix (m : Mem) (sz stop : Nat) : ∀ n it : Nat,
    (searchTraced m sz stop n it).1 <+: ringLoop m stop n it := by
  intro n
  induction n with
  | zero => intro it; exact List.prefix_rfl
  | succ n ih =>
    intro it
    simp only [searchTraced, ringLoop]
    split
    · exact List.prefix_cons_inj it |>.mpr List.nil_prefix
    · split
      · exact List.prefix_rfl
      · exact List.prefix_cons_inj it |>.mpr (ih _)

/-- A search that finds nothing visits all of it. -/
theorem searchTraced_none {m : Mem} {sz stop : Nat} : ∀ {n it : Nat},
    (∀ h ∈ ringLoop m stop n it, fits m sz h = false) →
    (searchTraced m sz stop n it).1 = ringLoop m stop n it := by
  intro n
  induction n with
  | zero => intro it _; rfl
  | succ n ih =>
    intro it hno
    simp only [ringLoop] at hno
    simp only [searchTraced, ringLoop, hno it List.mem_cons_self]
    split
    · contradiction
    · split
      · rfl
      · rename_i hnext
        rw [if_neg hnext] at hno
        rw [ih fun h hh => hno h (List.mem_cons_of_mem it hh)]

/-- A search whose second header is the first that fits visits two. -/
theorem searchTraced_second {m : Mem} {sz stop it c n : Nat} (hn : 2 ≤ n)
    (hno : fits m sz it = false) (hnext : next m it = c) (hne : c ≠ stop)
    (hfits : fits m sz c = true) : (searchTraced m sz stop n it).1 = [it, c] := by
  obtain ⟨n, rfl⟩ : ∃ k, n = k + 2 := ⟨n - 2, by omega⟩
  simp only [searchTraced, hno, hnext, if_neg hne, hfits, if_true, Bool.false_eq_true, if_false]

/-! ## `heap_malloc`, recorded -/

/-- One activation of `heap_malloc`: the heap it finds, the headers its search visits, and whether it
calls `heap_get_new_block`. -/
structure Pass where
  heap : Heap
  visited : List Nat
  grows : Bool

/-- `mallocLoop`, and its activations from the outermost on. -/
def mallocTraced : Nat → Heap → Nat → List Pass × Except Stop (Nat × Heap)
  | 0, _, _ => ([], .error .diverges)
  | n + 1, s, sz =>
    let sz := roundSz sz
    if sz > 4096 - hdrSz then
      ([⟨s, [], false⟩], .error (.panic "We don't have memory pages that big\n"))
    else
      let search := searchTraced s.mem sz s.kernHeap (2 ^ 32) s.kernHeap
      match search.2 with
      | none => ([⟨s, search.1, false⟩], .error .diverges)
      | some it =>
        if fits s.mem sz it then
          ([⟨s, search.1, false⟩],
            .ok ((it + hdrSz) % 2 ^ 32, { s with mem := takeBlock s.mem sz it }))
        else
          match s.heapGetNewBlock it with
          | .error e => ([⟨s, search.1, true⟩], .error e)
          | .ok (_, s₁) =>
            let rest := mallocTraced n s₁ sz
            (⟨s, search.1, true⟩ :: rest.1, rest.2)

theorem mallocTraced_snd : ∀ (n : Nat) (s : Heap) (sz : Nat),
    (mallocTraced n s sz).2 = mallocLoop n s sz := by
  intro n
  induction n with
  | zero => intro s sz; rfl
  | succ n ih =>
    intro s sz
    simp only [mallocTraced, mallocLoop, searchTraced_snd]
    by_cases hbig : roundSz sz > 4096 - hdrSz
    · rw [if_pos hbig, if_pos hbig]
    · rw [if_neg hbig, if_neg hbig]
      cases searchLoop s.mem (roundSz sz) s.kernHeap (2 ^ 32) s.kernHeap with
      | none => rfl
      | some it =>
        dsimp only
        by_cases hfits : fits s.mem (roundSz sz) it = true
        · rw [if_pos hfits, if_pos hfits]
        · rw [if_neg hfits, if_neg hfits]
          cases s.heapGetNewBlock it with
          | error e => rfl
          | ok new => exact ih new.2 (roundSz sz)

/-- The activations of `heap_malloc(sz)`. -/
def passes (s : Heap) (sz : Nat) : List Pass := (mallocTraced 1025 s sz).1

/-- A call that returns is recorded with what it returns. -/
theorem mallocTraced_of_returns {s s' : Heap} {sz p : Nat} (h : s.heapMalloc sz = .ok (p, s')) :
    mallocTraced 1025 s sz = (passes s sz, .ok (p, s')) := by
  rw [heapMalloc, ← mallocTraced_snd] at h
  rw [passes, ← h]

/-- The headers that a search for `sz` bytes visits. -/
def visits (s : Heap) (sz : Nat) : List Nat :=
  (searchTraced s.mem sz s.kernHeap (2 ^ 32) s.kernHeap).1

section Rep

variable {fresh : Nat} {s : Heap} {l : List Blk} {live : List (Nat × Nat)}

/-- The headers of the ring are a cycle through `kern_heap` without repetitions. -/
theorem Rep.cycle (h : Rep fresh s l live) : (headers s).Nodup ∧
    (next s.mem)^[(headers s).length] s.kernHeap = s.kernHeap := by
  rw [h.headers_eq]
  exact ⟨h.addr_nodup, h.tiled.back⟩

theorem Rep.fits_headers (h : Rep fresh s l live) (sz : Nat) :
    (∀ a ∈ headers s, fits s.mem sz a = false) ↔ l.find? (Blk.fits sz) = none := by
  rw [h.headers_eq, List.forall_mem_map, List.find?_eq_none]
  refine forall₂_congr fun b hb => ?_
  obtain ⟨nx, hhdr⟩ := h.hdr hb
  rw [hhdr.fits, Bool.not_eq_true]

theorem Rep.mallocTraced_found (h : Rep fresh s l live) {sz : Nat}
    (hsz : roundSz sz ≤ 4096 - hdrSz) {b : Blk}
    (hfind : l.find? (Blk.fits (roundSz sz)) = some b) (n : Nat) :
    (mallocTraced (n + 1) s sz).1 = [⟨s, visits s (roundSz sz), false⟩] := by
  have hsearch := h.search (roundSz sz)
  rw [hfind] at hsearch
  simp only [mallocTraced, searchTraced_snd, if_neg (Nat.not_lt.mpr hsz), hsearch,
    h.fits_found hfind, if_true, visits]

theorem Rep.mallocTraced_none (h : Rep fresh s l live) {sz : Nat}
    (hsz : roundSz sz ≤ 4096 - hdrSz) (hfind : l.find? (Blk.fits (roundSz sz)) = none) {ret : Nat}
    {s₁ : Heap} (hnew : s.heapGetNewBlock s.kernHeap = .ok (ret, s₁)) (n : Nat) :
    (mallocTraced (n + 1) s sz).1 =
      ⟨s, visits s (roundSz sz), true⟩ :: (mallocTraced n s₁ (roundSz sz)).1 := by
  have hsearch := h.search (roundSz sz)
  rw [hfind] at hsearch
  simp only [mallocTraced, searchTraced_snd, if_neg (Nat.not_lt.mpr hsz), hsearch,
    h.fits_head hfind, hnew, visits, Bool.false_eq_true, if_false]

/-- Where nothing fits, the search goes once round the ring. -/
theorem Rep.visits_none (h : Rep fresh s l live) {sz : Nat}
    (hfind : l.find? (Blk.fits sz) = none) : visits s sz = headers s :=
  searchTraced_none ((h.fits_headers sz).mpr hfind)

/-- Where the first block is used and the second one fits, the search visits these two. -/
theorem Rep.visits_second {b c : Blk} {t : List Blk} (h : Rep fresh s (b :: c :: t) live) {sz : Nat}
    (hb : b.used = true) (hc : c.fits sz = true) : visits s sz = [s.kernHeap, c.addr] := by
  obtain ⟨b', t', heq, hk⟩ := h.head
  obtain ⟨rfl, rfl⟩ := List.cons.inj heq
  have hnext : next s.mem s.kernHeap = c.addr := by rw [← hk]; exact h.ring.1.next
  have hne : c.addr ≠ s.kernHeap := by rw [← hk]; exact h.addr_ne_head c (by simp)
  have hno : fits s.mem sz s.kernHeap = false := by
    rw [← hk, h.ring.1.fits]
    simp [Blk.fits, hb]
  have hfits : fits s.mem sz c.addr = true := by rw [h.ring.2.1.fits]; exact hc
  exact searchTraced_second (by omega) hno hnext hne hfits

end Rep

/-! ## Termination -/

/-- What a call `heap_malloc(sz)` does: it returns, after searches that visit each header at most
once, and it needs at most one new region and one call to itself. -/
structure Terminates (s : Heap) (sz : Nat) : Prop where
  returns : ∃ p s', s.heapMalloc sz = .ok (p, s') ∧
    mallocTraced 1025 s sz = (passes s sz, .ok (p, s'))
  /-- Following `next` from `kern_heap` leads back to it, past each header of the ring once. -/
  ring : ∀ q ∈ passes s sz, (headers q.heap).Nodup ∧
    (next q.heap.mem)^[(headers q.heap).length] q.heap.kernHeap = q.heap.kernHeap
  /-- Every search follows the ring and stops within one round. -/
  once : ∀ q ∈ passes s sz, q.visited.Nodup ∧ q.visited <+: headers q.heap
  depth : (passes s sz).length ≤ 2
  growths : (passes s sz).countP Pass.grows ≤ 1
  /-- When no header fits, the new region is the second header of the ring, and the second search
  takes it. -/
  second : (∀ h ∈ headers s, fits s.mem (roundSz sz) h = false) →
    ∃ ret s₁ s' t, s.heapGetNewBlock s.kernHeap = .ok (ret, s₁) ∧
      headers s₁ = s₁.kernHeap :: ret :: t ∧
      passes s sz = [⟨s, headers s, true⟩, ⟨s₁, [s₁.kernHeap, ret], false⟩] ∧
      s.heapMalloc sz = .ok (ret + hdrSz, s')

section Terminates

variable {s : Heap} {l : List Blk} {live : List (Nat × Nat)} {sz : Nat}

/-- A search in a ring visits each header at most once. -/
theorem Rep.visits_once {fresh : Nat} (h : Rep fresh s l live) (sz : Nat) :
    (visits s sz).Nodup ∧ visits s sz <+: headers s := by
  have hprefix : visits s sz <+: headers s := searchTraced_prefix s.mem sz s.kernHeap _ _
  exact ⟨h.cycle.1.sublist hprefix.sublist, hprefix⟩

/-- A call that finds a block is one activation. -/
theorem Rep.terminates_found (h : Rep 0 s l live) (hsz : roundSz sz ≤ 4096 - hdrSz) {b : Blk}
    (hfind : l.find? (Blk.fits (roundSz sz)) = some b) : Terminates s sz := by
  have hpasses : passes s sz = [⟨s, visits s (roundSz sz), false⟩] :=
    h.mallocTraced_found hsz hfind 1024
  have hret : s.heapMalloc sz = _ := h.mallocLoop_found hsz hfind 1024
  refine ⟨⟨_, _, hret, mallocTraced_of_returns hret⟩, ?_, ?_, ?_, ?_, fun hno => ?_⟩
  · rw [hpasses, List.forall_mem_singleton]
    exact h.cycle
  · rw [hpasses, List.forall_mem_singleton]
    exact h.visits_once _
  · rw [hpasses]; simp
  · rw [hpasses]; simp
  · rw [h.fits_headers, hfind] at hno
    cases hno

/-- A call that finds none is two, with the region that is added in second place between them. -/
theorem Rep.terminates_grown (h : Rep 0 s l live) (hsz : roundSz sz ≤ 4096 - hdrSz)
    (hfind : l.find? (Blk.fits (roundSz sz)) = none) (hf : GetsFrames heapBlocks s) {ret : Nat}
    {s₁ : Heap} (hnew : s.heapGetNewBlock s.kernHeap = .ok (ret, s₁)) : Terminates s sz := by
  obtain ⟨b, t, rfl, hk⟩ := h.head
  obtain ⟨hb, hsecond⟩ := h.wf.used_of_find?_none hsz hfind
  obtain ⟨_, _, hkern, _, hrep⟩ := h.grow hb hsecond hf hnew
  obtain ⟨_, hround⟩ := roundSz_roundSz hsz
  have hfind₁ := find?_newBlk hb hround ret t
  have hvisits := hrep.visits_second hb (newBlk_fits hround ret b.addr)
  have hpasses : passes s sz = [⟨s, headers s, true⟩, ⟨s₁, [s₁.kernHeap, ret], false⟩] := by
    rw [passes, h.mallocTraced_none hsz hfind hnew, h.visits_none hfind,
      hrep.mallocTraced_found hround hfind₁, hvisits]
    rfl
  have hret : s.heapMalloc sz =
      .ok (ret + hdrSz, { s₁ with mem := takeBlock s₁.mem (roundSz (roundSz sz)) ret }) := by
    rw [heapMalloc, h.mallocLoop_none hsz hfind, hnew]
    exact hrep.mallocLoop_found hround hfind₁ 1023
  have hheaders : headers s₁ = s₁.kernHeap :: ret :: t.map Blk.addr := by
    rw [hrep.headers_eq, hkern, ← hk]
    rfl
  have hone := hrep.visits_once (roundSz (roundSz sz))
  rw [hvisits] at hone
  refine ⟨⟨_, _, hret, mallocTraced_of_returns hret⟩, ?_, ?_, ?_, ?_, fun _ => ?_⟩
  · rw [hpasses, List.forall_mem_cons, List.forall_mem_singleton]
    exact ⟨h.cycle, hrep.cycle⟩
  · rw [hpasses, List.forall_mem_cons, List.forall_mem_singleton]
    exact ⟨⟨h.cycle.1, List.prefix_rfl⟩, hone⟩
  · rw [hpasses]; simp
  · rw [hpasses]; simp
  · exact ⟨ret, s₁, _, _, hnew, hheaders, hpasses, hret⟩

/-- With frames the heap grows or the kernel panics. -/
theorem Rep.heapGetNewBlock_cases {fresh : Nat} (h : Rep fresh s l live)
    (hf : GetsFrames heapBlocks s) (prev : Nat) :
    (∃ ret s₁, s.heapGetNewBlock prev = .ok (ret, s₁)) ∨
      s.heapGetNewBlock prev = .error (.panic "Unable to map page") := by
  obtain ⟨A, hv⟩ := h.vm
  rcases mapLoop_cases hv h.bound hf with ⟨s₁, hloop⟩ | hloop
  · refine .inl ⟨s.nextPage, { s₁ with mem := initBlock s₁.mem s.nextPage prev }, ?_⟩
    rw [heapGetNewBlock, hloop]
    rfl
  · rw [heapGetNewBlock, hloop]
    exact .inr rfl

/-- **`heap_malloc` terminates.** In every state of every run from `heap_init`, with frames for a new
region if one is needed, a call that does not panic returns: each of its searches visits every header
at most once, and if no header fits, the one region that is added is found in second place by the one
call of `heap_malloc` to itself. -/
theorem heapMalloc_terminates {s s₀ : Heap} {A : PageMap} (hv : VmOk s.vm A)
    (hf : GetsFrames heapBlocks { s with blocksAllocked := 0 }) (hinit : s.heapInit = .ok s₀)
    (calls : List Call) (hadm : Machine.Admissible (UsePre granted) step ⟨s₀, []⟩ calls)
    {os : List Nat} {r : Run} (hrun : Machine.runAll step ⟨s₀, []⟩ calls = .ok (os, r)) {sz : Nat}
    (hframes : needsBlock r.heap (roundSz sz) = true → GetsFrames heapBlocks r.heap)
    (hpanic : ∀ msg, r.heap.heapMalloc sz ≠ .error (.panic msg)) : Terminates r.heap sz := by
  obtain ⟨l, hrep⟩ := run_uses hv hf hinit hadm hrun
  have hsz : roundSz sz ≤ 4096 - hdrSz := by
    by_contra hbig
    exact hpanic _ (mallocLoop_big (Nat.not_le.mp hbig) 1024)
  cases hfind : l.find? (Blk.fits (roundSz sz)) with
  | some b => exact hrep.terminates_found hsz hfind
  | none =>
    have hgets := hframes ((hrep.needsBlock_iff _).mpr hfind)
    rcases hrep.heapGetNewBlock_cases hgets r.heap.kernHeap with ⟨ret, s₁, hnew⟩ | hnew
    · exact hrep.terminates_grown hsz hfind hgets hnew
    · -- the loop of `heap_get_new_block` panics, and with it the call
      have hmalloc := hrep.mallocLoop_none hsz hfind 1024
      rw [hnew] at hmalloc
      exact absurd hmalloc (hpanic _)

/-- On a machine with 1 GB, after allocations of a page that have filled the first region, one more
finds its block in the second. -/
theorem heapMalloc_terminates_filled : ∃ s₀ n os r, largeHeap.heapInit = .ok s₀ ∧
    Machine.runAll step ⟨s₀, []⟩ (List.replicate n (.malloc 4080)) = .ok (os, r) ∧
    (∀ h ∈ headers r.heap, fits r.heap.mem (roundSz 4080) h = false) ∧ Terminates r.heap 4080 := by
  obtain ⟨s₀, hinit, hblocks₀, hfill₀⟩ := largeHeap_init
  obtain ⟨n, os, r, _, hadm, hrun, ⟨hfill, hblocks⟩, hneeds⟩ := hfill₀.fills hblocks₀
  rw [Bool.not_eq_false] at hneeds
  obtain ⟨l, hrep, _⟩ := hfill.spans.blocks
  have hsz : roundSz 4080 ≤ 4096 - hdrSz := by decide
  obtain ⟨hpre, o, r', hstep, _⟩ := hfill.malloc (by rw [hblocks]; decide)
  refine ⟨s₀, n, os, r, hinit, hrun, (hrep.fits_headers _).mpr ((hrep.needsBlock_iff _).mp hneeds),
    heapMalloc_terminates largeHeap_vmOk.1 largeHeap_getsFrames hinit _ hadm hrun (hpre.2 hsz)
      fun msg hpanic => ?_⟩
  simp only [step, hpanic] at hstep
  cases hstep

end Terminates

end Heap
end Frod
