import Frod.Heap.Range

/-!
# Frod.Heap.Reuse

What becomes of memory that is freed.

`heap_free` checks the used flag and the magic values and merges the next block, but it leaves the
used flag set. The block that held the allocation is never found again, and an allocation of the same
size only succeeds without growth if the ring held a second block that fits all along
(`reuse_iff`).
-/

namespace Frod
namespace Heap

open Vmm (PageMap)

/-! ## The headers of the ring -/

/-- The headers from `it` on, until `next` is back at `stop`. -/
def ringLoop (m : Mem) (stop : Nat) : Nat → Nat → List Nat
  | 0, _ => []
  | n + 1, it => it :: if next m it = stop then [] else ringLoop m stop n (next m it)

/-- The headers in ring order. -/
def headers (s : Heap) : List Nat := ringLoop s.mem s.kernHeap (2 ^ 32) s.kernHeap

theorem ringLoop_eq {m : Mem} {stop : Nat} : ∀ {l : List Blk} {b : Blk} {n : Nat},
    Ring m stop (b :: l) → (∀ c ∈ l, c.addr ≠ stop) → l.length < n →
    ringLoop m stop n b.addr = (b :: l).map Blk.addr := by
  intro l
  induction l with
  | nil =>
    intro b n h _ hn
    obtain ⟨n, rfl⟩ : ∃ k, n = k + 1 := ⟨n - 1, by omega⟩
    have hnx : next m b.addr = stop := h.1.next
    simp [ringLoop, hnx]
  | cons c l ih =>
    intro b n h hstop hn
    obtain ⟨n, rfl⟩ : ∃ k, n = k + 1 := ⟨n - 1, by omega⟩
    have hnx : next m b.addr = c.addr := h.1.next
    have ih := ih (n := n) h.2 (fun d hd => hstop d (by simp [hd])) (by
      simp only [List.length_cons] at hn; omega)
    rw [ringLoop, hnx, if_neg (hstop c (by simp)), ih]
    rfl

section Rep

variable {s : Heap} {l : List Blk} {live : List (Nat × Nat)}

theorem Rep.headers_eq {fresh : Nat} (h : Rep fresh s l live) : headers s = l.map Blk.addr := by
  obtain ⟨b, t, rfl, hb⟩ := h.head
  have hlen := h.length_le
  rw [List.length_cons] at hlen
  rw [headers, ← hb]
  exact ringLoop_eq (hb ▸ h.ring) (hb ▸ h.addr_ne_head) (by omega)

theorem Rep.filter_headers (h : Rep 0 s l live) (sz : Nat) :
    (headers s).filter (fits s.mem sz) = (l.filter (Blk.fits sz)).map Blk.addr := by
  rw [h.headers_eq, List.filter_map]
  congr 1
  apply List.filter_congr
  intro b hb
  obtain ⟨nx, hhdr⟩ := h.hdr hb
  exact hhdr.fits sz

/-! ## Allocating and freeing -/

/-- Taking a block and freeing it again leaves the ring as it was, but for the used flag. -/
theorem Rep.take_free {l₁ l₂ : List Blk} {b : Blk} (h : Rep b.addr s (l₁ ++ b :: l₂) live)
    (hb : b.used = false) {sz : Nat} (hsz : sz ≤ b.size) (hpage : sz ≤ 4096 - hdrSz) :
    (b.magic = false ∧ ∃ e, heapFree { s with mem := takeBlock s.mem sz b.addr } (b.addr + hdrSz) =
        .error e) ∨
      (b.magic = true ∧ ∃ s₂ b₂, heapFree { s with mem := takeBlock s.mem sz b.addr }
          (b.addr + hdrSz) = .ok s₂ ∧ s₂.blocksAllocked = s.blocksAllocked ∧ b₂.used = true ∧
        b₂.addr = b.addr ∧ Rep 0 s₂ (l₁ ++ b₂ :: l₂) ((b.addr + hdrSz, sz) :: live)) := by
  have hrep := h.take hb hsz hpage (Nat.le_refl sz)
  generalize hs₁ : ({ s with mem := takeBlock s.mem sz b.addr } : Heap) = s₁ at hrep ⊢
  have hblocks : s₁.blocksAllocked = s.blocksAllocked := by rw [← hs₁]
  unfold Blk.take at hrep
  split at hrep
  · -- the rest of the split is merged again
    have hrep : Rep 0 s₁ (l₁ ++ { b with used := true, size := sz } ::
        b.rest sz (hasMagic s.mem (b.addr + hdrSz + sz)) :: l₂) ((b.addr + hdrSz, sz) :: live) := by
      simpa using hrep
    rcases hrep.heapFree_cases rfl with ⟨hm, hf⟩ | ⟨_, hno, _⟩ | ⟨hm, c, l₃, heq, hc, hf⟩
    · exact .inl ⟨hm, _, hf⟩
    · have := hno _ rfl
      simp [Blk.rest] at this
    · obtain ⟨rfl, rfl⟩ := List.cons.inj heq
      exact .inr ⟨hm, _, Blk.absorb { b with used := true, size := sz } _, hf, hblocks, rfl, rfl,
        hrep.absorb rfl hc⟩
  · have hrep : Rep 0 s₁ (l₁ ++ { b with used := true } :: l₂) ((b.addr + hdrSz, sz) :: live) := by
      simpa using hrep
    rcases hrep.heapFree_cases rfl with ⟨hm, hf⟩ | ⟨hm, _, hf⟩ | ⟨_, c, l₃, heq, hc, _⟩
    · exact .inl ⟨hm, _, hf⟩
    · exact .inr ⟨hm, _, { b with used := true }, hf, hblocks, rfl, rfl, hrep⟩
    · have := h.wf.next_used hb (y := c) (by rw [heq]; rfl)
      rw [hc] at this
      cases this

end Rep

/-! ## Growth shows in `blocks_allocked` -/

theorem mapLoop_blocks : ∀ {n : Nat} {s s' : Heap}, mapLoop n s = .ok s' →
    s'.blocksAllocked % 2 ^ 32 = (s.blocksAllocked + n) % 2 ^ 32 := by
  intro n
  induction n with
  | zero => intro s s' h; cases h; rfl
  | succ n ih =>
    intro s s' h
    simp only [mapLoop, bind, Except.bind] at h
    split at h
    · cases h
    · rename_i s₁ hpage
      have h1 : s₁.blocksAllocked = (s.blocksAllocked + 1) % 2 ^ 32 := by
        simp only [mapHeapPage, bind, Except.bind] at hpage
        split at hpage
        · cases hpage
        · split at hpage
          · cases hpage
          · cases hpage; rfl
      rw [ih h, h1]
      omega

/-- The heap grows by whole regions, at least one if the search has found nothing. -/
theorem mallocLoop_blocks : ∀ {n sz p : Nat} {s s' : Heap}, mallocLoop n s sz = .ok (p, s') →
    ∃ k, k < n ∧ s'.blocksAllocked % 2 ^ 32 = (s.blocksAllocked + heapBlocks * k) % 2 ^ 32 ∧
      (needsBlock s (roundSz sz) = true → 1 ≤ k) := by
  intro n
  induction n with
  | zero => intro sz p s s' h; cases h
  | succ n ih =>
    intro sz p s s' h
    simp only [mallocLoop] at h
    split at h
    · cases h
    · split at h
      · cases h
      · rename_i it hsearch
        split at h
        · rename_i hfits
          cases h
          refine ⟨0, by omega, by simp, fun hn => ?_⟩
          rw [needsBlock, hsearch] at hn
          simp [hfits] at hn
        · split at h
          · cases h
          · rename_i ret s₁ hnew
            obtain ⟨k, hk, hblocks, _⟩ := ih h
            have h1 : s₁.blocksAllocked % 2 ^ 32 = (s.blocksAllocked + heapBlocks) % 2 ^ 32 := by
              simp only [heapGetNewBlock, bind, Except.bind] at hnew
              split at hnew
              · cases hnew
              · rename_i s₂ hloop
                have := mapLoop_blocks hloop
                cases hnew
                exact this
            refine ⟨k + 1, by omega, ?_, fun _ => by omega⟩
            unfold heapBlocks at *
            omega

/-- An allocation that has to grow the heap changes `blocks_allocked`. -/
theorem heapMalloc_blocks_ne {s s' : Heap} {sz p : Nat} (h : s.heapMalloc sz = .ok (p, s'))
    (hn : needsBlock s (roundSz sz) = true) : s'.blocksAllocked ≠ s.blocksAllocked := by
  obtain ⟨k, hk, hblocks, h1⟩ := mallocLoop_blocks h
  have := h1 hn
  intro he
  rw [he] at hblocks
  unfold heapBlocks at hblocks
  omega

/-! ## When freed memory can be had again -/

/-- Allocating, freeing and allocating again succeeds, and the second allocation does not grow the
heap. -/
def Reusable (s : Heap) (sz : Nat) : Prop :=
  ∃ p s₁ s₂ q s₃, s.heapMalloc sz = .ok (p, s₁) ∧ s₁.heapFree p = .ok s₂ ∧
    s₂.heapMalloc sz = .ok (q, s₃) ∧ s₃.blocksAllocked = s₂.blocksAllocked

/-- The ring holds a second block that fits, and the first one can be freed. -/
def TwoFit (s : Heap) (sz : Nat) : Prop :=
  ∃ h₁ h₂ t, (headers s).filter (fits s.mem sz) = h₁ :: h₂ :: t ∧ hasMagic s.mem h₁ = true

section Reuse

variable {s : Heap} {l : List Blk} {live : List (Nat × Nat)} {sz : Nat} (h : Rep 0 s l live)
include h

theorem Rep.twoFit_iff {l₁ l₂ : List Blk} {b : Blk} (hl : l = l₁ ++ b :: l₂)
    (hfirst : ∀ a ∈ l₁, a.fits sz = false) (hb : b.fits sz = true) :
    TwoFit s sz ↔ b.magic = true ∧ ∃ c, l₂.find? (Blk.fits sz) = some c := by
  have hbm : hasMagic s.mem b.addr = b.magic := by
    obtain ⟨nx, hhdr⟩ := h.hdr (b := b) (by rw [hl]; simp)
    exact hhdr.magic
  have hfilter : (headers s).filter (fits s.mem sz) =
      b.addr :: (l₂.filter (Blk.fits sz)).map Blk.addr := by
    rw [h.filter_headers, hl, List.filter_append, List.filter_cons_of_pos hb,
      List.filter_eq_nil_iff.mpr fun a ha => by simp [hfirst a ha]]
    rfl
  rw [TwoFit, hfilter, ← List.head?_filter]
  constructor
  · rintro ⟨h₁, h₂, t, heq, hm⟩
    obtain ⟨rfl, heq⟩ := List.cons.inj heq
    cases hf : l₂.filter (Blk.fits sz) with
    | nil => rw [hf] at heq; cases heq
    | cons c u => exact ⟨by rw [← hbm]; exact hm, c, rfl⟩
  · rintro ⟨hm, c, hc⟩
    cases hf : l₂.filter (Blk.fits sz) with
    | nil => rw [hf] at hc; cases hc
    | cons d u => exact ⟨_, _, _, rfl, by rw [hbm]; exact hm⟩

/-- The case that a block fits: the third call finds the next one that fits, or grows the heap. -/
theorem Rep.reuse_found (hsmall : roundSz sz ≤ 4096 - hdrSz) {b : Blk}
    (hfind : l.find? (Blk.fits (roundSz sz)) = some b) :
    (Reusable s sz ↔ TwoFit s (roundSz sz)) ∧
      ∀ p s₁ s₂, s.heapMalloc sz = .ok (p, s₁) → s₁.heapFree p = .ok s₂ →
        used s₂.mem (p - hdrSz) = 1 := by
  obtain ⟨hb, l₁, l₂, hl, hfirst⟩ := List.find?_eq_some_iff_append.mp hfind
  have hfirst : ∀ a ∈ l₁, a.fits (roundSz sz) = false := fun a ha => by simpa using hfirst a ha
  have hmalloc : s.heapMalloc sz = _ := h.mallocLoop_found hsmall hfind 1024
  have hfits := hb
  simp only [Blk.fits, Bool.and_eq_true, Bool.not_eq_true', decide_eq_true_eq] at hfits
  have hfree := (hl ▸ h).weaken.take_free hfits.1 hfits.2 hsmall
  rw [h.twoFit_iff hl hfirst hb]
  rcases hfree with ⟨hm, e, he⟩ | ⟨hm, s₂, b₂, hs₂, hblocks, hb₂, hb₂a, hrep⟩
  · refine ⟨⟨?_, fun hc => ?_⟩, fun p s₁ s₂ h1 h2 => ?_⟩
    · rintro ⟨p, s₁, s₂, q, s₃, h1, h2, _⟩
      rw [hmalloc] at h1
      obtain ⟨rfl, rfl⟩ := Prod.mk.inj (Except.ok.inj h1)
      rw [he] at h2
      cases h2
    · rw [hm] at hc
      cases hc.1
    · rw [hmalloc] at h1
      obtain ⟨rfl, rfl⟩ := Prod.mk.inj (Except.ok.inj h1)
      rw [he] at h2
      cases h2
  · -- after the call to `heap_free` the block is used, the others are as before
    have hfind₂ : (l₁ ++ b₂ :: l₂).find? (Blk.fits (roundSz sz)) =
        l₂.find? (Blk.fits (roundSz sz)) := by
      rw [List.find?_append, List.find?_eq_none.mpr fun a ha => by simp [hfirst a ha],
        Option.none_or, List.find?_cons_of_neg (by simp [Blk.fits, hb₂])]
    refine ⟨⟨?_, ?_⟩, fun p s₁ s₂' h1 h2 => ?_⟩
    · rintro ⟨p, s₁, s₂', q, s₃, h1, h2, h3, h4⟩
      rw [hmalloc] at h1
      obtain ⟨rfl, rfl⟩ := Prod.mk.inj (Except.ok.inj h1)
      rw [hs₂] at h2
      obtain rfl := Except.ok.inj h2
      refine ⟨hm, ?_⟩
      cases hc : l₂.find? (Blk.fits (roundSz sz)) with
      | some c => exact ⟨c, rfl⟩
      | none =>
        rw [hc] at hfind₂
        exact absurd h4 (heapMalloc_blocks_ne h3 ((hrep.needsBlock_iff _).mpr hfind₂))
    · rintro ⟨_, c, hc⟩
      rw [hc] at hfind₂
      have hagain : s₂.heapMalloc sz = _ := hrep.mallocLoop_found hsmall hfind₂ 1024
      exact ⟨_, _, s₂, _, _, hmalloc, hs₂, hagain, rfl⟩
    · rw [hmalloc] at h1
      obtain ⟨rfl, rfl⟩ := Prod.mk.inj (Except.ok.inj h1)
      rw [hs₂] at h2
      obtain rfl := Except.ok.inj h2
      obtain ⟨nx, hhdr⟩ := hrep.hdr (b := b₂) (by simp)
      rw [Nat.add_sub_cancel, ← hb₂a, hhdr.used, hb₂]
      rfl

/-- The case that none fits: the heap grows twice. -/
theorem Rep.reuse_grown (hsmall : roundSz sz ≤ 4096 - hdrSz)
    (hfind : l.find? (Blk.fits (roundSz sz)) = none) (hf : GetsFrames heapBlocks s) :
    (Reusable s sz ↔ TwoFit s (roundSz sz)) ∧
      ∀ p s₁ s₂, s.heapMalloc sz = .ok (p, s₁) → s₁.heapFree p = .ok s₂ →
        used s₂.mem (p - hdrSz) = 1 := by
  have hno : ¬ TwoFit s (roundSz sz) := by
    rintro ⟨h₁, h₂, t, heq, _⟩
    rw [h.filter_headers, List.filter_eq_nil_iff.mpr (List.find?_eq_none.mp hfind)] at heq
    cases heq
  obtain ⟨b, t, rfl, _⟩ := h.head
  obtain ⟨hbu, _⟩ := h.wf.used_of_find?_none hsmall hfind
  -- after the first two calls the new region is used as a whole
  have hfree : ∀ {p s₁ s₂}, s.heapMalloc sz = .ok (p, s₁) → s₁.heapFree p = .ok s₂ →
      ∃ b₂ live₂, Rep 0 s₂ ([b] ++ b₂ :: t) live₂ ∧ b₂.used = true ∧ b₂.addr = p - hdrSz := by
    intro p s₁ s₂ h1 h2
    obtain ⟨sg, ret, _, _, _, _, _, hrep, rfl, rfl⟩ := h.heapMalloc_grown hsmall hfind hf h1
    obtain ⟨_, hround⟩ := roundSz_roundSz hsmall
    have hfits := newBlk_fits hround ret b.addr
    simp only [Blk.fits, Bool.and_eq_true, Bool.not_eq_true', decide_eq_true_eq] at hfits
    have hrep : Rep (newBlk ret b.addr).addr sg ([b] ++ newBlk ret b.addr :: t) live := hrep
    rcases hrep.take_free rfl hfits.2 hround with ⟨hm, _⟩ | ⟨_, s₂', b₂, hs₂, _, hb₂, hb₂a, hrep₂⟩
    · cases hm
    · rw [show (newBlk ret b.addr).addr = ret from rfl] at hs₂ hb₂a
      rw [hs₂] at h2
      obtain rfl := Except.ok.inj h2
      exact ⟨b₂, _, hrep₂, hb₂, by rw [hb₂a, Nat.add_sub_cancel]⟩
  refine ⟨⟨?_, fun hc => absurd hc hno⟩, ?_⟩
  · rintro ⟨p, s₁, s₂, q, s₃, h1, h2, h3, h4⟩
    obtain ⟨b₂, live₂, hrep, hb₂, _⟩ := hfree h1 h2
    have hfind₂ : ([b] ++ b₂ :: t).find? (Blk.fits (roundSz sz)) = none := by
      rw [List.find?_eq_none] at hfind ⊢
      intro x hx
      simp only [List.cons_append, List.nil_append, List.mem_cons] at hx
      rcases hx with rfl | rfl | hx
      · exact hfind x (by simp)
      · simp [Blk.fits, hb₂]
      · exact hfind x (by simp [hx])
    exact absurd h4 (heapMalloc_blocks_ne h3 ((hrep.needsBlock_iff _).mpr hfind₂))
  · intro p s₁ s₂ h1 h2
    obtain ⟨b₂, live₂, hrep, hb₂, hb₂a⟩ := hfree h1 h2
    obtain ⟨nx, hhdr⟩ := hrep.hdr (b := b₂) (by simp)
    rw [← hb₂a, hhdr.used, hb₂]
    rfl

end Reuse

/-- **Freed memory.** In every state of every run, and for every size that `heap_malloc` admits, with
frames for a new region if one is needed, allocating, freeing and allocating again does without growth
exactly when the ring already holds two unused blocks that fit and the first of them carries the magic
values. In any case the block that was freed stays marked used. -/
theorem reuse_iff {s s₀ : Heap} {A : PageMap} (hv : VmOk s.vm A)
    (hf : GetsFrames heapBlocks { s with blocksAllocked := 0 }) (hinit : s.heapInit = .ok s₀)
    (calls : List Call) (hadm : Machine.Admissible (UsePre granted) step ⟨s₀, []⟩ calls)
    {os : List Nat} {r : Run} (hrun : Machine.runAll step ⟨s₀, []⟩ calls = .ok (os, r)) {sz : Nat}
    (hsmall : roundSz sz ≤ 4096 - hdrSz)
    (hframes : needsBlock r.heap (roundSz sz) = true → GetsFrames heapBlocks r.heap) :
    (Reusable r.heap sz ↔ TwoFit r.heap (roundSz sz)) ∧
      ∀ p s₁ s₂, r.heap.heapMalloc sz = .ok (p, s₁) → s₁.heapFree p = .ok s₂ →
        used s₂.mem (p - hdrSz) = 1 := by
  obtain ⟨l, hrep⟩ := run_uses hv hf hinit hadm hrun
  cases hfind : l.find? (Blk.fits (roundSz sz)) with
  | some b => exact hrep.reuse_found hsmall hfind
  | none => exact hrep.reuse_grown hsmall hfind (hframes ((hrep.needsBlock_iff _).mpr hfind))

/-- On a fresh heap 100 bytes that were freed cannot be had again. -/
theorem not_reusable_fresh : ∃ s₀, sampleHeap.heapInit = .ok s₀ ∧ ¬ Reusable s₀ 100 := by
  obtain ⟨v, m, hinit, hrep, _⟩ := sampleHeap_init
  have hsz : roundSz 100 ≤ 4096 - hdrSz := by decide
  refine ⟨_, hinit, fun hc => ?_⟩
  have htwo := (hrep.reuse_found hsz (newBlk_find? hsz _ _)).1.mp hc
  have hone := hrep.twoFit_iff (List.nil_append _).symm (by simp) (newBlk_fits hsz _ _)
  obtain ⟨_, c, hnone⟩ := hone.mp htwo
  cases hnone

/-! ## A run after which it can -/

/-- After `k` allocations of 4000 bytes out of the first region, on pages that hold the magic values
where headers will stand: used blocks, and behind them what is left. -/
structure Packed (k : Nat) (r : Run) : Prop where
  blocks : ∃ l c live, Rep 0 r.heap (l ++ [c]) live ∧ (∀ a ∈ l, a.used = true) ∧ c.used = false ∧
    c.addr = heapStart + 4016 * k ∧ c.size + 4016 * k = 4096 * heapBlocks - hdrSz
  spans : Spans Vmm.initMap r
  pages : r.heap.blocksAllocked = heapBlocks
  free : FreeFrom (1024 + 2 * heapBlocks) r.heap.vm.pmm
  sz : r.heap.vm.pmm.bitmapSz = 262144
  rest : ∀ x, heapStart + 4016 * k + hdrSz ≤ x → r.heap.mem x = stamped x

/-- The next one is split off from what is left. -/
theorem Packed.malloc {k : Nat} {r : Run} (h : Packed k r) (hk : k < 1044) :
    UsePre granted r (.malloc 4000) ∧ ∃ o r', step r (.malloc 4000) = .ok (o, r') ∧
      Packed (k + 1) r' := by
  obtain ⟨l, c, live, hrep, hl, hc, haddr, hsize⟩ := h.blocks
  have hblocks : heapBlocks = 1024 := rfl
  have hhdr : hdrSz = 16 := rfl
  have hround : roundSz 4000 = 4000 := by decide
  obtain ⟨hneeds, _, hstep, hrep'⟩ := hrep.step_split (by decide : roundSz 4000 ≤ 4096 - hdrSz)
    (fun a ha => by simp [Blk.fits, hl a ha]) hc (by omega) (Nat.zero_le _) r.live
  have hpre : UsePre granted r (.malloc 4000) := ⟨Nat.min_le_right _ _, fun _ hn => by
    rw [hneeds] at hn
    cases hn⟩
  obtain ⟨nx, hhdr_c⟩ := hrep.hdr (b := c) (by simp)
  have hfin := hrep.fin_le (b := c) (by simp)
  obtain ⟨_, _, hsame⟩ := takeBlock_split hhdr_c (by omega) (by omega : c.size - 4000 > hdrSz)
  refine ⟨hpre, _, _, hstep, ?_, (h.spans.keeps hpre hstep).1, h.pages, h.free, h.sz, fun x hx => ?_⟩
  · refine ⟨l ++ [{ c with used := true, size := roundSz 4000 }], c.rest (roundSz 4000)
      (hasMagic r.heap.mem (c.addr + hdrSz + roundSz 4000)), (c.addr + hdrSz, 0) :: live, ?_, ?_, rfl,
      ?_, ?_⟩
    · rw [List.append_assoc]
      exact hrep'
    · intro a ha
      rcases List.mem_append.mp ha with ha | ha
      · exact hl a ha
      · rw [List.mem_singleton.mp ha]
    · show c.addr + hdrSz + roundSz 4000 = heapStart + 4016 * (k + 1)
      omega
    · show c.size - hdrSz - roundSz 4000 + 4016 * (k + 1) = 4096 * heapBlocks - hdrSz
      omega
  · dsimp only
    rw [hround, hsame x (by omega) (by omega)]
    exact h.rest x (by omega)

/-- When 1044 of them are taken no block has room for the next one, -/
theorem find?_packed {l : List Blk} {c : Blk} (hl : ∀ a ∈ l, a.used = true)
    (hsize : c.size + 4016 * 1044 = 4096 * heapBlocks - hdrSz) :
    (l ++ [c]).find? (Blk.fits (roundSz 4000)) = none := by
  have hblocks : heapBlocks = 1024 := rfl
  have hhdr : hdrSz = 16 := rfl
  have hround : roundSz 4000 = 4000 := by decide
  rw [List.find?_eq_none]
  intro a ha
  rcases List.mem_append.mp ha with ha | ha
  · simp [Blk.fits, hl a ha]
  · rw [List.mem_singleton.mp ha]
    simp only [Blk.fits, Bool.and_eq_true, decide_eq_true_eq]
    omega

/-- and the header that is split off from the new region finds the magic values. -/
theorem Packed.restMagic {r : Run} (h : Packed 1044 r) (hneeds : needsBlock r.heap (roundSz 4000) = true) :
    restMagic r.heap 4000 = true := by
  have hnext : r.heap.nextPage = heapStart + 4096 * heapBlocks := by
    rw [nextPage, h.pages]
    decide
  rw [Heap.restMagic, if_pos hneeds, hnext]
  refine hasMagic_stamped (by decide) (by decide) fun x hx _ => h.rest x ?_
  have hfar : heapStart + 4016 * 1044 + hdrSz ≤
      heapStart + 4096 * heapBlocks + hdrSz + roundSz (roundSz 4000) := by decide
  exact hfar.trans hx

/-- So it grows the heap, and two unused blocks remain. -/
theorem Packed.grow {r : Run} (h : Packed 1044 r) :
    UsePre granted r (.malloc 4000) ∧ ∃ o r', step r (.malloc 4000) = .ok (o, r') ∧
      needsBlock r'.heap (roundSz 100) = false ∧ TwoFit r'.heap (roundSz 100) := by
  obtain ⟨l, c, live, hrep, hl, hc, haddr, hsize⟩ := h.blocks
  have hblocks : heapBlocks = 1024 := rfl
  have hhdr : hdrSz = 16 := rfl
  have hpages := h.pages
  have hbits := h.sz
  have hfree := h.free
  rw [← hpages] at hfree
  have hend : heapStart + 4096 * heapBlocks ≤ heapEnd := by decide
  obtain ⟨hpre, p, s', hret⟩ := h.spans.malloc hfree (by omega) (by omega)
    (by decide : roundSz 4000 ≤ 4096 - hdrSz)
  have hnone := find?_packed hl hsize
  have hneeds := (hrep.needsBlock_iff _).mpr hnone
  have hstep : step r (.malloc 4000) = .ok (p, ⟨s', (p, 4000) :: r.live⟩) := by
    simp only [step, hret]
  obtain ⟨s₁, l₁, b, l₂, q, hrep₁, hpick, hb, hq, hpage, _, _, hs', hmagic⟩ :=
    hrep.heapMalloc_picks (fun _ _ => hpre.2 (by decide) hneeds) hret
  have hrep' := hrep₁.take hb hq hpage (Nat.zero_le q)
  rw [← hs'] at hrep'
  cases hpick with
  | found _ hfound =>
    rw [hnone] at hfound
    cases hfound
  | @grown _ a _ heq _ _ _ _ _ =>
    have hsplit : (newBlk (heapStart + 4096 * r.heap.blocksAllocked) a.addr).size -
        roundSz (roundSz 4000) > hdrSz := by
      show 4096 * heapBlocks - hdrSz - roundSz (roundSz 4000) > hdrSz
      decide
    rw [hmagic hsplit, h.restMagic hneeds, Blk.take, if_pos hsplit] at hrep'
    have ha : a.used = true := ((heq ▸ hrep).wf.used_of_find?_none (by decide) (heq ▸ hnone)).1
    have hct : c ∈ l₂ := by
      have hmem : c ∈ a :: l₂ := by rw [← heq]; simp
      rcases List.mem_cons.mp hmem with rfl | hmem
      · rw [hc] at ha
        cases ha
      · exact hmem
    -- it is the first block that fits, what is left of the first region is the second
    have hfits : ((newBlk (heapStart + 4096 * r.heap.blocksAllocked) a.addr).rest
        (roundSz (roundSz 4000)) true).fits (roundSz 100) = true := by
      show (true && decide (roundSz 100 ≤ 4096 * heapBlocks - hdrSz - hdrSz -
        roundSz (roundSz 4000))) = true
      decide
    have hsecond : ∃ d, l₂.find? (Blk.fits (roundSz 100)) = some d := by
      rw [← Option.isSome_iff_exists, List.find?_isSome]
      refine ⟨c, hct, ?_⟩
      have h100 : roundSz 100 = 100 := by decide
      simp only [Blk.fits, hc, h100, Bool.not_false, Bool.true_and, decide_eq_true_eq]
      omega
    have htwo := (@Rep.twoFit_iff _ _ _ _ hrep' [a, _] l₂ _ rfl (by simp [Blk.fits, ha]) hfits).mpr
      ⟨rfl, hsecond⟩
    refine ⟨hpre, _, _, hstep, ?_, htwo⟩
    rw [← Bool.not_eq_true, hrep'.needsBlock_iff, List.find?_eq_none]
    exact fun hno => hno _ (by simp) hfits

theorem Packed.reusable : ∀ {n k : Nat} {r : Run}, Packed k r → k + n = 1044 →
    ∃ os r', Machine.Admissible (UsePre granted) step r (List.replicate (n + 1) (.malloc 4000)) ∧
      Machine.runAll step r (List.replicate (n + 1) (.malloc 4000)) = .ok (os, r') ∧
      needsBlock r'.heap (roundSz 100) = false ∧ TwoFit r'.heap (roundSz 100) := by
  intro n
  induction n with
  | zero =>
    intro k r h hk
    obtain rfl : k = 1044 := hk
    obtain ⟨hpre, o, r', hstep, htwo⟩ := h.grow
    exact ⟨_, r', .cons_of hpre hstep trivial, Machine.runAll_cons_of hstep rfl, htwo⟩
  | succ n ih =>
    intro k r h hk
    obtain ⟨hpre, o, r₁, hstep, h₁⟩ := h.malloc (by omega)
    obtain ⟨os, r', hadm, hrun, htwo⟩ := ih h₁ (by omega)
    exact ⟨_, r', .cons_of hpre hstep hadm, Machine.runAll_cons_of hstep hrun, htwo⟩

/-- After 1045 allocations of 4000 bytes 100 bytes can be had, freed and had again: what is left of
the first region is the second block that fits. -/
theorem reuse_iff_packed : ∃ s₀ os r, ({ largeHeap with mem := stamped } : Heap).heapInit = .ok s₀ ∧
    Machine.runAll step ⟨s₀, []⟩ (List.replicate 1045 (.malloc 4000)) = .ok (os, r) ∧
    TwoFit r.heap (roundSz 100) ∧ Reusable r.heap 100 := by
  obtain ⟨v, hinit, hfill⟩ := largeHeap_init_mem stamped
  have hpacked : Packed 0 ⟨⟨v, initBlock stamped heapStart 0, heapStart, heapBlocks⟩, []⟩ := by
    obtain ⟨A, hv, _⟩ := hfill.spans.map
    refine ⟨⟨[], newBlk heapStart heapStart, [], Rep.first stamped hv, ?_, rfl, rfl, rfl⟩, hfill.spans,
      rfl, hfill.free, hfill.sz, fun x hx => ?_⟩
    · simp
    · exact (initBlock_first stamped (by decide)).2 x (.inr hx) (.inr hx)
  obtain ⟨os, r, hadm, hrun, hneeds, htwo⟩ := hpacked.reusable (n := 1044) rfl
  refine ⟨_, os, r, hinit, hrun, htwo, ?_⟩
  refine (reuse_iff (s := { largeHeap with mem := stamped }) largeHeap_vmOk.1
    (largeHeap_getsFrames_mem stamped) hinit _ hadm hrun (by decide) fun hn => ?_).1.mpr htwo
  rw [hneeds] at hn
  cases hn

end Heap
end Frod
