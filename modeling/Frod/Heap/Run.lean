import Frod.Lib.Machine
import Frod.Heap.Rep

/-!
# Frod.Heap.Run

Runs of the heap: any sequence of `heap_malloc`, `heap_free` on live pointers, and writes of the
callers to their own payloads, from `heap_init` on.

A run carries the live allocations beside the heap. `step_moves` says that every call keeps `Rep`, and
`heap_tiled` reads the result back as a statement about the headers in memory.
-/

namespace Frod
namespace Heap

open Vmm (PageMap)

/-- The heap and the allocations that have not been freed: pointer and size asked for. -/
structure Run where
  heap : Heap
  live : List (Nat × Nat)

inductive Call where
  | malloc (sz : Nat)
  | free (addr : Nat)
  | write (addr : Nat) (v : Byte)

def step (r : Run) : Call → Except Stop (Nat × Run)
  | .malloc sz =>
    match r.heap.heapMalloc sz with
    | .error e => .error e
    | .ok (p, heap) => .ok (p, ⟨heap, (p, sz) :: r.live⟩)
  | .free addr =>
    match r.heap.heapFree addr with
    | .error e => .error e
    | .ok heap => .ok (0, ⟨heap, r.live.filter fun p => p.1 ≠ addr⟩)
  | .write addr v =>
    .ok (0, ⟨{ r.heap with mem := Function.update r.heap.mem addr v }, r.live⟩)

/-- What the callers guarantee: they ask for at most a page, free live pointers only and write to
their payloads only. When the heap grows there are frames for it. -/
def Pre (r : Run) : Call → Prop
  | .malloc sz =>
    sz ≤ 4096 - hdrSz ∧ (needsBlock r.heap (roundSz sz) = true → GetsFrames heapBlocks r.heap)
  | .free addr => ∃ sz, (addr, sz) ∈ r.live
  | .write addr _ => ∃ p ∈ r.live, p.1 ≤ addr ∧ addr < p.1 + p.2

/-! ## One call -/

/-- What a call returns, and what it does to the blocks `l` and to the heap. -/
inductive Moves (s : Heap) (l : List Blk) : Call → Nat → List Blk → Heap → Prop where
  | malloc {sz r : Nat} {s₁ : Heap} {l₁ l₂ : List Blk} {c : Blk} {magic : Bool} :
      Picks s (roundSz sz) l s₁ l₁ c l₂ r → (c.size - r > hdrSz → magic = restMagic s sz) →
      Moves s l (.malloc sz) (c.addr + hdrSz) (l₁ ++ c.take r magic ++ l₂)
        { s₁ with mem := takeBlock s₁.mem r c.addr }
  | kept {addr : Nat} : Moves s l (.free addr) 0 l s
  | merged {l₁ l₂ : List Blk} {b c : Blk} : l = l₁ ++ b :: c :: l₂ → b.used = true →
      c.used = false → Moves s l (.free (b.addr + hdrSz)) 0 (l₁ ++ b.absorb c :: l₂)
        { s with mem := absorbNext s.mem b.addr }
  | write {addr : Nat} {v : Byte} :
      Moves s l (.write addr v) 0 l { s with mem := Function.update s.mem addr v }

/-- The allocations, and of each size asked for the part `g` that the caller uses. -/
def Run.uses (g : Nat → Nat) (r : Run) : List (Nat × Nat) := r.live.map fun p => (p.1, g p.2)

/-- `Pre` for callers that use `g sz` of the `sz` bytes they ask for, which is at most what the
rounded size has room for. -/
def UsePre (g : Nat → Nat) (r : Run) : Call → Prop
  | .malloc sz => g sz ≤ roundSz sz ∧ (roundSz sz ≤ 4096 - hdrSz →
      needsBlock r.heap (roundSz sz) = true → GetsFrames heapBlocks r.heap)
  | .free addr => ∃ sz, (addr, sz) ∈ r.live
  | .write addr _ => ∃ p ∈ r.live, p.1 ≤ addr ∧ addr < p.1 + g p.2

/-- Every call that returns keeps the relation and moves the blocks. -/
theorem step_moves {g : Nat → Nat} {r r' : Run} {l : List Blk} {c : Call} {o : Nat}
    (h : Rep 0 r.heap l (r.uses g)) (hpre : UsePre g r c) (hs : step r c = .ok (o, r')) :
    ∃ l', Rep 0 r'.heap l' (r'.uses g) ∧ Moves r.heap l c o l' r'.heap := by
  cases c with
  | malloc sz =>
    simp only [step] at hs
    split at hs
    · cases hs
    · rename_i p heap hret
      obtain ⟨s₁, l₁, c, l₂, q, hrep, hpick, hc, hq, hpage, hle, rfl, rfl, hmagic⟩ :=
        h.heapMalloc_picks hpre.2 hret
      cases hs
      exact ⟨_, hrep.take hc hq hpage (hpre.1.trans hle), .malloc hpick hmagic⟩
  | free addr =>
    obtain ⟨sz, hlive⟩ := hpre
    obtain ⟨b, hb, hbu, haddr, _⟩ := h.wf.holds _ (List.mem_map_of_mem hlive)
    obtain ⟨l₁, l₂, rfl⟩ := List.append_of_mem hb
    have hsub : ((r.live.filter fun p => p.1 ≠ addr).map fun p => (p.1, g p.2)).Sublist
        (r.uses g) := List.filter_sublist.map _
    simp only [step] at hs
    simp only at haddr
    split at hs
    · cases hs
    · rename_i heap hret
      cases hs
      rw [haddr] at hret
      rcases h.heapFree_cases hbu with ⟨_, hf⟩ | ⟨_, _, hf⟩ | ⟨_, c, l₃, rfl, hc, hf⟩
      · rw [hf] at hret
        cases hret
      · rw [hf] at hret
        cases hret
        exact ⟨_, { h with wf := h.wf.forget hsub }, .kept⟩
      · rw [hf] at hret
        obtain rfl := Except.ok.inj hret
        have hrep := h.absorb hbu hc
        rw [haddr] at hsub ⊢
        exact ⟨_, { hrep with wf := hrep.wf.forget hsub }, .merged rfl hbu hc⟩
  | write addr v =>
    obtain ⟨p, hp, h1, h2⟩ := hpre
    obtain ⟨rfl, rfl⟩ := Prod.mk.inj (Except.ok.inj hs)
    exact ⟨l, h.write (List.mem_map_of_mem hp) h1 h2 v, .write⟩

theorem Pre.uses {r : Run} {c : Call} (h : Pre r c) : UsePre id r c := by
  cases c with
  | malloc sz =>
    have hle : sz ≤ 4096 := h.1.trans (by decide)
    exact ⟨by rw [roundSz_eq hle]; exact Nat.le_add_right _ _, fun _ => h.2⟩
  | free addr => exact h
  | write addr v => exact h

theorem Run.uses_id (r : Run) : r.uses id = r.live := List.map_id r.live

/-- A header that a call creates has the magic values or is the rest of a split. -/
theorem Moves.magic {s s' : Heap} {l l' : List Blk} {c : Call} {o : Nat} (h : Moves s l c o l' s') :
    ∀ b ∈ l', (∃ a ∈ l, b.magic = a.magic) ∨ b.magic = true ∨
      ∃ sz, c = .malloc sz ∧ b.magic = restMagic s sz := by
  cases h with
  | @malloc sz _ _ l₁ l₂ c _ hpick hmagic =>
    have hold : ∀ b ∈ l₁ ++ c :: l₂, (∃ a ∈ l, b.magic = a.magic) ∨ b.magic = true := by
      cases hpick with
      | found hl _ => exact fun b hb => .inl ⟨b, by rw [hl]; exact hb, rfl⟩
      | grown hl _ _ _ _ _ =>
        intro b hb
        simp only [List.cons_append, List.nil_append, List.mem_cons] at hb
        rcases hb with rfl | rfl | hb
        · exact .inl ⟨b, by simp [hl], rfl⟩
        · exact .inr rfl
        · exact .inl ⟨b, by simp [hl, hb], rfl⟩
    intro b hb
    simp only [List.mem_append] at hb
    rcases hb with (hb | hb) | hb
    · exact (hold b (by simp [hb])).imp_right .inl
    · rcases Blk.mem_take hb with hm | ⟨hsplit, hm⟩
      · rw [hm]
        exact (hold c (by simp)).imp_right .inl
      · exact .inr (.inr ⟨sz, rfl, hm.trans (hmagic hsplit)⟩)
    · exact (hold b (by simp [hb])).imp_right .inl
  | kept => exact fun b hb => .inl ⟨b, hb, rfl⟩
  | @merged l₁ l₂ b c hl _ _ =>
    refine fun x hx => .inl ?_
    simp only [List.mem_append, List.mem_cons] at hx
    rcases hx with hx | rfl | hx
    · exact ⟨x, by simp [hl, hx], rfl⟩
    · exact ⟨b, by simp [hl], rfl⟩
    · exact ⟨x, by simp [hl, hx], rfl⟩
  | write => exact fun b hb => .inl ⟨b, hb, rfl⟩

/-- What `heap_malloc(sz)` has room for: the size asked for, or less if rounding it wraps around. -/
def granted (sz : Nat) : Nat := min sz (roundSz sz)

/-- A fresh heap, whatever its callers will use. -/
theorem heapInit_uses {s s₀ : Heap} {A : PageMap} (hv : VmOk s.vm A)
    (hf : GetsFrames heapBlocks { s with blocksAllocked := 0 }) (hinit : s.heapInit = .ok s₀)
    (g : Nat → Nat) : s₀.kernHeap = heapStart ∧ s₀.blocksAllocked = heapBlocks ∧
      Rep 0 s₀ [newBlk heapStart heapStart] (Run.uses g ⟨s₀, []⟩) := by
  obtain ⟨v, A', rfl, hv', _⟩ := heapInit_rep hv hf hinit
  exact ⟨rfl, rfl, Rep.first s.mem hv'⟩

theorem run_uses {s s₀ : Heap} {A : PageMap} (hv : VmOk s.vm A)
    (hf : GetsFrames heapBlocks { s with blocksAllocked := 0 }) (hinit : s.heapInit = .ok s₀)
    {g : Nat → Nat} {calls : List Call} (hadm : Machine.Admissible (UsePre g) step ⟨s₀, []⟩ calls)
    {os : List Nat} {r : Run} (hrun : Machine.runAll step ⟨s₀, []⟩ calls = .ok (os, r)) :
    ∃ l, Rep 0 r.heap l (r.uses g) := by
  refine Machine.invariant (I := fun r : Run => ∃ l, Rep 0 r.heap l (r.uses g)) ?_ calls
    ⟨_, (heapInit_uses hv hf hinit g).2.2⟩ hadm hrun
  rintro r c o r' ⟨l, h⟩ hpre hs
  obtain ⟨l', h', _⟩ := step_moves h hpre hs
  exact ⟨l', h'⟩

theorem run_rep {s s₀ : Heap} {A : PageMap} (hv : VmOk s.vm A)
    (hf : GetsFrames heapBlocks { s with blocksAllocked := 0 }) (hinit : s.heapInit = .ok s₀)
    {calls : List Call} (hadm : Machine.Admissible Pre step ⟨s₀, []⟩ calls) {os : List Nat} {r : Run}
    (hrun : Machine.runAll step ⟨s₀, []⟩ calls = .ok (os, r)) : ∃ l, Rep 0 r.heap l r.live := by
  have huses := run_uses hv hf hinit (hadm.imp fun _ _ _ hpre => hpre.uses) hrun
  rwa [r.uses_id] at huses

/-! ## The headers in memory -/

/-- The end of the block whose header is at `h`. -/
def blockEnd (m : Mem) (h : Nat) : Nat := h + hdrSz + size m h

/-- The headers `hs` are the ring, tile the heap, and hold the live allocations. -/
structure Tiled (s : Heap) (live : List (Nat × Nat)) (hs : List Nat) : Prop where
  /-- Following `next` from `kern_heap` visits `hs` and comes back. -/
  visits : ∀ i, i < hs.length → hs[i]? = some ((next s.mem)^[i] s.kernHeap)
  back : (next s.mem)^[hs.length] s.kernHeap = s.kernHeap
  nonempty : hs ≠ []
  /-- The blocks are pairwise disjoint and their union is the heap. -/
  tiles : Tiles id (blockEnd s.mem) hs heapStart (heapStart + 4096 * s.blocksAllocked)
  /-- A live pointer is the payload of a used header that is large enough. -/
  holds : ∀ p ∈ live, ∃ h ∈ hs, p.1 = h + hdrSz ∧ used s.mem h = 1 ∧ p.2 ≤ size s.mem h
  /-- No two live pointers share a header. -/
  distinct : (live.map Prod.fst).Nodup
  /-- Live payloads are pairwise disjoint and contain no header. -/
  payloads : live.Pairwise fun p q => p.1 + p.2 ≤ q.1 ∨ q.1 + q.2 ≤ p.1
  headers : ∀ p ∈ live, ∀ h ∈ hs, h + hdrSz ≤ p.1 ∨ p.1 + p.2 ≤ h

theorem ring_iterate {m : Mem} {stop : Nat} : ∀ {l : List Blk} {b : Blk}, Ring m stop (b :: l) →
    (∀ i, i < (b :: l).length → ((b :: l).map Blk.addr)[i]? = some ((next m)^[i] b.addr)) ∧
      (next m)^[(b :: l).length] b.addr = stop := by
  intro l
  induction l with
  | nil =>
    intro b h
    refine ⟨fun i hi => ?_, h.1.next⟩
    obtain rfl : i = 0 := by simp only [List.length_cons, List.length_nil] at hi; omega
    rfl
  | cons c l ih =>
    intro b h
    obtain ⟨h1, h2⟩ := ih h.2
    have hnext : next m b.addr = c.addr := h.1.next
    refine ⟨fun i hi => ?_, ?_⟩
    · cases i with
      | zero => rfl
      | succ i =>
        rw [Function.iterate_succ_apply, hnext]
        exact h1 i (by simpa using hi)
    · rw [List.length_cons, Function.iterate_succ_apply, hnext]
      exact h2

theorem Rep.tiled {fresh : Nat} {s : Heap} {l : List Blk} {live : List (Nat × Nat)}
    (h : Rep fresh s l live) : Tiled s live (l.map Blk.addr) := by
  have hsize : ∀ b ∈ l, size s.mem b.addr = b.size := fun b hb => by
    obtain ⟨nx, hhdr⟩ := h.hdr hb
    exact hhdr.size
  have hend : ∀ b ∈ l, blockEnd s.mem b.addr = b.fin := fun b hb => by
    rw [blockEnd, hsize b hb, Blk.fin]
  obtain ⟨b₀, t, heq, hb₀⟩ := h.head
  have hring := h.ring
  rw [heq] at hring
  obtain ⟨hvis, hback⟩ := ring_iterate hring
  rw [← heq, hb₀] at hvis hback
  refine ⟨?_, ?_, by simp [heq], ⟨?_, ?_⟩, ?_, h.wf.nodup, ?_, ?_⟩
  · simpa using hvis
  · simpa using hback
  · intro x
    rw [h.wf.tiles.cover x]
    constructor
    · rintro ⟨b, hb, h1, h2⟩
      exact ⟨b.addr, List.mem_map_of_mem hb, h1, by rw [hend b hb]; exact h2⟩
    · rintro ⟨a, ha, h1, h2⟩
      obtain ⟨b, hb, rfl⟩ := List.mem_map.mp ha
      exact ⟨b, hb, h1, by rw [← hend b hb]; exact h2⟩
  · rw [List.pairwise_map]
    refine h.wf.tiles.apart.imp_of_mem fun {a b} ha hb hab => ?_
    unfold Apart at hab ⊢
    rw [hend a ha, hend b hb]
    exact hab
  · intro p hp
    obtain ⟨b, hb, hbu, hp1, hp2⟩ := h.wf.holds p hp
    obtain ⟨nx, hhdr⟩ := h.hdr hb
    refine ⟨b.addr, List.mem_map_of_mem hb, hp1, ?_, by rw [hsize b hb]; exact hp2⟩
    rw [hhdr.used, hbu]
    rfl
  · have hnd := h.wf.nodup
    rw [List.Nodup, List.pairwise_map] at hnd
    refine hnd.imp_of_mem fun {p q} hp hq hpq => ?_
    obtain ⟨b, hb, _, hp1, hp2⟩ := h.wf.holds p hp
    obtain ⟨c, hc, _, hq1, hq2⟩ := h.wf.holds q hq
    have hbc : b ≠ c := fun he => hpq (by rw [hp1, hq1, he])
    have hap := h.wf.tiles.apart_of_ne hb hc hbc
    unfold Apart Blk.fin at hap
    omega
  · intro p hp a ha
    obtain ⟨c, hc, rfl⟩ := List.mem_map.mp ha
    obtain ⟨b, hb, _, hp1, hp2⟩ := h.wf.holds p hp
    by_cases hcb : c = b
    · subst hcb; omega
    · have hap := h.wf.tiles.apart_of_ne hc hb hcb
      unfold Apart Blk.fin at hap
      omega

/-- **The heap stays tiled.** In every state of every run from `heap_init`, over page tables as
`vmm_init` leaves them and whatever the heap's pages hold, the headers reached from `kern_heap` tile
the heap and the live payloads are disjoint parts of used blocks. -/
theorem heap_tiled {s s₀ : Heap} {A : PageMap} (hv : VmOk s.vm A)
    (hf : GetsFrames heapBlocks { s with blocksAllocked := 0 }) (hinit : s.heapInit = .ok s₀)
    (calls : List Call) (hadm : Machine.Admissible Pre step ⟨s₀, []⟩ calls) {os : List Nat} {r : Run}
    (hrun : Machine.runAll step ⟨s₀, []⟩ calls = .ok (os, r)) :
    ∃ hs, Tiled r.heap r.live hs := by
  obtain ⟨l, hrep⟩ := run_rep hv hf hinit hadm hrun
  exact ⟨_, hrep.tiled⟩

/-! ## A sample heap -/

/-- The sample machine after `vmm_init`, with zeroed pages for the heap. -/
def sampleHeap : Heap :=
  { vm := Vmm.sampleVmm.vmmInit, mem := fun _ => 0#8, kernHeap := 0, blocksAllocked := 0 }

theorem sampleHeap_vm : sampleHeap.vm = Vmm.sampleVmm.vmmInit := rfl

theorem sampleHeap_vmOk : VmOk sampleHeap.vm Vmm.initMap := by
  rw [sampleHeap_vm]
  have hlow : Vmm.initMap 0 ≠ none := by decide
  exact ⟨Vmm.vmmInit_refines (by decide) Vmm.sampleVmm_twoFree, 0, by omega, hlow⟩

/-- On a machine with nothing taken `vmm_init` takes the first 4 MB and nothing else. -/
theorem freeFrom_vmmInit {s : Vmm} (hsz : s.pmm.bitmapSz ≤ 2 ^ 20) (hfree : Vmm.TwoFree s.pmm)
    (hzero : ∀ j, s.pmm.isTaken j = false) :
    FreeFrom 1024 s.vmmInit.pmm ∧ s.vmmInit.pmm.bitmapSz = s.pmm.bitmapSz := by
  obtain ⟨k1, k2, hb⟩ := Vmm.vmmInit_built hsz hfree
  have h1 : k1 ≤ 1 := by
    by_contra hc
    have := hb.first1.below 1 (by omega) (by omega)
    rw [hzero] at this
    cases this
  have h2 : k2 ≤ 2 := by
    by_contra hc
    rcases hb.first2 2 (by omega) (by omega) with h | h
    · omega
    · rw [hzero] at h
      cases h
  refine ⟨fun j hj _ => ?_, hb.sz⟩
  rw [← Bool.not_eq_true]
  intro ht
  rcases (hb.taken j).mp ht with h | h | h | h
  · omega
  · omega
  · omega
  · rw [hzero] at h
    cases h

theorem sampleHeap_freeFrom :
    FreeFrom 1024 sampleHeap.vm.pmm ∧ sampleHeap.vm.pmm.bitmapSz = 4096 := by
  rw [sampleHeap_vm]
  exact freeFrom_vmmInit (by decide) Vmm.sampleVmm_twoFree fun j => by
    simp [Vmm.sampleVmm, Pmm.isTaken, BitArray.isSet]

theorem sampleHeap_getsFrames_mem (m : Mem) :
    GetsFrames heapBlocks { sampleHeap with mem := m, blocksAllocked := 0 } := by
  obtain ⟨hfree, hsz⟩ := sampleHeap_freeFrom
  have hv : VmOk ({ sampleHeap with mem := m, blocksAllocked := 0 } : Heap).vm Vmm.initMap :=
    sampleHeap_vmOk
  have hbound : heapStart + 4096 * (0 + heapBlocks) ≤ 0xFFC00000 := by decide
  have henough : 1024 + 2 * heapBlocks < sampleHeap.vm.pmm.bitmapSz := by rw [hsz]; decide
  exact getsFrames_of_freeFrom hv hbound hfree (by omega) henough

theorem sampleHeap_getsFrames : GetsFrames heapBlocks { sampleHeap with blocksAllocked := 0 } :=
  sampleHeap_getsFrames_mem fun _ => 0#8

/-- What `heap_init` makes of the sample heap, whatever its pages hold: one unused block. -/
theorem sampleHeap_init_mem (m : Mem) : ∃ v, ({ sampleHeap with mem := m } : Heap).heapInit =
      .ok ⟨v, initBlock m heapStart 0, heapStart, heapBlocks⟩ ∧
    Rep 0 ⟨v, initBlock m heapStart 0, heapStart, heapBlocks⟩ [newBlk heapStart heapStart] [] := by
  have hA : ∀ p, heapStart / kb4 ≤ p → Vmm.initMap p = none := fun p hp => by
    rw [Vmm.initMap, if_neg]
    have : 1024 ≤ heapStart / kb4 := by decide
    omega
  have hframes := sampleHeap_getsFrames_mem m
  obtain ⟨v, A, hinit, hv⟩ := heapInit_ok (s := { sampleHeap with mem := m }) sampleHeap_vmOk hframes hA
  exact ⟨v, hinit, Rep.first m hv⟩

/-- The fresh sample heap: one unused block, in memory that holds no magic value behind it. -/
theorem sampleHeap_init : ∃ v m, sampleHeap.heapInit = .ok ⟨v, m, heapStart, heapBlocks⟩ ∧
    Rep 0 ⟨v, m, heapStart, heapBlocks⟩ [newBlk heapStart heapStart] [] ∧
    hasMagic m (heapStart + hdrSz + 4) = false := by
  have hmagic : hasMagic (initBlock (fun _ => 0#8) heapStart 0) (heapStart + hdrSz + 4) = false := by
    decide +kernel
  obtain ⟨v, hinit, hrep⟩ := sampleHeap_init_mem fun _ => 0#8
  exact ⟨v, _, hinit, hrep, hmagic⟩

/-- Pages that hold the magic values wherever a header on a boundary of 4 bytes has its own. -/
def stamped : Mem := fun x =>
  if x % 4 = 1 then 0xcd#8 else if x % 4 = 2 then 0xab#8 else if x % 4 = 3 then 0xef#8 else 0#8

theorem hasMagic_stamped {m : Mem} {a : Nat} (ha : a % 4 = 0) (hin : a + hdrSz ≤ 2 ^ 32)
    (hm : ∀ x, a ≤ x → x < a + hdrSz → m x = stamped x) : hasMagic m a = true := by
  rw [hasMagic_congr hin hm]
  have h13 : stamped ((a + 13) % 2 ^ 32) = 0xcd#8 := if_pos (by omega)
  have h14 : stamped ((a + 13 + 1) % 2 ^ 32) = 0xab#8 := by
    rw [stamped, if_neg (by omega), if_pos (by omega)]
  have h15 : stamped ((a + 15) % 2 ^ 32) = 0xef#8 := by
    rw [stamped, if_neg (by omega), if_neg (by omega), if_pos (by omega)]
  simp only [hasMagic, magic1, magic2, Bytes.rd, h13, h14, h15]
  decide

theorem newBlk_find? {sz : Nat} (hsz : sz ≤ 4096 - hdrSz) (ret prev : Nat) :
    [newBlk ret prev].find? (Blk.fits sz) = some (newBlk ret prev) :=
  List.find?_cons_of_pos (newBlk_fits hsz ret prev)

/-- An allocation that finds a block with room for another header splits it. -/
theorem Rep.step_split {s : Heap} {l₁ l₂ : List Blk} {c : Blk} {live : List (Nat × Nat)} {sz req : Nat}
    (h : Rep 0 s (l₁ ++ c :: l₂) live) (hsz : roundSz sz ≤ 4096 - hdrSz)
    (hfirst : ∀ a ∈ l₁, a.fits (roundSz sz) = false) (hc : c.used = false)
    (hroom : roundSz sz + hdrSz < c.size) (hreq : req ≤ roundSz sz) (L : List (Nat × Nat)) :
    needsBlock s (roundSz sz) = false ∧
      restMagic s sz = hasMagic s.mem (c.addr + hdrSz + roundSz sz) ∧
      step ⟨s, L⟩ (.malloc sz) = .ok (c.addr + hdrSz,
        ⟨{ s with mem := takeBlock s.mem (roundSz sz) c.addr }, (c.addr + hdrSz, sz) :: L⟩) ∧
      Rep 0 { s with mem := takeBlock s.mem (roundSz sz) c.addr }
        (l₁ ++ { c with used := true, size := roundSz sz } ::
          c.rest (roundSz sz) (hasMagic s.mem (c.addr + hdrSz + roundSz sz)) :: l₂)
        ((c.addr + hdrSz, req) :: live) := by
  have hfits : c.fits (roundSz sz) = true := by
    simp only [Blk.fits, hc, Bool.not_false, Bool.true_and, decide_eq_true_eq]
    omega
  have hfind : (l₁ ++ c :: l₂).find? (Blk.fits (roundSz sz)) = some c := by
    rw [List.find?_append, List.find?_eq_none.mpr (by simpa using hfirst), Option.none_or,
      List.find?_cons_of_pos hfits]
  have hmalloc := h.mallocLoop_found hsz hfind 1024
  obtain ⟨hneeds, hrest⟩ := h.restMagic_found hfind
  have htake : Rep 0 { s with mem := takeBlock s.mem (roundSz sz) c.addr } _
      ((c.addr + hdrSz, req) :: live) := h.weaken.take hc (by omega) hsz hreq
  rw [Blk.take, if_pos (by omega)] at htake
  refine ⟨hneeds, ?_, ?_, ?_⟩
  · rw [hrest, decide_eq_true (by omega)]
    rfl
  · simp only [step, heapMalloc, hmalloc]
  · simpa using htake

/-- The first two allocations of a fresh heap. -/
theorem Rep.two_mallocs {v : Vmm} {m : Mem} {sz sz' : Nat}
    (h : Rep 0 ⟨v, m, heapStart, heapBlocks⟩ [newBlk heapStart heapStart] [])
    (hsz : roundSz sz ≤ 4096 - hdrSz) (hsz' : roundSz sz' ≤ 4096 - hdrSz) :
    ∃ s₁ s₂, step ⟨⟨v, m, heapStart, heapBlocks⟩, []⟩ (.malloc sz) =
        .ok (heapStart + hdrSz, ⟨s₁, [(heapStart + hdrSz, sz)]⟩) ∧
      step ⟨s₁, [(heapStart + hdrSz, sz)]⟩ (.malloc sz') =
        .ok (heapStart + hdrSz + roundSz sz + hdrSz,
          ⟨s₂, [(heapStart + hdrSz + roundSz sz + hdrSz, sz'), (heapStart + hdrSz, sz)]⟩) ∧
      needsBlock ⟨v, m, heapStart, heapBlocks⟩ (roundSz sz) = false ∧
      needsBlock s₁ (roundSz sz') = false ∧
      (restMagic ⟨v, m, heapStart, heapBlocks⟩ sz = hasMagic m (heapStart + hdrSz + roundSz sz) ∧
        restMagic s₁ sz' = hasMagic (takeBlock m (roundSz sz) heapStart)
          (heapStart + hdrSz + roundSz sz + hdrSz + roundSz sz')) ∧
      ∃ l₁ b l₂ live, Rep 0 s₂ (l₁ ++ b :: l₂) live ∧ b.used = true ∧
        b.addr = heapStart + hdrSz + roundSz sz ∧
        b.magic = hasMagic m (heapStart + hdrSz + roundSz sz) := by
  have hblocks : heapBlocks = 1024 := rfl
  have hhdr : hdrSz = 16 := rfl
  have hroom : roundSz sz + hdrSz < (newBlk heapStart heapStart).size := by
    show roundSz sz + hdrSz < 4096 * heapBlocks - hdrSz
    omega
  have h' : Rep 0 ⟨v, m, heapStart, heapBlocks⟩ ([] ++ newBlk heapStart heapStart :: []) [] := h
  obtain ⟨hn, hm, hstep, hrep⟩ := h'.step_split hsz (by simp) rfl hroom (Nat.zero_le _) []
  have hrep' : Rep 0 ⟨v, takeBlock m (roundSz sz) heapStart, heapStart, heapBlocks⟩
      ([{ newBlk heapStart heapStart with used := true, size := roundSz sz }] ++
      (newBlk heapStart heapStart).rest (roundSz sz)
        (hasMagic m (heapStart + hdrSz + roundSz sz)) :: []) _ := hrep
  have hroom' : roundSz sz' + hdrSz < ((newBlk heapStart heapStart).rest (roundSz sz)
      (hasMagic m (heapStart + hdrSz + roundSz sz))).size := by
    show roundSz sz' + hdrSz < 4096 * heapBlocks - hdrSz - hdrSz - roundSz sz
    omega
  obtain ⟨hn', hm', hstep', hrep₂⟩ := hrep'.step_split hsz' (by simp [Blk.fits]) rfl hroom'
    (Nat.zero_le _) [(heapStart + hdrSz, sz)]
  exact ⟨_, _, hstep, hstep', hn, hn', ⟨hm, hm'⟩, _, _, _, _, hrep₂, rfl, rfl, rfl⟩

theorem sampleHeap_malloc : ∃ v m s₁,
    sampleHeap.heapInit = .ok ⟨v, m, heapStart, heapBlocks⟩ ∧
    Rep 0 ⟨v, m, heapStart, heapBlocks⟩ [newBlk heapStart heapStart] [] ∧
    UsePre granted ⟨⟨v, m, heapStart, heapBlocks⟩, []⟩ (.malloc 100) ∧
    step ⟨⟨v, m, heapStart, heapBlocks⟩, []⟩ (.malloc 100) =
      .ok (heapStart + hdrSz, ⟨s₁, [(heapStart + hdrSz, 100)]⟩) := by
  obtain ⟨v, m, hinit, hrep, _⟩ := sampleHeap_init
  have hsz : roundSz 100 ≤ 4096 - hdrSz := by decide
  obtain ⟨s₁, _, h₁, _, hn, _⟩ := hrep.two_mallocs hsz hsz
  refine ⟨v, m, s₁, hinit, hrep, ⟨Nat.min_le_right _ _, fun _ hneeds => ?_⟩, h₁⟩
  rw [hn] at hneeds
  cases hneeds

/-- The first allocation of a fresh heap returns the first payload. -/
theorem heap_tiled_first : ∃ s₀ r hs, sampleHeap.heapInit = .ok s₀ ∧
    Machine.runAll step ⟨s₀, []⟩ [.malloc 100] = .ok ([heapStart + hdrSz], r) ∧
      r.live = [(heapStart + hdrSz, 100)] ∧ Tiled r.heap r.live hs := by
  obtain ⟨v, m, hinit, hrep, _⟩ := sampleHeap_init
  have hfind := newBlk_find? (show roundSz 100 ≤ 4096 - hdrSz by decide) heapStart heapStart
  have hmalloc := hrep.mallocLoop_found (by decide) hfind 1024
  have hadm : Machine.Admissible Pre step ⟨⟨v, m, heapStart, heapBlocks⟩, []⟩ [.malloc 100] := by
    refine ⟨⟨by decide, fun hn => ?_⟩, fun _ _ _ => trivial⟩
    rw [hrep.needsBlock_iff, hfind] at hn
    cases hn
  have hrun : Machine.runAll step ⟨⟨v, m, heapStart, heapBlocks⟩, []⟩ [.malloc 100] =
      .ok ([heapStart + hdrSz], ⟨⟨v, takeBlock m (roundSz 100) heapStart, heapStart, heapBlocks⟩,
        [(heapStart + hdrSz, 100)]⟩) := by
    rw [show (newBlk heapStart heapStart).addr = heapStart from rfl] at hmalloc
    simp only [Machine.runAll, step, heapMalloc, hmalloc]
  obtain ⟨hs, htiled⟩ := heap_tiled sampleHeap_vmOk sampleHeap_getsFrames hinit _ hadm hrun
  exact ⟨_, _, hs, hinit, hrun, rfl, htiled⟩

end Heap
end Frod
