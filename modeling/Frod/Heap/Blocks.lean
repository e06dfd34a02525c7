import Mathlib.Data.List.Chain
import Mathlib.Data.List.Nodup
import Frod.Heap.Ring

/-!
# Frod.Heap.Blocks

The abstract heap: the blocks in ring order, how an allocation, a merge and a new region change
them, and the invariant that makes every merge a merge of neighbours.

`heap_free` never clears the used flag, so blocks only ever go from unused to used. An unused block
is either the whole fresh heap or the rest of a split, and the block before it in the ring is the one
it was split from. That is why the merge with the next block, which tests no addresses, joins
neighbours only, and why the merge with the previous block never happens.
-/

namespace Frod
namespace Heap

/-- `b` may follow `a` in the ring: it is used, or it is what is left of the used block `a`, or it is
the region at `fresh` that has just been added. -/
def Follows (fresh : Nat) (a b : Blk) : Prop :=
  b.used = true ∨ b.addr = fresh ∨ (a.used = true ∧ a.fin = b.addr)

/-- A live allocation, its pointer and the size that was asked for, lies in a used block. -/
def Holds (l : List Blk) (p : Nat × Nat) : Prop :=
  ∃ b ∈ l, b.used = true ∧ p.1 = b.addr + hdrSz ∧ p.2 ≤ b.size

/-- The invariant of the blocks `l` of a heap of `n` pages with the allocations `live`. -/
structure Wf (fresh n : Nat) (l : List Blk) (live : List (Nat × Nat)) : Prop where
  tiles : Tiles Blk.addr Blk.fin l heapStart (heapStart + 4096 * n)
  chain : l.IsChain (Follows fresh)
  head : ∀ b t, l = b :: t → b.used = true ∨ (t = [] ∧ b.size = 4096 * heapBlocks - hdrSz)
  second : ∀ a b t, l = a :: b :: t → b.used = false → 4096 - hdrSz ≤ b.size
  prev : ∀ b ∈ l, b.prev = b.addr ∨ ∃ c ∈ l, c.used = true ∧ c.addr = b.prev
  holds : ∀ p ∈ live, Holds l p
  nodup : (live.map Prod.fst).Nodup

theorem Wf.inj {fresh n : Nat} {l : List Blk} {live : List (Nat × Nat)} (h : Wf fresh n l live)
    {a b : Blk} (ha : a ∈ l) (hb : b ∈ l) (hab : a.addr = b.addr) : a = b :=
  h.tiles.inj Blk.addr_lt_fin ha hb hab

theorem Wf.addr_ne_zero {fresh n : Nat} {l : List Blk} {live : List (Nat × Nat)}
    (h : Wf fresh n l live) {b : Blk} (hb : b ∈ l) : b.addr ≠ 0 := by
  have := (h.tiles.bounds Blk.addr_lt_fin hb).1
  unfold heapStart procVmmEnd procVmmStart mb256 at this
  omega

/-- The invariant may be weakened to allow for a fresh region. -/
theorem Wf.weaken {fresh n : Nat} {l : List Blk} {live : List (Nat × Nat)} (h : Wf 0 n l live) :
    Wf fresh n l live := by
  refine { h with chain := h.chain.imp_of_mem_imp fun a b _ hb hab => ?_ }
  rcases hab with h1 | h1 | h1
  · exact .inl h1
  · exact absurd h1 (h.addr_ne_zero hb)
  · exact .inr (.inr h1)

theorem Wf.forget {fresh n : Nat} {l : List Blk} {live live' : List (Nat × Nat)}
    (h : Wf fresh n l live) (hsub : live'.Sublist live) : Wf fresh n l live' :=
  { h with
    holds := fun p hp => h.holds p (hsub.subset hp)
    nodup := h.nodup.sublist (hsub.map _) }

/-! ## Used blocks -/

/-- The used blocks of `l` are all in `l'`, where some may be larger. -/
def Survive (l l' : List Blk) : Prop :=
  ∀ x ∈ l, x.used = true → ∃ y ∈ l', y.used = true ∧ y.addr = x.addr ∧ x.size ≤ y.size

theorem Survive.of_mem {l l' : List Blk} (h : ∀ x ∈ l, x.used = true → x ∈ l') : Survive l l' :=
  fun x hx hu => ⟨x, h x hx hu, hu, rfl, Nat.le_refl _⟩

theorem Survive.holds {l l' : List Blk} (hs : Survive l l') {p : Nat × Nat} (h : Holds l p) :
    Holds l' p := by
  obtain ⟨d, hd, hu, h1, h2⟩ := h
  obtain ⟨e, he, heu, ha, hsz⟩ := hs d hd hu
  exact ⟨e, he, heu, by rw [h1, ha], h2.trans hsz⟩

/-- A block whose address and previous pointer are those of an old one points to a used block. -/
theorem Wf.prev_survive {fresh n : Nat} {l l' : List Blk} {live : List (Nat × Nat)}
    (h : Wf fresh n l live) (hs : Survive l l') {x y : Blk} (hy : y ∈ l) (hp : x.prev = y.prev)
    (ha : x.addr = y.addr) : x.prev = x.addr ∨ ∃ d ∈ l', d.used = true ∧ d.addr = x.prev := by
  rw [hp, ha]
  rcases h.prev y hy with he | ⟨d, hd, hu, he⟩
  · exact .inl he
  · obtain ⟨e, he1, he2, he3, _⟩ := hs d hd hu
    exact .inr ⟨e, he1, he2, he3.trans he⟩

/-- With a used block in the place of `b` the first block is used. -/
theorem Wf.head_used {fresh n : Nat} {l₁ l₂ r t : List Blk} {b c x : Blk} {live : List (Nat × Nat)}
    (h : Wf fresh n (l₁ ++ b :: l₂) live) (hc : c.used = true) (hx : l₁ ++ c :: r = x :: t) :
    x.used = true := by
  cases l₁ with
  | nil =>
    obtain ⟨rfl, _⟩ := List.cons.inj hx
    exact hc
  | cons a l₁ =>
    obtain ⟨rfl, _⟩ := List.cons.inj hx
    rcases h.head a (l₁ ++ b :: l₂) rfl with hu | ⟨hnil, _⟩
    · exact hu
    · simp at hnil

/-! ## Taking a block -/

/-- What becomes of block `b` when `sz` bytes of it are taken. -/
def Blk.take (b : Blk) (sz : Nat) (magic : Bool) : List Blk :=
  if b.size - sz > hdrSz then [{ b with used := true, size := sz }, b.rest sz magic]
  else [{ b with used := true }]

/-- The block that is taken comes first: it is used and starts where `b` did. -/
theorem Blk.take_eq {b : Blk} {sz : Nat} (hsz : sz ≤ b.size) (magic : Bool) :
    ∃ c r, b.take sz magic = c :: r ∧ c.used = true ∧ c.addr = b.addr ∧ c.prev = b.prev ∧
      sz ≤ c.size ∧ ((r = [] ∧ b.size - sz ≤ hdrSz) ∨
        (r = [b.rest sz magic] ∧ c.fin = (b.rest sz magic).addr ∧ b.size - sz > hdrSz)) := by
  unfold Blk.take
  split
  · rename_i hc
    exact ⟨_, _, rfl, rfl, rfl, rfl, Nat.le_refl _, .inr ⟨rfl, rfl, hc⟩⟩
  · rename_i hc
    exact ⟨_, _, rfl, rfl, rfl, rfl, hsz, .inl ⟨rfl, by omega⟩⟩

theorem Blk.mem_take {b c : Blk} {sz : Nat} {magic : Bool} (h : c ∈ b.take sz magic) :
    c.magic = b.magic ∨ (b.size - sz > hdrSz ∧ c.magic = magic) := by
  unfold Blk.take at h
  split at h
  · rename_i hsplit
    simp only [List.mem_cons, List.not_mem_nil, or_false] at h
    rcases h with rfl | rfl
    · exact .inl rfl
    · exact .inr ⟨hsplit, rfl⟩
  · simp only [List.mem_cons, List.not_mem_nil, or_false] at h
    rw [h]
    exact .inl rfl

theorem Blk.take_tiles {b : Blk} {sz : Nat} (magic : Bool) :
    Tiles Blk.addr Blk.fin (b.take sz magic) b.addr b.fin := by
  unfold Blk.take
  split
  · rename_i hc
    have hfin : b.fin = (b.rest sz magic).fin := by
      simp only [Blk.fin, Blk.rest, hdrSz] at hc ⊢; omega
    rw [hfin]
    have hpair : Tiles Blk.addr Blk.fin [{ b with used := true, size := sz }, b.rest sz magic] _ _ :=
      Tiles.pair rfl (Blk.addr_lt_fin _).le (Blk.addr_lt_fin _).le
    exact hpair
  · have hone : Tiles Blk.addr Blk.fin [{ b with used := true }] _ _ := Tiles.singleton _
    exact hone

section Take

variable {n sz req : Nat} {l₁ l₂ : List Blk} {b : Blk} {live : List (Nat × Nat)}
  (h : Wf b.addr n (l₁ ++ b :: l₂) live) (hb : b.used = false)

include h in
/-- Only `b` is the region that has just been added. -/
theorem Wf.follows_of_ne {x y : Blk} (hy : y ∈ l₁ ++ b :: l₂) (hne : y ≠ b)
    (hxy : Follows b.addr x y) : Follows 0 x y := by
  rcases hxy with h1 | h1 | h1
  · exact .inl h1
  · exact absurd (h.inj hy (by simp) h1) hne
  · exact .inr (.inr h1)

include h in
theorem Wf.chain_left : l₁.IsChain (Follows 0) := by
  have hnd := h.tiles.nodup Blk.addr_lt_fin
  rw [List.nodup_append] at hnd
  refine (List.isChain_append.mp h.chain).1.imp_of_mem_imp fun x y _ hy hxy => ?_
  exact h.follows_of_ne (by simp [hy]) (hnd.2.2 y hy b (by simp)) hxy

include h in
theorem Wf.chain_right : l₂.IsChain (Follows 0) := by
  have hnd := h.tiles.nodup Blk.addr_lt_fin
  rw [List.nodup_append, List.nodup_cons] at hnd
  have hright := (List.isChain_cons.mp (List.isChain_append.mp h.chain).2.1).2
  refine hright.imp_of_mem_imp fun x y _ hy hxy => ?_
  refine h.follows_of_ne (by simp [hy]) (fun hyb => ?_) hxy
  exact hnd.2.1.1 (hyb ▸ hy)

include h hb

theorem Wf.used_ne {c : Blk} (hc : c ∈ l₁ ++ b :: l₂) (hu : c.used = true) : c ∈ l₁ ∨ c ∈ l₂ := by
  rcases List.mem_append.mp hc with hc | hc
  · exact .inl hc
  · rcases List.mem_cons.mp hc with rfl | hc
    · rw [hb] at hu; cases hu
    · exact .inr hc

theorem Wf.next_used {y : Blk} (hy : y ∈ l₂.head?) : y.used = true := by
  obtain ⟨t, rfl⟩ : ∃ t, l₂ = y :: t := by
    cases l₂ with
    | nil => cases hy
    | cons z t => cases hy; exact ⟨t, rfl⟩
  have hchain := h.chain
  rw [List.isChain_append_cons_cons] at hchain
  have hne : y ≠ b := by
    rintro rfl
    have := h.tiles.nodup Blk.addr_lt_fin
    simp [List.nodup_append] at this
  rcases hchain.2.1 with h1 | h1 | ⟨h1, _⟩
  · exact h1
  · exact absurd (h.inj (by simp) (by simp) h1) hne
  · rw [hb] at h1; cases h1

theorem Wf.take_chain (hsz : sz ≤ b.size) (magic : Bool) :
    (l₁ ++ b.take sz magic ++ l₂).IsChain (Follows 0) := by
  obtain ⟨c, r, heq, hcu, _, _, _, hr⟩ := Blk.take_eq hsz magic
  have hnext : ∀ x : Blk, ∀ y ∈ l₂.head?, Follows 0 x y := fun x y hy => .inl (h.next_used hb hy)
  have hleft : (l₁ ++ [c]).IsChain (Follows 0) := by
    rw [List.isChain_append]
    refine ⟨h.chain_left, .singleton c, fun x _ y hy => ?_⟩
    cases hy
    exact .inl hcu
  rw [heq, List.append_assoc, List.cons_append, List.isChain_split]
  refine ⟨hleft, ?_⟩
  rcases hr with ⟨rfl, _⟩ | ⟨rfl, hfin, _⟩
  · exact List.isChain_cons.mpr ⟨hnext c, h.chain_right⟩
  · refine List.isChain_cons_cons.mpr ⟨.inr (.inr ⟨hcu, hfin⟩), ?_⟩
    exact List.isChain_cons.mpr ⟨hnext _, h.chain_right⟩

theorem Wf.take (hsz : sz ≤ b.size) (hpage : sz ≤ 4096 - hdrSz) (hreq : req ≤ sz) (magic : Bool) :
    Wf 0 n (l₁ ++ b.take sz magic ++ l₂) ((b.addr + hdrSz, req) :: live) := by
  obtain ⟨c, r, heq, hcu, hca, hcp, hcs, hr⟩ := Blk.take_eq hsz magic
  have hsurvive : Survive (l₁ ++ b :: l₂) (l₁ ++ b.take sz magic ++ l₂) := .of_mem fun x hx hu => by
    rcases h.used_ne hb hx hu with hx | hx <;> simp [hx]
  have hcmem : c ∈ l₁ ++ b.take sz magic ++ l₂ := by simp [heq]
  refine ⟨?_, h.take_chain hb hsz magic, ?_, ?_, ?_, ?_, ?_⟩
  · have ht := h.tiles
    rw [show l₁ ++ b :: l₂ = l₁ ++ [b] ++ l₂ by simp] at ht
    exact ht.replace Blk.addr_lt_fin (Tiles.singleton b) (Blk.take_tiles magic)
  · intro x t hx
    rw [heq, List.append_assoc, List.cons_append] at hx
    exact .inl (h.head_used hcu hx)
  · intro x y t hx hy
    rw [heq] at hx
    match l₁, h, hx with
    | [], h, hx =>
      -- only the fresh heap has an unused first block
      rcases h.head b l₂ rfl with hu | ⟨hnil, hfull⟩
      · rw [hb] at hu; cases hu
      · subst hnil
        rcases hr with ⟨rfl, _⟩ | ⟨rfl, _, _⟩
        · simp at hx
        · simp only [List.nil_append, List.append_nil, List.cons.injEq] at hx
          rw [← hx.2.1]
          simp only [Blk.rest, hfull, hdrSz, heapBlocks] at hpage ⊢
          omega
    | [a], h, hx =>
      simp only [List.cons_append, List.nil_append, List.cons.injEq] at hx
      rw [← hx.2.1, hcu] at hy
      cases hy
    | a :: d :: l₁, h, hx =>
      simp only [List.cons_append, List.cons.injEq] at hx
      exact hx.2.1 ▸ h.second a d (l₁ ++ b :: l₂) rfl (hx.2.1 ▸ hy)
  · intro x hx
    rw [heq] at hx
    simp only [List.mem_append, List.mem_cons] at hx
    rcases hx with (hx | rfl | hx) | hx
    · exact h.prev_survive hsurvive (y := x) (by simp [hx]) rfl rfl
    · exact h.prev_survive hsurvive (y := b) (by simp) hcp hca
    · rcases hr with ⟨rfl, _⟩ | ⟨rfl, _, _⟩
      · cases hx
      · simp only [List.mem_cons, List.not_mem_nil, or_false] at hx
        subst hx
        exact .inr ⟨c, hcmem, hcu, hca⟩
    · exact h.prev_survive hsurvive (y := x) (by simp [hx]) rfl rfl
  · intro p hp
    rcases List.mem_cons.mp hp with rfl | hp
    · exact ⟨c, hcmem, hcu, by rw [hca], by omega⟩
    · exact hsurvive.holds (h.holds p hp)
  · -- a live pointer is the payload of a used block
    rw [List.map_cons, List.nodup_cons]
    refine ⟨fun hc => ?_, h.nodup⟩
    obtain ⟨p, hp, he⟩ := List.mem_map.mp hc
    obtain ⟨d, hd, hu, hp1, _⟩ := h.holds p hp
    have hdb : d = b := h.inj hd (by simp) (by simp only at he; omega)
    rw [hdb, hb] at hu
    cases hu

end Take

/-! ## Merging with the next block -/

section Absorb

variable {n : Nat} {l₁ l₂ : List Blk} {b c : Blk} {live : List (Nat × Nat)}
  (h : Wf 0 n (l₁ ++ b :: c :: l₂) live) (hb : b.used = true) (hc : c.used = false)
include h hc

/-- An unused block that is not the first one lies right behind the block before it. -/
theorem Wf.adjacent : b.fin = c.addr := by
  have hchain := h.chain
  rw [List.isChain_append_cons_cons] at hchain
  rcases hchain.2.1 with h1 | h1 | h1
  · rw [hc] at h1; cases h1
  · exact absurd h1 (h.addr_ne_zero (by simp))
  · exact h1.2

include hb

/-- The previous pointer of a used block never is the unused block after it. -/
theorem Wf.prev_ne_next : b.prev ≠ c.addr := by
  intro he
  rcases h.prev b (by simp) with h1 | ⟨d, hd, hu, h1⟩
  · have hbc := h.inj (a := b) (b := c) (by simp) (by simp) (h1.symm.trans he)
    rw [hbc, hc] at hb; cases hb
  · have hdc := h.inj hd (b := c) (by simp) (h1.trans he)
    rw [hdc, hc] at hu; cases hu

theorem Wf.absorb : Wf 0 n (l₁ ++ b.absorb c :: l₂) live := by
  have hadj := h.adjacent hc
  have hfin : (b.absorb c).fin = c.fin := by
    simp only [Blk.absorb, Blk.fin, hdrSz] at hadj ⊢; omega
  have hw : Wf c.addr n ((l₁ ++ [b]) ++ c :: l₂) live := by
    rw [List.append_assoc]; exact h.weaken
  have hsurvive : Survive (l₁ ++ b :: c :: l₂) (l₁ ++ b.absorb c :: l₂) := by
    intro x hx hu
    simp only [List.mem_append, List.mem_cons] at hx
    rcases hx with hx | rfl | rfl | hx
    · exact ⟨x, by simp [hx], hu, rfl, Nat.le_refl _⟩
    · exact ⟨x.absorb c, by simp, hb, rfl, by simp only [Blk.absorb]; omega⟩
    · rw [hc] at hu; cases hu
    · exact ⟨x, by simp [hx], hu, rfl, Nat.le_refl _⟩
  refine ⟨?_, ?_, ?_, ?_, ?_, ?_, h.nodup⟩
  · have ht := h.tiles
    rw [show l₁ ++ b :: c :: l₂ = l₁ ++ [b, c] ++ l₂ by simp] at ht
    have hone : Tiles Blk.addr Blk.fin [b.absorb c] b.addr c.fin := by
      rw [← hfin]; exact Tiles.singleton _
    have := ht.replace Blk.addr_lt_fin
      (Tiles.pair hadj (Blk.addr_lt_fin _).le (Blk.addr_lt_fin _).le) hone
    simpa using this
  · rw [List.isChain_split]
    have hleft := (List.isChain_append.mp hw.chain_left)
    refine ⟨List.isChain_append.mpr ⟨hleft.1, .singleton _, fun x _ y hy => ?_⟩,
      List.isChain_cons.mpr ⟨fun y hy => .inl (hw.next_used hc hy), hw.chain_right⟩⟩
    cases hy
    exact .inl hb
  · intro x t hx
    exact .inl (h.head_used (c := b.absorb c) hb hx)
  · intro x y t hx hy
    rcases l₁ with _ | ⟨a, _ | ⟨d, l₁⟩⟩
    · simp only [List.nil_append, List.cons.injEq] at hx
      have := hw.next_used hc (y := y) (by rw [hx.2]; rfl)
      rw [hy] at this
      cases this
    · simp only [List.cons_append, List.nil_append, List.cons.injEq] at hx
      have hyu : y.used = true := hx.2.1 ▸ hb
      rw [hy] at hyu
      cases hyu
    · simp only [List.cons_append, List.cons.injEq] at hx
      exact hx.2.1 ▸ h.second a d (l₁ ++ b :: c :: l₂) rfl (hx.2.1 ▸ hy)
  · intro x hx
    simp only [List.mem_append, List.mem_cons] at hx
    rcases hx with hx | rfl | hx
    · exact h.prev_survive hsurvive (y := x) (by simp [hx]) rfl rfl
    · exact h.prev_survive hsurvive (y := b) (by simp) rfl rfl
    · exact h.prev_survive hsurvive (y := x) (by simp [hx]) rfl rfl
  · exact fun p hp => hsurvive.holds (h.holds p hp)

end Absorb

/-! ## A new region -/

theorem newBlk_fin (ret prev : Nat) : (newBlk ret prev).fin = ret + 4096 * heapBlocks := by
  show ret + hdrSz + (4096 * heapBlocks - hdrSz) = ret + 4096 * heapBlocks
  unfold hdrSz heapBlocks
  omega

theorem Wf.first : Wf 0 heapBlocks [newBlk heapStart heapStart] [] := by
  refine ⟨?_, .singleton _, ?_, ?_, ?_, ?_, List.nodup_nil⟩
  · rw [← newBlk_fin heapStart heapStart]
    exact Tiles.singleton _
  · intro b t hb
    cases hb
    exact .inr ⟨rfl, rfl⟩
  · intro a b t hb
    cases hb
  · intro b hb
    simp only [List.mem_cons, List.not_mem_nil, or_false] at hb
    exact .inl (by rw [hb]; rfl)
  · intro p hp
    cases hp

/-- Growth puts the new region second. The block after it must be used, or it would not follow
the block it was split from any more. -/
theorem Wf.grow {n : Nat} {l : List Blk} {b : Blk} {live : List (Nat × Nat)}
    (h : Wf 0 n (b :: l) live) (hb : b.used = true) (hnext : ∀ y ∈ l.head?, y.used = true) :
    Wf (heapStart + 4096 * n) (n + heapBlocks)
      (b :: newBlk (heapStart + 4096 * n) b.addr :: l) live := by
  have hsurvive : Survive (b :: l) (b :: newBlk (heapStart + 4096 * n) b.addr :: l) :=
    .of_mem fun x hx _ => by rcases List.mem_cons.mp hx with rfl | hx <;> simp [*]
  refine ⟨?_, ?_, ?_, ?_, ?_, ?_, h.nodup⟩
  · have ht0 : Tiles Blk.addr Blk.fin ([b] ++ l) heapStart (heapStart + 4096 * n) := h.tiles
    have ht := ht0.extend Blk.addr_lt_fin (b := newBlk (heapStart + 4096 * n) b.addr) rfl (by omega)
    rw [newBlk_fin] at ht
    rwa [show heapStart + 4096 * (n + heapBlocks) = heapStart + 4096 * n + 4096 * heapBlocks by omega]
  · refine List.isChain_cons_cons.mpr ⟨.inr (.inl rfl), List.isChain_cons.mpr ⟨?_, ?_⟩⟩
    · exact fun y hy => .inl (hnext y hy)
    · have hw : Wf (heapStart + 4096 * n) n (b :: l) live := h.weaken
      exact (List.isChain_cons.mp hw.chain).2
  · intro x t hx
    cases hx
    exact .inl hb
  · intro x y t hx _
    cases hx
    simp only [newBlk, hdrSz, heapBlocks]
    omega
  · intro x hx
    simp only [List.mem_cons] at hx
    rcases hx with rfl | rfl | hx
    · exact h.prev_survive hsurvive (y := x) (by simp) rfl rfl
    · exact .inr ⟨b, by simp, hb, rfl⟩
    · exact h.prev_survive hsurvive (y := x) (by simp [hx]) rfl rfl
  · exact fun p hp => hsurvive.holds (h.holds p hp)

end Heap
end Frod
