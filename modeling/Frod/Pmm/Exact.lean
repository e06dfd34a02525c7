import Mathlib.Order.Bounds.Basic
import Frod.Pmm.Place

/-!
# Frod.Pmm.Exact

The exact meaning of `init_pmm` on well-formed memory maps: entries below 4 GB in increasing order,
none of them empty, available ones at least a block long.

On such a map the walk's `expected` pointer accounts for every address below the maximum once:
`mem_markedRanges` says that the ranges it marks are what no available entry contains.
`initPmm_exact` carries this to the bitmap in memory.
-/

namespace Frod
namespace Pmm

open BitArray

structure WellFormed (es : List MmapEntry) : Prop where
  nonempty : ∀ e ∈ es, 0 < e.length
  disjoint : es.Pairwise fun e f => e.stop ≤ f.base ∨ f.stop ≤ e.base
  increasing : es.Pairwise fun e f => e.base < f.base
  below : ∀ e ∈ es, e.stop ≤ 2 ^ 32 - 1
  large : ∀ e ∈ es, e.type = 1 → blkSz ≤ e.length

/-- The largest end of an available entry. -/
def topAvailable : List MmapEntry → Nat
  | [] => 0
  | e :: es => if e.type = 1 then max e.stop (topAvailable es) else topAvailable es

theorem WellFormed.sorted {es : List MmapEntry} (h : WellFormed es) :
    es.Pairwise fun e f => e.stop ≤ f.base := by
  refine (h.disjoint.and h.increasing).imp ?_
  rintro e f ⟨hd, hi⟩
  unfold MmapEntry.stop at *
  omega

theorem le_topAvailable : ∀ {es : List MmapEntry}, ∀ e ∈ es, e.type = 1 → e.stop ≤ topAvailable es := by
  intro es
  induction es with
  | nil => intro e he; cases he
  | cons f es ih =>
    intro e he ht
    rw [topAvailable]
    rcases List.mem_cons.mp he with rfl | he
    · rw [if_pos ht]; exact le_max_left _ _
    · have := ih e he ht
      split
      · exact le_trans this (le_max_right _ _)
      · exact this

theorem topAvailable_cases : ∀ es : List MmapEntry,
    topAvailable es = 0 ∨ ∃ e ∈ es, e.type = 1 ∧ e.stop = topAvailable es := by
  intro es
  induction es with
  | nil => exact .inl rfl
  | cons f es ih =>
    rw [topAvailable]
    split
    · rename_i hf
      rcases le_total (topAvailable es) f.stop with hle | hle
      · exact .inr ⟨f, by simp, hf, (max_eq_left hle).symm⟩
      · rw [max_eq_right hle]
        exact ih.imp id fun ⟨e, he, h⟩ => ⟨e, by simp [he], h⟩
    · exact ih.imp id fun ⟨e, he, h⟩ => ⟨e, by simp [he], h⟩

theorem exists_topAvailable {es : List MmapEntry} (h : ∃ e ∈ es, e.type = 1) :
    ∃ e ∈ es, e.type = 1 ∧ e.stop = topAvailable es := by
  rcases topAvailable_cases es with h0 | h1
  · obtain ⟨e, he, ht⟩ := h
    have := le_topAvailable e he ht
    exact ⟨e, he, ht, by omega⟩
  · exact h1

/-- The last available entry of a sorted map has the largest end. -/
theorem getMaxSpaceLoop_eq_topAvailable : ∀ {es : List MmapEntry} {acc : Nat},
    es.Pairwise (fun e f => e.stop ≤ f.base) → (∀ e ∈ es, e.stop < 2 ^ 32) → (∀ e ∈ es, acc ≤ e.base) →
      getMaxSpaceLoop acc es = max acc (topAvailable es) := by
  intro es
  induction es with
  | nil => intro acc _ _ _; exact (max_eq_left (Nat.zero_le _)).symm
  | cons e es ih =>
    intro acc hsorted hbelow hacc
    obtain ⟨hhead, htail⟩ := List.pairwise_cons.mp hsorted
    have hend := (MmapEntry.low_words (hbelow e (by simp))).2.2
    have hle : acc ≤ e.stop := le_trans (hacc e (by simp)) (Nat.le_add_right _ _)
    have hbelow' : ∀ f ∈ es, f.stop < 2 ^ 32 := fun f hf => hbelow f (by simp [hf])
    rw [getMaxSpaceLoop, topAvailable]
    split
    · rw [ih htail hbelow' (by rw [hend]; exact hhead), hend, ← max_assoc, max_eq_right hle]
    · exact ih htail hbelow' fun f hf => hacc f (by simp [hf])

theorem WellFormed.getMaxSpace_eq {es : List MmapEntry} (h : WellFormed es) :
    getMaxSpace es = topAvailable es := by
  have := getMaxSpaceLoop_eq_topAvailable h.sorted
    (fun e he => Nat.lt_of_le_of_lt (h.below e he) (by decide)) (fun e _ => Nat.zero_le e.base)
  rw [getMaxSpace, this, max_eq_right (Nat.zero_le _)]

/-! ## The ranges the third pass marks -/

/-- What is left of a well-formed map when the walk has accounted for the addresses below `x`. -/
structure Tail (max x : Nat) (es : List MmapEntry) : Prop where
  sorted : es.Pairwise fun e f => e.stop ≤ f.base
  start : ∀ e ∈ es, x ≤ e.base
  nonempty : ∀ e ∈ es, 0 < e.length
  below : ∀ e ∈ es, e.stop < 2 ^ 32
  large : ∀ e ∈ es, e.type = 1 → e.base + blkSz ≤ e.stop
  le : ∀ e ∈ es, e.type = 1 → e.stop ≤ max
  top : max ≤ x ∨ ∃ f ∈ es, f.type = 1 ∧ f.stop = max

section Tail

variable {max x : Nat} {e : MmapEntry} {es : List MmapEntry}

/-- An entry that is reached starts a block before the maximum, and so does the end of one that is
not available. -/
theorem Tail.visit (h : Tail max x (e :: es)) (hx : x < max) :
    e.base + blkSz ≤ max ∧ (e.type ≠ 1 → e.stop + blkSz ≤ max) ∧ Tail max e.stop es := by
  obtain ⟨f, hf, hft, hfm⟩ : ∃ f ∈ e :: es, f.type = 1 ∧ f.stop = max := by
    rcases h.top with hm | hm
    · omega
    · exact hm
  obtain ⟨hhead, htail⟩ := List.pairwise_cons.mp h.sorted
  have hsub : ∀ f ∈ es, f ∈ e :: es := fun f hf => List.mem_cons_of_mem _ hf
  have hrest : (max ≤ e.stop ∨ ∃ f ∈ es, f.type = 1 ∧ f.stop = max) → Tail max e.stop es := fun ht =>
    ⟨htail, hhead, fun f hf => h.nonempty f (hsub f hf), fun f hf => h.below f (hsub f hf),
      fun f hf => h.large f (hsub f hf), fun f hf => h.le f (hsub f hf), ht⟩
  have hlarge := h.large f hf hft
  rcases List.mem_cons.mp hf with rfl | hf
  · exact ⟨by omega, fun hn => absurd hft hn, hrest (.inl (by omega))⟩
  · have := hhead f hf
    have hle : e.base ≤ e.stop := Nat.le_add_right _ _
    exact ⟨by omega, fun _ => by omega, hrest (.inr ⟨f, hf, hft, hfm⟩)⟩

theorem Tail.markedRanges_done (h : Tail max x es) (hmax : blkSz ≤ max) (hlt : max < 2 ^ 32)
    (hx : max ≤ x) : markedRanges max x es = [] := by
  cases es with
  | nil => rfl
  | cons e es =>
    have hbase := (MmapEntry.low_words (h.below e (by simp))).1
    have := h.start e (by simp)
    unfold blkSz at hmax
    rw [markedRanges, if_neg]
    rw [hbase]
    omega

theorem Tail.markedRanges_cons (h : Tail max x (e :: es)) (hlt : max < 2 ^ 32) (hx : x < max) :
    markedRanges max x (e :: es) =
      (if x < e.base then [(x, e.base)] else []) ++ (if e.type ≠ 1 then [(e.base, e.stop)] else []) ++
        markedRanges max e.stop es := by
  obtain ⟨hvisit, hstop, _⟩ := h.visit hx
  obtain ⟨hbase, _, hend⟩ := MmapEntry.low_words (h.below e (by simp))
  unfold blkSz at hvisit hstop
  have htop : (max + 2 ^ 32 - 1) % 2 ^ 32 = max - 1 := by omega
  rw [markedRanges, hbase, hend, htop, if_pos (by omega)]
  have hiff : (e.type ≠ 1 ∧ e.stop < max - 1) ↔ e.type ≠ 1 :=
    ⟨fun hc => hc.1, fun hn => ⟨hn, by have := hstop hn; omega⟩⟩
  simp only [hiff, gt_iff_lt]

/-- The marked ranges are not empty and end a block before the maximum. -/
theorem Tail.bounds (hmax : blkSz ≤ max) (hlt : max < 2 ^ 32) : ∀ {es : List MmapEntry} {x : Nat},
    Tail max x es → ∀ r ∈ markedRanges max x es, r.1 < r.2 ∧ r.2 + blkSz ≤ max := by
  intro es
  induction es with
  | nil => intro x _ r hr; cases hr
  | cons e es ih =>
    intro x h r hr
    by_cases hx : max ≤ x
    · rw [h.markedRanges_done hmax hlt hx] at hr
      cases hr
    · have hx : x < max := Nat.lt_of_not_le hx
      obtain ⟨hvisit, hstop, hrest⟩ := h.visit hx
      have hpos := h.nonempty e (by simp)
      rw [h.markedRanges_cons hlt hx, List.mem_append, List.mem_append] at hr
      rcases hr with (hr | hr) | hr
      · split at hr
        · rename_i hgap
          rw [List.mem_singleton] at hr
          rw [hr]
          exact ⟨hgap, hvisit⟩
        · cases hr
      · split at hr
        · rename_i ht
          rw [List.mem_singleton] at hr
          rw [hr]
          exact ⟨Nat.lt_add_of_pos_right hpos, hstop ht⟩
        · cases hr
      · exact ih hrest r hr

/-- The marked ranges hold exactly the addresses below the maximum that no available entry
contains. -/
theorem mem_markedRanges (hmax : blkSz ≤ max) (hlt : max < 2 ^ 32) (a : Nat) :
    ∀ {es : List MmapEntry} {x : Nat}, Tail max x es →
      ((∃ r ∈ markedRanges max x es, r.1 ≤ a ∧ a < r.2) ↔
        x ≤ a ∧ a < max ∧ ∀ e ∈ es, e.type = 1 → ¬ (e.base ≤ a ∧ a < e.stop)) := by
  intro es
  induction es with
  | nil =>
    intro x h
    have hx : max ≤ x := by
      rcases h.top with hm | ⟨f, hf, _⟩
      · exact hm
      · cases hf
    rw [h.markedRanges_done hmax hlt hx]
    constructor
    · rintro ⟨r, hr, _⟩; cases hr
    · rintro ⟨h1, h2, _⟩; omega
  | cons e es ih =>
    intro x h
    by_cases hx : max ≤ x
    · rw [h.markedRanges_done hmax hlt hx]
      constructor
      · rintro ⟨r, hr, _⟩; cases hr
      · rintro ⟨h1, h2, _⟩; omega
    · have hx : x < max := Nat.lt_of_not_le hx
      obtain ⟨hvisit, hstop, hrest⟩ := h.visit hx
      have hstart := h.start e (by simp)
      have hhead := (List.pairwise_cons.mp h.sorted).1
      have hle : e.base ≤ e.stop := Nat.le_add_right _ _
      have hafter : a < e.stop → ∀ f ∈ es, f.type = 1 → ¬ (f.base ≤ a ∧ a < f.stop) :=
        fun ha f hf _ hc => by have := hhead f hf; omega
      rw [h.markedRanges_cons hlt hx]
      constructor
      · rintro ⟨r, hr, h1, h2⟩
        rw [List.mem_append, List.mem_append] at hr
        rcases hr with (hr | hr) | hr
        · split at hr
          · rw [List.mem_singleton] at hr
            subst hr
            refine ⟨h1, by omega, fun f hf ht => ?_⟩
            rcases List.mem_cons.mp hf with rfl | hf
            · omega
            · exact hafter (by omega) f hf ht
          · cases hr
        · split at hr
          · rename_i hn
            rw [List.mem_singleton] at hr
            subst hr
            have := hstop hn
            refine ⟨by omega, by omega, fun f hf ht => ?_⟩
            rcases List.mem_cons.mp hf with rfl | hf
            · exact absurd ht hn
            · exact hafter h2 f hf ht
          · cases hr
        · obtain ⟨h3, h4, h5⟩ := (ih hrest).mp ⟨r, hr, h1, h2⟩
          refine ⟨by omega, h4, fun f hf ht => ?_⟩
          rcases List.mem_cons.mp hf with rfl | hf
          · omega
          · exact h5 f hf ht
      · rintro ⟨h1, h2, h3⟩
        -- before the entry, inside it, or after it
        by_cases ha : a < e.base
        · refine ⟨(x, e.base), ?_, h1, ha⟩
          rw [if_pos (by omega)]
          exact List.mem_append_left _ (List.mem_append_left _ (List.mem_singleton.mpr rfl))
        · by_cases ha' : a < e.stop
          · refine ⟨(e.base, e.stop), ?_, by omega, ha'⟩
            rw [if_pos (fun ht => h3 e (by simp) ht ⟨by omega, ha'⟩)]
            exact List.mem_append_left _ (List.mem_append_right _ (List.mem_singleton.mpr rfl))
          · obtain ⟨r, hr, h4, h5⟩ :=
              (ih hrest).mpr ⟨by omega, h2, fun f hf ht => h3 f (by simp [hf]) ht⟩
            exact ⟨r, List.mem_append_right _ hr, h4, h5⟩

end Tail

/-- A block meets a range that is not empty when it has an address of it. -/
theorem meets_iff {r : Nat × Nat} (h : r.1 < r.2) (b : Nat) :
    Meets r b ↔ ∃ a, (r.1 ≤ a ∧ a < r.2) ∧ a / blkSz = b := by
  simp only [Meets, blkSz]
  constructor
  · rintro ⟨h1, h2⟩
    exact ⟨max r.1 (b * 4096), by omega, by omega⟩
  · rintro ⟨a, h1, h2⟩
    omega

/-! ## The place of the bitmap -/

theorem pmmBytes_eq (sz : Nat) : pmmBytes sz = (sz + 7) / 8 := by
  unfold pmmBytes
  split <;> omega

theorem pmmBytes_le_blocksBitmap (sz : Nat) : pmmBytes sz ≤ blocksBitmap sz * blkSz := by
  rw [blocksBitmap, pmmBytes_eq, blkSz]
  split <;> omega

theorem alignUpwards_spec {a : Nat} (h : a + blkSz ≤ 2 ^ 32) :
    alignDownwards (alignUpwards a blkSz) blkSz % blkSz = 0 ∧
      a ≤ alignDownwards (alignUpwards a blkSz) blkSz ∧
      alignDownwards (alignUpwards a blkSz) blkSz < a + blkSz := by
  unfold alignDownwards alignUpwards
  by_cases ha : a % blkSz = 0
  · rw [if_neg (fun hn => hn ha)]
    simp only [blkSz] at *
    omega
  · rw [if_pos ha]
    simp only [blkSz] at *
    omega

/-- The test finds an aligned address inside an available entry, with room for the blocks. -/
theorem bitmapBase_some {e : MmapEntry} {blocks base : Nat} (hlt : e.stop < 2 ^ 32)
    (hlarge : e.type = 1 → e.base + blkSz ≤ e.stop) (h : bitmapBase blocks e = some base) :
    e.type = 1 ∧ base % blkSz = 0 ∧ e.base ≤ base ∧ base + blocks * blkSz ≤ e.stop := by
  obtain ⟨hbase, _, hend⟩ := MmapEntry.low_words hlt
  rw [bitmapBase, hbase, hend] at h
  split at h
  · rename_i hc
    have hl := hlarge hc.1
    obtain ⟨h1, h2, h3⟩ := alignUpwards_spec (a := e.base) (by omega)
    dsimp only at h
    generalize alignDownwards (alignUpwards e.base blkSz) blkSz = c at h h1 h2 h3
    split at h
    · rename_i hfit
      obtain rfl := Option.some.inj h
      refine ⟨hc.1, h1, h2, ?_⟩
      simp only [blkSz] at *
      omega
    · cases h
  · cases h

theorem bitmapBase_isSome {e : MmapEntry} {blocks : Nat} (hlt : e.stop < 2 ^ 32) (ht : e.type = 1)
    (h : HoldsBlocks blocks e) (hpos : 0 < blocks) : (bitmapBase blocks e).isSome = true := by
  obtain ⟨k, h1, h2⟩ := h
  obtain ⟨hbase, hlen, hend⟩ := MmapEntry.low_words hlt
  have hstop : e.stop = e.base + e.length := rfl
  obtain ⟨h3, h4, h5⟩ := alignUpwards_spec (a := e.base) (by simp only [blkSz] at *; omega)
  rw [bitmapBase, hbase, hlen, hend, if_pos ⟨ht, by simp only [blkSz] at *; omega⟩]
  dsimp only
  generalize alignDownwards (alignUpwards e.base blkSz) blkSz = c at h3 h4 h5 ⊢
  rw [if_pos (by simp only [blkSz] at *; omega)]
  rfl

section WellFormed

variable {es : List MmapEntry} (h : WellFormed es)
include h

theorem WellFormed.tail (ht : ∃ e ∈ es, e.type = 1) : Tail (topAvailable es) 0 es :=
  ⟨h.sorted, fun e _ => Nat.zero_le e.base, h.nonempty,
    fun e he => Nat.lt_of_le_of_lt (h.below e he) (by decide),
    fun e he h1 => Nat.add_le_add_left (h.large e he h1) _, le_topAvailable,
    .inr (exists_topAvailable ht)⟩

/-- The maximum lies below 4 GB, and there is a block below it. -/
theorem WellFormed.topAvailable_bounds (ht : ∃ e ∈ es, e.type = 1) :
    blkSz ≤ topAvailable es ∧ topAvailable es < 2 ^ 32 := by
  obtain ⟨e, he, h1, htop⟩ := exists_topAvailable ht
  have hl := (h.tail ht).large e he h1
  have hb := (h.tail ht).below e he
  omega

theorem WellFormed.placed {blocks base : Nat} (ht : ∃ e ∈ es, e.type = 1)
    (hbase : placeBitmap blocks es = some base) : base % blkSz = 0 ∧
      ∃ e ∈ es, e.type = 1 ∧ e.base ≤ base ∧ base + blocks * blkSz ≤ e.stop := by
  have htail := h.tail ht
  obtain ⟨f, hf, hfb⟩ := List.exists_of_findSome?_eq_some hbase
  obtain ⟨h1, h2, h3, h4⟩ := bitmapBase_some (htail.below f hf) (htail.large f hf) hfb
  exact ⟨h2, f, hf, h1, h3, h4⟩

theorem WellFormed.exists_place {blocks : Nat} (hpos : 0 < blocks)
    (hroom : ∃ e ∈ es, e.type = 1 ∧ HoldsBlocks blocks e) : ∃ base, placeBitmap blocks es = some base := by
  obtain ⟨e, he, ht, hholds⟩ := hroom
  have hbelow := (h.tail ⟨e, he, ht⟩).below e he
  exact Option.isSome_iff_exists.mp
    (List.findSome?_isSome_iff.mpr ⟨e, he, bitmapBase_isSome hbelow ht hholds hpos⟩)

theorem WellFormed.blocksBitmap_pos (ht : ∃ e ∈ es, e.type = 1) :
    0 < blocksBitmap (topAvailable es / blkSz) := by
  have hblk := (h.topAvailable_bounds ht).1
  have hcovers := pmmBytes_le_blocksBitmap (topAvailable es / blkSz)
  have hbytes := pmmBytes_eq (topAvailable es / blkSz)
  rcases Nat.eq_zero_or_pos (blocksBitmap (topAvailable es / blkSz)) with h0 | h0
  · rw [h0] at hcovers
    simp only [blkSz] at *
    omega
  · exact h0

theorem WellFormed.own_le {base : Nat} (ht : ∃ e ∈ es, e.type = 1)
    (hbase : placeBitmap (blocksBitmap (topAvailable es / blkSz)) es = some base) :
    base / blkSz + blocksBitmap (topAvailable es / blkSz) ≤ topAvailable es / blkSz := by
  obtain ⟨halign, e, he, het, _, hfit⟩ := h.placed ht hbase
  have hetop := le_topAvailable e he het
  generalize blocksBitmap (topAvailable es / blkSz) = n at hfit ⊢
  simp only [blkSz] at *
  omega

end WellFormed

/-! ## The bitmap in memory -/

/-- What `init_pmm` leaves in memory for the map `es`: `max` is the value it returns and `base` is
`pmm_bitmap`. -/
structure Initialised (es : List MmapEntry) (before after : Mem) (max base : Nat) : Prop where
  greatest : IsGreatest {a | ∃ e ∈ es, e.type = 1 ∧ e.stop = a} max
  aligned : base % blkSz = 0
  inEntry : ∃ e ∈ es, e.type = 1 ∧ e.base ≤ base ∧ base + blocksBitmap (max / blkSz) * blkSz ≤ e.stop
  covers : (max / blkSz + 7) / 8 ≤ blocksBitmap (max / blkSz) * blkSz
  outside : ∀ x, x < base ∨ base + (max / blkSz + 7) / 8 ≤ x → after x = before x
  padding : ∀ b, max / blkSz ≤ b → b < 8 * ((max / blkSz + 7) / 8) →
    isSet (fun i => after (base + i)) b = false
  bits : ∀ b < max / blkSz, isSet (fun i => after (base + i)) b = true ↔
    b = 0 ∨ (base / blkSz ≤ b ∧ b < base / blkSz + blocksBitmap (max / blkSz)) ∨
      ∃ a < max, a / blkSz = b ∧ ∀ e ∈ es, e.type = 1 → ¬ (e.base ≤ a ∧ a < e.stop)

section Blocks

variable {es : List MmapEntry} {base : Nat} (h : WellFormed es) (ht : ∃ e ∈ es, e.type = 1)
include h

theorem WellFormed.lowTop_eq : lowTop es = topAvailable es :=
  (Pmm.getMaxSpace_eq es).symm.trans h.getMaxSpace_eq

theorem WellFormed.placeBitmap_eq :
    placeBitmap (blocksBitmap (topAvailable es / blkSz)) es = home es := by
  rw [← h.getMaxSpace_eq, Pmm.placeBitmap_eq]

include ht

/-- What is withheld ends a block before the maximum. -/
theorem WellFormed.withheld_le {lo hi : Nat} (hw : Withheld es lo hi) :
    lo < hi ∧ hi + blkSz ≤ topAvailable es := by
  obtain ⟨hblk, hlt⟩ := h.topAvailable_bounds ht
  rw [withheld_iff, h.getMaxSpace_eq] at hw
  exact (h.tail ht).bounds hblk hlt _ hw

/-- The blocks that meet what is withheld are those with an address that no available entry
contains. -/
theorem WellFormed.withheld_meets_iff (b : Nat) :
    (∃ lo hi, Withheld es lo hi ∧ Meets (lo, hi) b) ↔
      ∃ a < topAvailable es, a / blkSz = b ∧ ∀ e ∈ es, e.type = 1 → ¬ (e.base ≤ a ∧ a < e.stop) := by
  obtain ⟨hblk, hlt⟩ := h.topAvailable_bounds ht
  have hmem := fun a => mem_markedRanges hblk hlt a (h.tail ht)
  constructor
  · rintro ⟨lo, hi, hw, hmeets⟩
    obtain ⟨a, ha, hab⟩ := (meets_iff (h.withheld_le ht hw).1 b).mp hmeets
    rw [withheld_iff, h.getMaxSpace_eq] at hw
    obtain ⟨_, h1, h2⟩ := (hmem a).mp ⟨_, hw, ha⟩
    exact ⟨a, h1, hab, h2⟩
  · rintro ⟨a, h1, hab, h2⟩
    obtain ⟨r, hr, ha⟩ := (hmem a).mpr ⟨Nat.zero_le a, h1, h2⟩
    have hw : Withheld es r.1 r.2 := by
      rw [withheld_iff, h.getMaxSpace_eq]
      exact hr
    exact ⟨r.1, r.2, hw, (meets_iff (h.withheld_le ht hw).1 b).mpr ⟨a, ha, hab⟩⟩

theorem WellFormed.sweeps_iff {lo hi b : Nat} (hw : Withheld es lo hi) :
    Sweeps lo hi b ↔ Meets (lo, hi) b := by
  have hle := (h.withheld_le ht hw).2
  have hlt := (h.topAvailable_bounds ht).2
  refine or_iff_left fun hs => ?_
  simp only [lastBlock] at hs
  omega

/-- The blocks that are marked on a well-formed map with the bitmap at `base`. -/
theorem WellFormed.marked_iff (hhome : home es = some base) (b : Nat) : Marked es b ↔
    b = 0 ∨ (base / blkSz ≤ b ∧ b < base / blkSz + blocksBitmap (topAvailable es / blkSz)) ∨
      ∃ a < topAvailable es, a / blkSz = b ∧ ∀ e ∈ es, e.type = 1 → ¬ (e.base ≤ a ∧ a < e.stop) := by
  rw [Marked, ← h.withheld_meets_iff ht b]
  refine or_congr_right (or_congr ?_ ?_)
  · rw [Own, hhome, ownCount, h.lowTop_eq]
    constructor
    · rintro ⟨base', hbase, hb⟩
      obtain rfl := Option.some.inj hbase
      exact hb
    · exact fun hb => ⟨base, rfl, hb⟩
  · exact exists_congr fun lo => exists_congr fun hi => and_congr_right fun hw => h.sweeps_iff ht hw

theorem WellFormed.marked_lt (hhome : home es = some base) {b : Nat} (hb : Marked es b) :
    b < topAvailable es / blkSz := by
  have hblk := (h.topAvailable_bounds ht).1
  have hplace := h.placeBitmap_eq.trans hhome
  rcases (h.marked_iff ht hhome b).mp hb with rfl | ⟨_, h1⟩ | ⟨a, ha, rfl, hno⟩
  · exact Nat.div_pos hblk (by decide)
  · exact Nat.lt_of_lt_of_le h1 (h.own_le ht hplace)
  · obtain ⟨lo, hi, hw, hmeets⟩ := (h.withheld_meets_iff ht (a / blkSz)).mpr ⟨a, ha, rfl, hno⟩
    have hle := (h.withheld_le ht hw).2
    simp only [Meets, blkSz] at *
    omega

end Blocks

section Placed

variable {es : List MmapEntry} {base : Nat} (h : WellFormed es) (ht : ∃ e ∈ es, e.type = 1)
  (hhome : home es = some base)
include h hhome

theorem WellFormed.cleared_eq : Ram.cleared es = pmmBytes (topAvailable es / blkSz) := by
  rw [Ram.cleared, hhome, Option.elim_some, h.lowTop_eq]

include ht

theorem WellFormed.bitmap_le : base + pmmBytes (topAvailable es / blkSz) ≤ 2 ^ 32 := by
  obtain ⟨_, e, he, _, _, hfit⟩ := h.placed ht (h.placeBitmap_eq.trans hhome)
  have hestop := h.below e he
  have hcovers := pmmBytes_le_blocksBitmap (topAvailable es / blkSz)
  omega

/-- Bytes apart from the bitmap are kept. -/
theorem WellFormed.keepsByte {s : Ram} {x : Nat}
    (hno : pmmBytes (topAvailable es / blkSz) ≤ Ram.byteNo base x) : Ram.KeepsByte s es x := by
  have hptr : s.bitmapAt es = base := by
    rw [Ram.bitmapAt, hhome]
    rfl
  refine Ram.keepsByte_of_apart (by rw [h.cleared_eq hhome, hptr]; exact hno) fun b hb => ?_
  have := div_lt_pmmBytes (h.marked_lt ht hhome hb)
  rw [hptr]
  omega

/-- Memory with the bits of the marked blocks laid over it at `base`. -/
theorem WellFormed.initialised {m : Mem} {a : BitArray} (hbits : ∀ b, isSet a b = true ↔ Marked es b) :
    Initialised es m (Ram.overlay m base (pmmBytes (topAvailable es / blkSz)) a) (topAvailable es)
      base := by
  have hlt := (h.topAvailable_bounds ht).2
  have hbound := h.bitmap_le ht hhome
  obtain ⟨halign, e, he, het, hbase, hfit⟩ := h.placed ht (h.placeBitmap_eq.trans hhome)
  have hmarked := h.marked_iff ht hhome
  have hmarkedlt : ∀ b, Marked es b → b < topAvailable es / blkSz := fun b => h.marked_lt ht hhome
  have hcovers := pmmBytes_le_blocksBitmap (topAvailable es / blkSz)
  have hbytes := pmmBytes_eq (topAvailable es / blkSz)
  obtain ⟨f, hf, hft, hftop⟩ := exists_topAvailable ht
  generalize hsz : topAvailable es / blkSz = sz at *
  generalize hn : pmmBytes sz = n at *
  have hview : ∀ b, b / 8 < n →
      (isSet (fun i => Ram.overlay m base n a (base + i)) b = true ↔ isSet a b = true) := by
    intro b hb
    have hread : isSet (fun i => Ram.overlay m base n a (base + i)) b =
        isSet (fun i => Ram.overlay m base n a ((base + i) % 2 ^ 32)) b := by
      rw [isSet, isSet, Nat.mod_eq_of_lt (by omega)]
    rw [hread, Ram.isSet_overlay (by omega) (by omega)]
    exact or_iff_right fun h => h.1 hb
  refine ⟨⟨⟨f, hf, hft, hftop⟩, ?_⟩, halign, ⟨e, he, het, hbase, ?_⟩, ?_, ?_, ?_, ?_⟩
  · rintro _ ⟨g, hg, hgt, rfl⟩
    exact le_topAvailable g hg hgt
  · rw [hsz]
    exact hfit
  · rw [hsz, ← hbytes]
    exact hcovers
  · -- a byte that no marked block lies in is as it was
    intro x hx
    by_cases hx32 : x < 2 ^ 32
    · have hno : n ≤ Ram.byteNo base x := by
        unfold Ram.byteNo
        omega
      refine (Ram.overlay_eq_iff hx32).mpr fun b hb => ⟨fun ha => ?_, fun hlt => by omega⟩
      have := div_lt_pmmBytes (hmarkedlt b ((hbits b).mp ha))
      omega
    · rw [Ram.overlay, if_neg hx32]
  · rw [hsz]
    intro b hb1 hb2
    rw [Bool.eq_false_iff, Ne, hview b (by omega), hbits]
    exact fun hb => absurd (hmarkedlt b hb) (Nat.not_lt.mpr hb1)
  · rw [hsz]
    intro b hb
    have := div_lt_pmmBytes hb
    rw [hview b (by omega), hbits, hmarked]

end Placed

/-- The bitmap that `init_pmm` leaves at a base it has found. -/
theorem initPmm_initialised {s : Ram} {es : List MmapEntry} {mmap len fuel base : Nat}
    (hmap : Ram.HoldsMap s.mem mmap es) (hlen : len = 24 * es.length) (hend : mmap + len < 2 ^ 32)
    (hwf : WellFormed es) (ht : ∃ e ∈ es, e.type = 1)
    (hplace : placeBitmap (blocksBitmap (topAvailable es / blkSz)) es = some base)
    (hapart : mmap + len ≤ base ∨ base + (topAvailable es / blkSz + 7) / 8 ≤ mmap)
    (hfuel : es.length < fuel) :
    ∃ after, s.initPmm fuel mmap len =
        .ok (topAvailable es, ⟨after, base, topAvailable es / blkSz⟩) ∧
      Initialised es s.mem after (topAvailable es) base := by
  have hhome : home es = some base := hwf.placeBitmap_eq.symm.trans hplace
  have hptr : s.bitmapAt es = base := by
    rw [Ram.bitmapAt, hhome]
    rfl
  have hbound := hwf.bitmap_le ht hhome
  have hbytes := pmmBytes_eq (topAvailable es / blkSz)
  -- the bytes of the entries lie apart from those that are set
  have hkept : ∀ x, Ram.InEntry s.mem ((mmap + len) % 2 ^ 32) mmap x → Ram.KeepsByte s es x := by
    intro x hx
    obtain ⟨h1, h2⟩ := hmap.inMap hlen hend (.inr hx)
    refine hwf.keepsByte ht hhome ?_
    unfold Ram.byteNo
    omega
  have hmapAt : Ram.MapAt s.mem ((mmap + len) % 2 ^ 32) mmap es := by
    rw [Nat.mod_eq_of_lt hend]
    exact hmap.mapAt (by omega) hend
  rcases Ram.initPmm_kept (hptr ▸ home_lt hhome) hmapAt hkept hfuel with
    ⟨a, _, hinit, hbits⟩ | ⟨⟨lo, hi, hw, hlast⟩, _⟩
  · rw [hptr, hwf.cleared_eq hhome, hwf.lowTop_eq] at hinit
    exact ⟨_, hinit, hwf.initialised ht hhome hbits⟩
  · -- no range of a well-formed map ends above the last block
    have hhi := (hwf.withheld_le ht hw).2
    have htop := (hwf.topAvailable_bounds ht).2
    simp only [lastBlock] at hlast
    omega

/-- `init_pmm` on a well-formed map in a buffer that the bitmap does not overlap: it returns the
largest end of an available entry and marks exactly block 0, the bitmap's own blocks and the blocks
with an address that no available entry contains. -/
theorem initPmm_exact {s : Ram} {es : List MmapEntry} {mmap len fuel : Nat}
    (hmap : Ram.HoldsMap s.mem mmap es) (hlen : len = 24 * es.length) (hend : mmap + len < 2 ^ 32)
    (hwf : WellFormed es)
    (hroom : ∃ e ∈ es, e.type = 1 ∧ HoldsBlocks (blocksBitmap (topAvailable es / blkSz)) e)
    (hapart : ∀ base, placeBitmap (blocksBitmap (topAvailable es / blkSz)) es = some base →
      mmap + len ≤ base ∨ base + (topAvailable es / blkSz + 7) / 8 ≤ mmap)
    (hfuel : es.length < fuel) :
    ∃ after base, s.initPmm fuel mmap len =
        .ok (topAvailable es, ⟨after, base, topAvailable es / blkSz⟩) ∧
      Initialised es s.mem after (topAvailable es) base := by
  have ht : ∃ e ∈ es, e.type = 1 := by
    obtain ⟨e, he, ht, _⟩ := hroom
    exact ⟨e, he, ht⟩
  obtain ⟨base, hplace⟩ := hwf.exists_place (hwf.blocksBitmap_pos ht) hroom
  obtain ⟨after, hinit, h⟩ :=
    initPmm_initialised hmap hlen hend hwf ht hplace (hapart base hplace) hfuel
  exact ⟨after, base, hinit, h⟩

theorem initPmm_exact_sample : ∃ after base,
    sampleRam.initPmm 3 0x5000 48 = .ok (0x800000, ⟨after, base, 2048⟩) ∧
      Initialised sampleMap sampleRam.mem after 0x800000 base := by
  have hmap : Ram.HoldsMap sampleRam.mem 0x5000 sampleMap :=
    ⟨by decide, by decide, by decide, by decide, trivial⟩
  have hwf : WellFormed sampleMap := ⟨by decide, by decide, by decide, by decide, by decide⟩
  have htop : topAvailable sampleMap = 0x800000 := by decide
  have hsz : 0x800000 / blkSz = 2048 := by decide
  have hlen : 48 = 24 * sampleMap.length := by decide
  have hroom : ∃ e ∈ sampleMap, e.type = 1 ∧
      HoldsBlocks (blocksBitmap (topAvailable sampleMap / blkSz)) e :=
    ⟨⟨0, 0, 0x9F000, 0, 1⟩, by decide, rfl, 0, by decide⟩
  have hplace : placeBitmap (blocksBitmap (topAvailable sampleMap / blkSz)) sampleMap = some 0 := by
    decide
  have hfuel : sampleMap.length < 3 := by decide
  have h := initPmm_exact hmap hlen (by decide) hwf hroom ?_ hfuel
  · rwa [htop, hsz] at h
  · intro base hbase
    rw [hplace] at hbase
    cases hbase
    exact .inr (by decide)

end Pmm
end Frod
