import Mathlib.Data.List.Pairwise

/-!
# Frod.Lib.Tiling

Lists of intervals that tile an interval: they are pairwise disjoint and cover it exactly. The
intervals belong to values of any type, by the two functions `lo` and `hi`, and no interval is empty.

The rules say how a tiling changes: `Tiles.replace` exchanges a part of it for another tiling of the
same interval, which covers splitting and merging, and `Tiles.extend` adds an interval at the end of
the covered one, wherever it stands in the list.
-/

namespace Frod

section Tiling

variable {α : Type} (lo hi : α → Nat)

/-- The intervals of `a` and `b` do not overlap. -/
def Apart (a b : α) : Prop := hi a ≤ lo b ∨ hi b ≤ lo a

structure Tiles (l : List α) (start stop : Nat) : Prop where
  cover : ∀ x, (start ≤ x ∧ x < stop) ↔ ∃ a ∈ l, lo a ≤ x ∧ x < hi a
  apart : l.Pairwise (Apart lo hi)

variable {lo hi}

theorem Tiles.apart_of_ne {l : List α} {start stop : Nat} (h : Tiles lo hi l start stop) {a b : α}
    (ha : a ∈ l) (hb : b ∈ l) (hab : a ≠ b) : Apart lo hi a b :=
  have : Std.Symm (Apart lo hi) := ⟨fun _ _ => Or.symm⟩
  h.apart.forall ha hb hab

theorem Tiles.pair {a b : α} (hab : hi a = lo b) (h1 : lo a ≤ hi a) (h2 : lo b ≤ hi b) :
    Tiles lo hi [a, b] (lo a) (hi b) := by
  refine ⟨fun x => ?_, by simp [Apart, hab]⟩
  simp only [List.mem_cons, List.not_mem_nil, or_false, exists_eq_or_imp, exists_eq_left]
  omega

theorem Tiles.singleton (a : α) : Tiles lo hi [a] (lo a) (hi a) :=
  ⟨fun x => by simp, by simp⟩

section

variable (hne : ∀ a, lo a < hi a)
include hne

theorem Tiles.bounds {l : List α} {start stop : Nat} (h : Tiles lo hi l start stop) {a : α}
    (ha : a ∈ l) : start ≤ lo a ∧ hi a ≤ stop := by
  have hpos := hne a
  have h1 := (h.cover (lo a)).mpr ⟨a, ha, by omega, by omega⟩
  have h2 := (h.cover (hi a - 1)).mpr ⟨a, ha, by omega, by omega⟩
  omega

/-- Intervals of a tiling are told apart by where they start. -/
theorem Tiles.inj {l : List α} {start stop : Nat} (h : Tiles lo hi l start stop) {a b : α}
    (ha : a ∈ l) (hb : b ∈ l) (hab : lo a = lo b) : a = b := by
  by_contra hc
  have h1 := hne a
  have h2 := hne b
  rcases h.apart_of_ne ha hb hc with h | h <;> omega

theorem Tiles.nodup {l : List α} {start stop : Nat} (h : Tiles lo hi l start stop) : l.Nodup := by
  refine h.apart.imp fun {a b} hab he => ?_
  subst he
  have := hne a
  rcases hab with hab | hab <;> omega

/-- What is apart from every part of a tiling is apart from the parts of any other tiling of the
same interval. -/
theorem Tiles.apart_of_cover {l l' : List α} {start stop : Nat} (h : Tiles lo hi l start stop)
    (h' : Tiles lo hi l' start stop) {c : α} (hc : ∀ d ∈ l, Apart lo hi c d) {d' : α} (hd' : d' ∈ l') :
    Apart lo hi c d' := by
  by_contra hno
  have h1 := hne c
  have h2 := hne d'
  unfold Apart at hno
  -- a common point of the two intervals
  let x := max (lo c) (lo d')
  have hx : lo d' ≤ x ∧ x < hi d' := by omega
  obtain ⟨d, hd, hd1, hd2⟩ := (h.cover x).mp ((h'.cover x).mpr ⟨d', hd', hx⟩)
  rcases hc d hd with h3 | h3 <;> omega

/-- A part of a tiling may be exchanged for another tiling of the same interval. -/
theorem Tiles.replace {l₁ l₂ mid mid' : List α} {start stop a b : Nat}
    (h : Tiles lo hi (l₁ ++ mid ++ l₂) start stop) (hm : Tiles lo hi mid a b)
    (hm' : Tiles lo hi mid' a b) : Tiles lo hi (l₁ ++ mid' ++ l₂) start stop := by
  obtain ⟨hcover, hap⟩ := h
  rw [List.pairwise_append, List.pairwise_append] at hap
  obtain ⟨⟨h1, _, h1m⟩, h2, hm2⟩ := hap
  refine ⟨fun x => ?_, ?_⟩
  · have hx := (hm.cover x).symm.trans (hm'.cover x)
    rw [hcover]
    simp only [List.mem_append, or_and_right, exists_or]
    rw [hx]
  · rw [List.pairwise_append, List.pairwise_append]
    refine ⟨⟨h1, hm'.apart, fun c hc d hd => ?_⟩, h2, fun c hc d hd => ?_⟩
    · exact hm.apart_of_cover hne hm' (fun e he => h1m c hc e he) hd
    · rcases List.mem_append.mp hc with hc | hc
      · exact hm2 c (List.mem_append.mpr (.inl hc)) d hd
      · exact (hm.apart_of_cover hne hm'
          (fun e he => (hm2 e (List.mem_append.mpr (.inr he)) d hd).symm) hc).symm

/-- An interval that starts where the covered one stops extends the tiling. -/
theorem Tiles.extend {l₁ l₂ : List α} {start stop : Nat} (h : Tiles lo hi (l₁ ++ l₂) start stop)
    {b : α} (hb : lo b = stop) (hle : start ≤ stop) : Tiles lo hi (l₁ ++ b :: l₂) start (hi b) := by
  have hpos := hne b
  have hbelow : ∀ c ∈ l₁ ++ l₂, hi c ≤ lo b := fun c hc => by
    have := (h.bounds hne hc).2
    omega
  have hap := h.apart
  rw [List.pairwise_append] at hap
  refine ⟨fun x => ?_, ?_⟩
  · have hx := h.cover x
    simp only [List.mem_append, List.mem_cons, or_and_right, exists_or, exists_eq_left] at hx ⊢
    rw [or_left_comm, ← hx]
    omega
  · rw [List.pairwise_append, List.pairwise_cons]
    refine ⟨hap.1, ⟨fun c hc => .inr (hbelow c (List.mem_append.mpr (.inr hc))), hap.2.1⟩, ?_⟩
    intro c hc d hd
    rcases List.mem_cons.mp hd with rfl | hd
    · exact .inl (hbelow c (List.mem_append.mpr (.inl hc)))
    · exact hap.2.2 c hc d hd

end

end Tiling
end Frod
