import Mathlib.Data.List.Nodup

/-!
# Frod.Lib.Path

Paths of a function: the elements met from `a` on, one after the other, until `b` comes next. Linked
structures are paths of their `next` function, and a ring is a path from an element back to itself.

`Path.goes_on` says that two paths from the same element follow each other, and `Once.unique` that a
ring has one list of elements only.
-/

namespace Frod

variable {α : Type} {f g : α → α}

/-- Following `f` from `a` meets the elements of the list and then `b`. -/
def Path (f : α → α) : α → List α → α → Prop
  | a, [], b => a = b
  | a, x :: l, b => a = x ∧ Path f (f x) l b

namespace Path

theorem append {l₁ l₂ : List α} : ∀ {a b : α},
    Path f a (l₁ ++ l₂) b ↔ ∃ c, Path f a l₁ c ∧ Path f c l₂ b := by
  induction l₁ with
  | nil => intro a b; simp [Path]
  | cons x l₁ ih =>
    intro a b
    simp only [List.cons_append, Path, ih]
    constructor
    · rintro ⟨hx, c, h₁, h₂⟩
      exact ⟨c, ⟨hx, h₁⟩, h₂⟩
    · rintro ⟨c, ⟨hx, h₁⟩, h₂⟩
      exact ⟨hx, c, h₁, h₂⟩

/-- A path only depends on the function where it passes. -/
theorem congr {l : List α} : ∀ {a b : α}, Path f a l b → (∀ x ∈ l, g x = f x) → Path g a l b := by
  induction l with
  | nil => intro a b h _; exact h
  | cons x l ih =>
    intro a b h hfg
    refine ⟨h.1, ?_⟩
    rw [hfg x List.mem_cons_self]
    exact ih h.2 fun y hy => hfg y (List.mem_cons_of_mem _ hy)

/-- Of two paths from one element, one goes on where the other ends. -/
theorem goes_on {l l' : List α} : ∀ {a b b' : α}, Path f a l b → Path f a l' b' →
    (∃ r, l' = l ++ r ∧ Path f b r b') ∨ ∃ r, l = l' ++ r ∧ Path f b' r b := by
  induction l generalizing l' with
  | nil =>
    intro a b b' h h'
    cases h
    exact .inl ⟨l', rfl, h'⟩
  | cons x l ih =>
    intro a b b' h h'
    cases l' with
    | nil =>
      cases h'
      exact .inr ⟨x :: l, rfl, h⟩
    | cons y l' =>
      obtain ⟨rfl, h⟩ := h
      obtain ⟨rfl, h'⟩ := h'
      rcases ih h h' with ⟨r, rfl, hr⟩ | ⟨r, rfl, hr⟩
      · exact .inl ⟨r, rfl, hr⟩
      · exact .inr ⟨r, rfl, hr⟩

theorem next_mem {l : List α} : ∀ {a b x : α}, Path f a l b → x ∈ l → f x ∈ l ∨ f x = b := by
  induction l with
  | nil => intro a b x _ hx; cases hx
  | cons y l ih =>
    intro a b x h hx
    rcases List.mem_cons.mp hx with rfl | hx
    · cases l with
      | nil => exact .inr h.2
      | cons z l => exact .inl (h.2.1 ▸ List.mem_cons_of_mem _ List.mem_cons_self)
    · rcases ih h.2 hx with hn | hn
      · exact .inl (List.mem_cons_of_mem _ hn)
      · exact .inr hn

end Path

/-- `l` is the ring of `a`: the elements met from `a` on until `a` comes again. -/
structure Once (f : α → α) (a : α) (l : List α) : Prop where
  path : Path f a l a
  nodup : l.Nodup
  ne_nil : l ≠ []

namespace Once

variable {a : α} {l l' : List α}

theorem head (h : Once f a l) : ∃ t, l = a :: t := by
  cases l with
  | nil => exact absurd rfl h.ne_nil
  | cons x t => exact ⟨t, by rw [h.path.1]⟩

theorem mem (h : Once f a l) : a ∈ l := by
  obtain ⟨t, rfl⟩ := h.head
  exact List.mem_cons_self

theorem next_mem (h : Once f a l) {x : α} (hx : x ∈ l) : f x ∈ l := by
  rcases h.path.next_mem hx with hn | hn
  · exact hn
  · rw [hn]
    exact h.mem

/-- A longer list would meet `a` a second time. -/
theorem unique (h : Once f a l) (h' : Once f a l') : l = l' := by
  have hend : ∀ {l r : List α}, Once f a l → Once f a (l ++ r) → Path f a r a → r = [] := by
    intro l r h h' hr
    cases r with
    | nil => rfl
    | cons x r =>
      have hnd := (List.nodup_append.mp h'.nodup).2.2 a h.mem a
      rw [hr.1] at hnd
      exact absurd rfl (hnd List.mem_cons_self)
  rcases h.path.goes_on h'.path with ⟨r, rfl, hr⟩ | ⟨r, rfl, hr⟩
  · rw [hend h h' hr, List.append_nil]
  · rw [hend h' h hr, List.append_nil]

end Once
end Frod
