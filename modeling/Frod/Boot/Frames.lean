import Mathlib.Data.Nat.Find
import Frod.Boot.Init
import Frod.Lib.Machine

/-!
# Frod.Boot.Frames

Runs of the kernel's memory from `vmm_init` on, and which bytes of it they leave alone.

After `vmm_init` the first 4 MB are taken, so a block can still be handed out in two ways:
`vmm_init` takes it for itself, or it lies above. `alwaysSafe_iff` says that nothing else goes wrong
as long as the bitmap is apart from these bytes.
-/

namespace Frod
namespace Ram

open BitArray Bytes
open Pmm (blkSz)

/-! ## Runs -/

/-- No frame that was returned has a byte of `D`, and these bytes are as in `m₀`. -/
structure Frames.Safe (D : Nat → Prop) (m₀ : Mem) (t : Frames) : Prop where
  apart : ∀ f ∈ t.returned, f ≠ 0 → ∀ x, D x → ¬ InFrame f x
  intact : ∀ x, D x → t.ram.mem x = m₀ x

/-- `D` is safe in every run from `vmm_init` on. -/
def AlwaysSafe (s : Ram) (D : Nat → Prop) : Prop :=
  ∀ ops os t, Machine.Admissible Frames.Allowed Frames.step (Frames.start s) ops →
    Machine.runAll Frames.step (Frames.start s) ops = .ok (os, t) → t.Safe D s.mem

/-- A free block with a byte of `D` lies in the first 4 MB, and two free blocks lie below it. -/
def Clear (free : Nat → Prop) (D : Nat → Prop) : Prop :=
  ∀ x, D x → free (x / blkSz) →
    x / blkSz < 1024 ∧ ∃ i j, i < j ∧ j < x / blkSz ∧ free i ∧ free j

/-- What every run keeps. -/
structure Kept (n : Nat) (D : Nat → Prop) (m₀ : Mem) (t : Frames) : Prop where
  placed : Placed n t.ram
  held : ∀ f ∈ t.held, f ≠ 0 → ∃ b, f = b * blkSz ∧ b < t.ram.bitmapSz
  apart : ∀ f ∈ t.held, f ≠ 0 → ∀ x, InFrame f x → ¬ InBitmap t.ram n x ∧ ¬ D x
  clear : ∀ x, D x → ¬ InBitmap t.ram n x ∧ ¬ Free t.ram (x / blkSz)
  safe : t.Safe D m₀

section Kept

variable {n : Nat} {D : Nat → Prop} {m₀ : Mem} {t t' : Frames} {s : Ram}

theorem Kept.extends {W T : Nat → Prop} {r : Ram} (h : Kept n D m₀ t) (he : Extends n W T t.ram r)
    (hw : ∀ x, D x → ¬ W x) : Kept n D m₀ { t with ram := r } where
  placed := h.placed.extends he
  held := by
    intro f hf hne
    rw [he.bitmapSz_eq]
    exact h.held f hf hne
  apart := by
    intro f hf hne x hx
    rw [InBitmap, he.bitmap_eq]
    exact h.apart f hf hne x hx
  clear := by
    intro x hx
    rw [InBitmap, he.bitmap_eq]
    exact ⟨(h.clear x hx).1, fun hf => (h.clear x hx).2 ((he.free_iff h.placed _).mp hf).1⟩
  safe := ⟨h.safe.apart, fun x hx => by
    rw [he.outside x (h.clear x hx).1 (hw x hx), h.safe.intact x hx]⟩

theorem Kept.allocFirst (h : Kept n D m₀ t) :
    Kept n D m₀ ⟨t.ram.pmmAllocFirst.2, t.ram.pmmAllocFirst.1 :: t.returned,
      t.ram.pmmAllocFirst.1 :: t.held⟩ := by
  rcases pmmAllocFirst_spec t.ram with ⟨k, hk, heq⟩ | ⟨_, heq⟩
  · obtain ⟨haddr, _, _⟩ := hk.1.addr h.placed
    have hcover := h.placed.covers
    have hlt := hk.1.2.1
    have he := extends_bitmapSet h.placed.bound (show k < 8 * n by omega)
    have h' := h.extends he fun _ _ => id
    have hD : ∀ x, D x → ¬ InFrame (k * blkSz) x := fun x hx hf =>
      (h.clear x hx).2 (by rw [inFrame_iff.mp hf]; exact hk.1)
    rw [heq, haddr]
    refine ⟨h'.placed, fun f hf hne => ?_, fun f hf hne => ?_, h'.clear, fun f hf hne => ?_,
      h'.safe.intact⟩
    · rcases List.mem_cons.mp hf with rfl | hf
      · exact ⟨k, rfl, hlt⟩
      · exact h'.held f hf hne
    · rcases List.mem_cons.mp hf with rfl | hf
      · exact fun x hx => ⟨h.placed.apart hk.1 x hx, fun hd => hD x hd hx⟩
      · exact h'.apart f hf hne
    · rcases List.mem_cons.mp hf with rfl | hf
      · exact hD
      · exact h'.safe.apart f hf hne
  · rw [heq]
    refine ⟨h.placed, fun f hf hne => ?_, fun f hf hne => ?_, h.clear, fun f hf hne => ?_,
      h.safe.intact⟩
    · exact h.held f ((List.mem_cons.mp hf).resolve_left hne) hne
    · exact h.apart f ((List.mem_cons.mp hf).resolve_left hne) hne
    · exact h.safe.apart f ((List.mem_cons.mp hf).resolve_left hne) hne

theorem Kept.free (h : Kept n D m₀ t) {f : Nat} (hne : f ≠ 0) (hf : f ∈ t.held) :
    Kept n D m₀ ⟨t.ram.pmmFree f, t.returned, t.held.erase f⟩ := by
  obtain ⟨c, hc, hlt⟩ := h.held f hf hne
  have hdiv : f / blkSz = c := by rw [hc]; exact Nat.mul_div_cancel c (by decide)
  have hcover := h.placed.covers
  have hbound := h.placed.bound
  have hf8 : f / blkSz < 8 * n := by omega
  -- a byte of the bitmap or of `D` is not in the frame that is freed
  have hother : ∀ x, InBitmap t.ram n x ∨ D x → x / blkSz ≠ f / blkSz := by
    intro x hx heq
    rw [hdiv] at heq
    have hin : InFrame f x := by rw [hc]; exact inFrame_iff.mpr heq
    obtain ⟨h1, h2⟩ := h.apart f hf hne x hin
    exact hx.elim h1 h2
  refine ⟨⟨hbound, hcover, h.placed.low, h.placed.blocks, h.placed.inside, fun x hx => ?_⟩,
    fun g hg => h.held g (List.mem_of_mem_erase hg),
    fun g hg => h.apart g (List.mem_of_mem_erase hg), fun x hx => ⟨(h.clear x hx).1, fun hc => ?_⟩,
    h.safe.apart, fun x hx => ?_⟩
  · rw [pmmIsTaken_pmmFree hbound hf8 (h.placed.inside x hx)]
    exact ⟨hother x (.inl hx), h.placed.own x hx⟩
  · obtain ⟨h1, h2, h3⟩ := hc
    refine (h.clear x hx).2 ⟨h1, h2, ?_⟩
    have hx8 : x / blkSz < 8 * n := Nat.lt_of_lt_of_le h2 hcover
    rw [← Bool.not_eq_true] at h3 ⊢
    exact fun ht => h3 ((pmmIsTaken_pmmFree hbound hf8 hx8).mpr ⟨hother x (.inr hx), ht⟩)
  · exact (pmmFree_outside hbound hf8 (h.clear x hx).1).trans (h.safe.intact x hx)

theorem Kept.write (h : Kept n D m₀ t) {f a : Nat} (hne : f ≠ 0) (hf : f ∈ t.held)
    (ha : InFrame f a) (v : Byte) :
    Kept n D m₀ { t with ram := { t.ram with mem := Function.update t.ram.mem a v } } := by
  obtain ⟨h1, h2⟩ := h.apart f hf hne a ha
  refine h.extends (extends_write (W := fun x => x = a) h.placed.bound
    (fun x hx => Function.update_of_ne hx _ _) ?_) ?_
  · rintro x rfl
    exact h1
  · rintro x hx rfl
    exact h2 hx

theorem Kept.step (h : Kept n D m₀ t) {op : FrameOp} (hop : t.Allowed op) {o : Nat}
    (hs : t.step op = .ok (o, t')) : Kept n D m₀ t' := by
  cases op with
  | allocFirst => cases hs; exact h.allocFirst
  | free f => cases hs; exact h.free hop.1 hop.2
  | write a v =>
    cases hs
    obtain ⟨f, hf, hne, ha⟩ := hop
    exact h.write hne hf ha v

end Kept

theorem exists_two_lowest {s : Ram} (h : ∃ i j, i < j ∧ Free s i ∧ Free s j) :
    ∃ k₁ k₂, Lowest s k₁ ∧ Free s k₂ ∧ k₂ ≠ k₁ ∧ ∀ j, Free s j → j ≠ k₁ → k₂ ≤ j := by
  classical
  obtain ⟨i, j, hij, hi, hj⟩ := h
  obtain ⟨k₁, h₁⟩ := exists_lowest hi
  have hex : ∃ b, Free s b ∧ b ≠ k₁ := by
    by_cases hik : i = k₁
    · exact ⟨j, hj, by omega⟩
    · exact ⟨i, hi, hik⟩
  exact ⟨k₁, Nat.find hex, h₁, (Nat.find_spec hex).1, (Nat.find_spec hex).2,
    fun b hb hne => Nat.find_min' hex ⟨hb, hne⟩⟩

/-- Under `Clear` neither of the two frames has a byte of `D`. -/
theorem Clear.start_apart {D : Nat → Prop} {s : Ram} {k₁ k₂ x : Nat} (h₁ : Lowest s k₁)
    (h₂ : Free s k₂ ∧ k₂ ≠ k₁ ∧ ∀ j, Free s j → j ≠ k₁ → k₂ ≤ j) (hc : Clear (Free s) D) (hx : D x) :
    x / blkSz ≠ k₁ ∧ x / blkSz ≠ k₂ := by
  constructor
  · intro heq
    obtain ⟨_, i, j, hij, hj, hi, _⟩ := hc x hx (by rw [heq]; exact h₁.1)
    have := h₁.2 i hi
    omega
  · intro heq
    obtain ⟨_, i, j, hij, hj, hi, hfj⟩ := hc x hx (by rw [heq]; exact h₂.1)
    by_cases hik : i = k₁
    · have := h₂.2.2 j hfj (by omega)
      omega
    · have := h₂.2.2 i hi hik
      omega

section Start

variable {n k₁ k₂ : Nat} {D : Nat → Prop} {s : Ram} (hp : Placed n s) (h₁ : Lowest s k₁)
  (h₂ : Free s k₂ ∧ k₂ ≠ k₁ ∧ ∀ j, Free s j → j ≠ k₁ → k₂ ≤ j)
include hp h₁ h₂

theorem frames_start : ∃ s', Frames.start s =
      ⟨s', [k₂ * blkSz, k₁ * blkSz], [k₂ * blkSz, k₁ * blkSz]⟩ ∧
    Extends n (fun x => InFrame (k₁ * blkSz) x ∨ InFrame (k₂ * blkSz) x)
      (fun b => b = k₁ ∨ b = k₂ ∨ b < 1024) s s' := by
  obtain ⟨s', heq, he⟩ := vmmInit_spec hp h₁ h₂
  refine ⟨s', ?_, he⟩
  rw [Frames.start, heq]

theorem Kept.start (hD : ∀ x, D x → ¬ InBitmap s n x) (hc : Clear (Free s) D) :
    Kept n D s.mem (Frames.start s) := by
  obtain ⟨s', heq, he⟩ := frames_start hp h₁ h₂
  have hapart : ∀ x, D x → ∀ k, k = k₁ ∨ k = k₂ → ¬ InFrame (k * blkSz) x := by
    rintro x hx k (rfl | rfl) hf
    · exact (hc.start_apart h₁ h₂ hx).1 (inFrame_iff.mp hf)
    · exact (hc.start_apart h₁ h₂ hx).2 (inFrame_iff.mp hf)
  have hmem : ∀ f ∈ [k₂ * blkSz, k₁ * blkSz], ∃ k, (k = k₁ ∨ k = k₂) ∧ f = k * blkSz ∧ Free s k := by
    intro f hf
    simp only [List.mem_cons, List.not_mem_nil, or_false] at hf
    rcases hf with rfl | rfl
    · exact ⟨k₂, .inr rfl, rfl, h₂.1⟩
    · exact ⟨k₁, .inl rfl, rfl, h₁.1⟩
  rw [heq]
  refine ⟨hp.extends he, fun f hf _ => ?_, fun f hf _ x hx => ?_, fun x hx => ?_,
    fun f hf _ x hx hin => ?_, fun x hx => ?_⟩
  · obtain ⟨k, _, hk, hfree⟩ := hmem f hf
    exact ⟨k, hk, by rw [he.bitmapSz_eq]; exact hfree.2.1⟩
  · obtain ⟨k, hk, rfl, hfree⟩ := hmem f hf
    rw [InBitmap, he.bitmap_eq]
    exact ⟨hp.apart hfree x hx, fun hd => hapart x hd k hk hx⟩
  · rw [InBitmap, he.bitmap_eq]
    refine ⟨hD x hx, fun hf => ?_⟩
    obtain ⟨hf, hn⟩ := (he.free_iff hp _).mp hf
    exact hn (.inr (.inr (hc x hx hf).1))
  · obtain ⟨k, hk, rfl, _⟩ := hmem f hf
    exact hapart x hx k hk hin
  · exact he.outside x (hD x hx) fun hin =>
      hin.elim (hapart x hx k₁ (.inl rfl)) (hapart x hx k₂ (.inr rfl))

end Start

theorem step_allocFirst {n k : Nat} {t : Frames} (hp : Placed n t.ram) (hk : Lowest t.ram k) :
    t.step .allocFirst = .ok (k * blkSz, ⟨{ t.ram with mem := bitmapSet t.ram.bitmap t.ram.mem k },
      k * blkSz :: t.returned, k * blkSz :: t.held⟩) := by
  rw [Frames.step, pmmAllocFirst_lowest hk, (hk.1.addr hp).1]

/-- Enough allocations return any block that is free. The induction is on a bound for how far the
lowest free block is away. -/
theorem exists_returned {n b : Nat} : ∀ {d : Nat} {t : Frames}, Placed n t.ram → Free t.ram b →
    (∀ j, Free t.ram j → b ≤ j + d) → ∃ ops os t',
      Machine.Admissible Frames.Allowed Frames.step t ops ∧
        Machine.runAll Frames.step t ops = .ok (os, t') ∧ b * blkSz ∈ t'.returned := by
  intro d
  induction d with
  | zero =>
    intro t hp hb hall
    refine ⟨[.allocFirst], [b * blkSz], ⟨{ t.ram with mem := bitmapSet t.ram.bitmap t.ram.mem b },
      b * blkSz :: t.returned, b * blkSz :: t.held⟩, ⟨trivial, fun _ _ _ => trivial⟩, ?_, ?_⟩
    · exact Machine.runAll_cons_of (step_allocFirst hp ⟨hb, hall⟩) rfl
    · exact List.mem_cons_self
  | succ d ih =>
    intro t hp hb hall
    obtain ⟨k, hk⟩ := exists_lowest hb
    by_cases hkb : k = b
    · exact ih hp hb fun j hj => by have := hk.2 j hj; omega
    · have hcover := hp.covers
      have hlt := hk.1.2.1
      have he := extends_bitmapSet hp.bound (show k < 8 * n by omega)
      have hfree := he.free_iff hp
      have hnext := step_allocFirst hp hk
      obtain ⟨ops, os, t', hadm, hrun, hmem⟩ := ih (t := ⟨_, k * blkSz :: t.returned,
        k * blkSz :: t.held⟩) (hp.extends he) ((hfree b).mpr ⟨hb, fun h => hkb h.symm⟩)
        fun j hj => by
          obtain ⟨hj, hjk⟩ := (hfree j).mp hj
          have h1 := hk.2 j hj
          have h2 := hall k hk.1
          omega
      refine ⟨.allocFirst :: ops, k * blkSz :: os, t', ⟨trivial, fun o t₁ h₁ => ?_⟩, ?_, hmem⟩
      · rw [hnext] at h₁
        cases h₁
        exact hadm
      · exact Machine.runAll_cons_of hnext hrun

/-- The exact condition on the state `vmm_init` is called in, for a bitmap apart from `D`. -/
theorem alwaysSafe_iff {n : Nat} {D : Nat → Prop} {s : Ram} (hp : Placed n s)
    (htwo : ∃ i j, i < j ∧ Free s i ∧ Free s j) (hD : ∀ x, D x → ¬ InBitmap s n x) :
    AlwaysSafe s D ↔ Clear (Free s) D := by
  obtain ⟨k₁, k₂, h₁, h₂⟩ := exists_two_lowest htwo
  obtain ⟨s', heq, he⟩ := frames_start hp h₁ h₂
  constructor
  · intro hsafe x hx hfree
    have hstart := (hsafe [] [] _ trivial rfl).apart
    rw [heq] at hstart
    have hne₁ : x / blkSz ≠ k₁ := fun hk =>
      hstart (k₁ * blkSz) (by simp) (h₁.1.addr hp).2.1 x hx (inFrame_iff.mpr hk)
    have hne₂ : x / blkSz ≠ k₂ := fun hk =>
      hstart (k₂ * blkSz) (by simp) (h₂.1.addr hp).2.1 x hx (inFrame_iff.mpr hk)
    have hle₁ := h₁.2 _ hfree
    have hle₂ := h₂.2.2 _ hfree hne₁
    have hle := h₁.2 _ h₂.1
    refine ⟨Nat.lt_of_not_le fun hhigh => ?_, k₁, k₂, by omega, by omega, h₁.1, h₂.1⟩
    -- a free block above 4 MB is returned by some later allocation
    have hfree' : Free s' (x / blkSz) := (he.free_iff hp _).mpr ⟨hfree, by omega⟩
    obtain ⟨ops, os, t, hadm, hrun, hmem⟩ := exists_returned (t := Frames.start s) (d := x / blkSz)
      (by rw [heq]; exact hp.extends he) (by rw [heq]; exact hfree') (fun j _ => by omega)
    exact (hsafe ops os t hadm hrun).apart _ hmem (hfree.addr hp).2.1 x hx (inFrame_iff.mpr rfl)
  · intro hc ops os t hadm hrun
    have hkept := Kept.start hp h₁ h₂ hD hc
    exact (Machine.invariant (fun _ _ _ _ hi hop hs => Kept.step hi hop hs) ops hkept hadm hrun).safe

end Ram
end Frod
