import Mathlib.Algebra.Group.Nat.Defs
import Mathlib.Logic.Function.Basic

/-!
# Frod.Lib.BitArray

Arrays of bits packed eight to a byte, least significant bit first. An array is its byte function
`Nat → BitVec 8`; a bit is addressed by `b / 8` and `b % 8`, as the usual C macros do.

`isSet_set` and `isSet_unset` are the two laws everything else uses: setting or clearing one bit
changes no other bit, in particular not the seven neighbours that share its byte.
-/

namespace Frod

abbrev Byte := BitVec 8

/-- Testing a word against a mask with the single bit `k` reads that bit. -/
theorem and_single_bne_zero {w k : Nat} {x m : BitVec w}
    (hm : ∀ i, m.getLsbD i = decide (i = k)) : ((x &&& m) != 0#w) = x.getLsbD k := by
  cases h : x.getLsbD k with
  | true =>
    simp only [bne_iff_ne, ne_eq]
    intro h0
    have := congrArg (fun y : BitVec w => y.getLsbD k) h0
    simp [hm, h] at this
  | false =>
    simp only [bne_eq_false_iff_eq]
    apply BitVec.eq_of_getLsbD_eq
    intro i hi
    simp only [BitVec.getLsbD_and, hm, BitVec.getLsbD_zero]
    by_cases hik : i = k
    · subst hik; simp [h]
    · simp [hik]

/-- The bytes of a bit array, from its base. -/
abbrev BitArray := Nat → Byte

namespace BitArray

/-- The mask of bit `b` inside its byte. -/
def mask (b : Nat) : Byte := 1#8 <<< (b % 8)

def set (a : BitArray) (b : Nat) : BitArray :=
  Function.update a (b / 8) (a (b / 8) ||| mask b)

def unset (a : BitArray) (b : Nat) : BitArray :=
  Function.update a (b / 8) (a (b / 8) &&& ~~~ mask b)

def isSet (a : BitArray) (b : Nat) : Bool := (a (b / 8) &&& mask b) != 0#8

theorem getLsbD_mask (b i : Nat) : (mask b).getLsbD i = decide (i = b % 8) := by
  have hb : b % 8 < 8 := Nat.mod_lt _ (by omega)
  simp only [mask, BitVec.getLsbD_shiftLeft, BitVec.getLsbD_one]
  by_cases h : i = b % 8
  · subst h; simp [hb]
  · by_cases hlt : i < b % 8
    · simp [hlt, h]
    · have : i - b % 8 ≠ 0 := by omega
      simp [hlt, h, this]

/-- The test through the mask reads exactly bit `b % 8` of byte `b / 8`. -/
theorem isSet_eq_getLsbD (a : BitArray) (b : Nat) : isSet a b = (a (b / 8)).getLsbD (b % 8) :=
  and_single_bne_zero (getLsbD_mask b)

theorem isSet_set (a : BitArray) (b c : Nat) :
    isSet (set a b) c = true ↔ c = b ∨ isSet a c = true := by
  simp only [isSet_eq_getLsbD, set, Function.update_apply]
  by_cases hq : c / 8 = b / 8
  · rw [if_pos hq, BitVec.getLsbD_or, getLsbD_mask, hq, Bool.or_eq_true, decide_eq_true_eq]
    have : c % 8 = b % 8 ↔ c = b := by omega
    rw [this, or_comm]
  · rw [if_neg hq]
    have : c ≠ b := fun h => hq (by rw [h])
    simp [this]

theorem isSet_unset (a : BitArray) (b c : Nat) :
    isSet (unset a b) c = true ↔ c ≠ b ∧ isSet a c = true := by
  have hc : c % 8 < 8 := Nat.mod_lt _ (by omega)
  simp only [isSet_eq_getLsbD, unset, Function.update_apply]
  by_cases hq : c / 8 = b / 8
  · rw [if_pos hq, BitVec.getLsbD_and, BitVec.getLsbD_not, getLsbD_mask, hq]
    have : c % 8 = b % 8 ↔ c = b := by omega
    simp [this, hc, and_comm]
  · rw [if_neg hq]
    have : c ≠ b := fun h => hq (by rw [h])
    simp [this]

/-- Clearing a bit undoes setting it, if it was clear before. -/
theorem unset_set {a : BitArray} {b : Nat} (h : isSet a b = false) : unset (set a b) b = a := by
  rw [isSet_eq_getLsbD] at h
  funext q
  by_cases hq : q = b / 8
  · subst hq
    rw [unset, set, Function.update_self, Function.update_self]
    apply BitVec.eq_of_getLsbD_eq
    intro i hi
    rw [BitVec.getLsbD_and, BitVec.getLsbD_or, BitVec.getLsbD_not, getLsbD_mask]
    by_cases hib : i = b % 8
    · simp [hib, h]
    · simp [hib, hi]
  · rw [unset, set, Function.update_of_ne hq, Function.update_of_ne hq]

/-- Setting the bits `lo`, `lo + 1`, … one after the other, `n` of them. -/
def setRange (a : BitArray) (lo : Nat) : Nat → BitArray
  | 0 => a
  | n + 1 => setRange (set a lo) (lo + 1) n

theorem isSet_setRange (c n : Nat) : ∀ (a : BitArray) (lo : Nat),
    isSet (setRange a lo n) c = true ↔ (lo ≤ c ∧ c < lo + n) ∨ isSet a c = true := by
  induction n with
  | zero =>
    intro a lo
    have : ¬ (lo ≤ c ∧ c < lo + 0) := by omega
    simp only [setRange, this, false_or]
  | succ n ih =>
    intro a lo
    have : lo ≤ c ∧ c < lo + (n + 1) ↔ (lo + 1 ≤ c ∧ c < lo + 1 + n) ∨ c = lo := by omega
    rw [setRange, ih, isSet_set, this, or_assoc]

theorem set_apply (a : BitArray) (b i : Nat) : set a b i = a i ||| set (fun _ => 0) b i := by
  rw [set, set, Function.update_apply, Function.update_apply]
  split
  · rename_i hi
    rw [hi]
    exact congrArg _ BitVec.zero_or.symm
  · exact BitVec.or_zero.symm

end BitArray
end Frod
