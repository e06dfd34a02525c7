import Frod.Vmm.Model

/-!
# Frod.Vmm.Entry

Page-table entries bit by bit: an entry built from an aligned address and the permissions the
kernel's callers pass is present, writable and points to the address's frame.
-/

namespace Frod
namespace Vmm

theorem getLsbD_one_shl (k i : Nat) (hk : k < 32) :
    (BitVec.ofNat 32 (2 ^ k)).getLsbD i = decide (i = k) := by
  rw [BitVec.getLsbD_ofNat, Nat.testBit_two_pow]
  by_cases h : i = k
  · subst h; simp [hk]
  · simp [h, Ne.symm h]

theorem present_eq_getLsbD (e : Word) : present e = e.getLsbD 0 :=
  and_single_bne_zero fun i => getLsbD_one_shl 0 i (by decide)

theorem writable_eq_getLsbD (e : Word) : writable e = e.getLsbD 1 :=
  and_single_bne_zero fun i => getLsbD_one_shl 1 i (by decide)

@[simp] theorem present_zero : present 0#32 = false := by decide

/-- The permissions every caller passes: writable, and otherwise only user or cache-disable. -/
structure AclOk (acl : Word) : Prop where
  writable : writable acl = true
  only : acl &&& ~~~ (x86PageWritable ||| x86PageUser ||| x86PageCacheDis) = 0#32

theorem AclOk.toNat_lt {acl : Word} (h : AclOk acl) : acl.toNat < kb4 := by
  have hand : acl = acl &&& (x86PageWritable ||| x86PageUser ||| x86PageCacheDis) := by
    apply BitVec.eq_of_getLsbD_eq
    intro i hi
    have hi' := congrArg (fun x : Word => x.getLsbD i) h.only
    simp only [BitVec.getLsbD_and, BitVec.getLsbD_not, BitVec.getLsbD_zero, hi, decide_true,
      Bool.true_and] at hi' ⊢
    cases ha : acl.getLsbD i
    · simp
    · rw [ha, Bool.true_and, Bool.not_eq_false'] at hi'
      simp [hi']
  rw [hand, BitVec.toNat_and]
  exact Nat.lt_of_le_of_lt Nat.and_le_right (by decide)

theorem aclOk_writable : AclOk x86PageWritable := ⟨by decide, by decide⟩

/-- Or-ing flags below the page size into an aligned address keeps the frame. -/
theorem frame_or {a : Nat} (ha : a % kb4 = 0) (h32 : a < 2 ^ 32) {fl : Word} (hf : fl.toNat < kb4) :
    frame (BitVec.ofNat 32 a ||| fl) = a / kb4 := by
  have h12 : a = 2 ^ 12 * (a / kb4) := by unfold kb4 at *; omega
  have hor : (BitVec.ofNat 32 a ||| fl).toNat = 2 ^ 12 * (a / kb4) + fl.toNat := by
    rw [BitVec.toNat_or, BitVec.toNat_ofNat, Nat.mod_eq_of_lt h32,
      Nat.two_pow_add_eq_or_of_lt hf, ← h12]
  rw [frame, hor]
  unfold kb4 at *
  omega

/-- An entry that `vmm_map_page` writes. -/
structure EntryFor (e : Word) (f : Nat) : Prop where
  present : present e = true
  writable : writable e = true
  frame : frame e = f

theorem entryFor_flags {a : Nat} (ha : a % kb4 = 0) (h32 : a < 2 ^ 32) {fl : Word}
    (hf : fl.toNat < kb4) (hp : Vmm.present fl = true) (hw : Vmm.writable fl = true) :
    EntryFor (BitVec.ofNat 32 a ||| fl) (a / kb4) := by
  refine ⟨?_, ?_, frame_or ha h32 hf⟩
  · rw [present_eq_getLsbD] at hp ⊢
    rw [BitVec.getLsbD_or, hp, Bool.or_true]
  · rw [writable_eq_getLsbD] at hw ⊢
    rw [BitVec.getLsbD_or, hw, Bool.or_true]

theorem entryFor_acl {a : Nat} (ha : a % kb4 = 0) (h32 : a < 2 ^ 32) {acl : Word} (h : AclOk acl) :
    EntryFor (BitVec.ofNat 32 a ||| x86PagePresent ||| acl) (a / kb4) := by
  rw [BitVec.or_assoc]
  refine entryFor_flags ha h32 ?_ ?_ ?_
  · rw [BitVec.toNat_or]
    exact Nat.or_lt_two_pow (by decide : _ < 2 ^ 12) h.toNat_lt
  · rw [present_eq_getLsbD, BitVec.getLsbD_or]
    simp [show x86PagePresent.getLsbD 0 = true from rfl]
  · have hw := h.writable
    rw [writable_eq_getLsbD] at hw ⊢
    rw [BitVec.getLsbD_or, hw, Bool.or_true]

/-- The frame a directory entry points to, as the argument of `pmm_free`. -/
theorem and_frame_div (e : Word) : (e &&& x86PageFrame).toNat / kb4 = frame e := by
  have : (e &&& x86PageFrame).toNat / 2 ^ 12 = e.toNat / 2 ^ 12 := by
    rw [BitVec.toNat_and, ← Nat.shiftRight_eq_div_pow, ← Nat.shiftRight_eq_div_pow,
      Nat.shiftRight_and_distrib]
    apply Nat.and_two_pow_sub_one_of_lt_two_pow (n := 20)
    have := e.isLt
    rw [Nat.shiftRight_eq_div_pow]
    omega
  exact this

end Vmm
end Frod
