import Frod.Lib.BitArray

/-!
# Frod.Lib.Bytes

Byte memory with 32-bit addresses and little-endian fields of any width.

`rd m a n` reads the `n` bytes from `a` on as a number, `wr m a v n` writes them. The two laws are
`rd_wr_same`, a field reads back what was written, reduced to its width, and `rd_wr_disjoint`, a
write leaves a field alone that it does not overlap.
-/

namespace Frod

/-- The bytes of a 32-bit address space. -/
abbrev Mem := Nat → Byte

namespace Bytes

def rd (m : Mem) (a : Nat) : Nat → Nat
  | 0 => 0
  | n + 1 => (m (a % 2 ^ 32)).toNat + 256 * rd m (a + 1) n

def wr (m : Mem) (a v : Nat) : Nat → Mem
  | 0 => m
  | n + 1 => wr (Function.update m (a % 2 ^ 32) (BitVec.ofNat 8 v)) (a + 1) (v / 256) n

theorem rd_lt (m : Mem) : ∀ n a, rd m a n < 256 ^ n := by
  intro n
  induction n with
  | zero => intro a; simp [rd]
  | succ n ih =>
    intro a
    have h1 := ih (a + 1)
    have h2 := (m (a % 2 ^ 32)).isLt
    rw [rd, Nat.pow_succ]
    omega

theorem rd_eq_of_bytes {m m' : Mem} : ∀ {n a b : Nat},
    (∀ k < n, m ((a + k) % 2 ^ 32) = m' ((b + k) % 2 ^ 32)) → rd m a n = rd m' b n := by
  intro n
  induction n with
  | zero => intro a b _; rfl
  | succ n ih =>
    intro a b h
    have hzero := h 0 (Nat.succ_pos n)
    rw [Nat.add_zero, Nat.add_zero] at hzero
    have hrest : rd m (a + 1) n = rd m' (b + 1) n := by
      refine ih fun k hk => ?_
      rw [Nat.add_assoc, Nat.add_assoc, Nat.add_comm 1 k]
      exact h (k + 1) (Nat.succ_lt_succ hk)
    rw [rd, rd, hzero, hrest]

/-- A field determines its bytes. -/
theorem bytes_of_rd {m m' : Mem} : ∀ {n a : Nat}, rd m a n = rd m' a n →
    ∀ k < n, m ((a + k) % 2 ^ 32) = m' ((a + k) % 2 ^ 32) := by
  intro n
  induction n with
  | zero => intro a _ k hk; omega
  | succ n ih =>
    intro a h k hk
    have h1 := (m (a % 2 ^ 32)).isLt
    have h2 := (m' (a % 2 ^ 32)).isLt
    rw [rd, rd] at h
    rcases Nat.eq_zero_or_pos k with rfl | hpos
    · exact BitVec.eq_of_toNat_eq (by rw [Nat.add_zero]; omega)
    · have hrest := ih (a := a + 1) (by omega) (k - 1) (by omega)
      rwa [show a + 1 + (k - 1) = a + k by omega] at hrest

theorem rd_congr {m m' : Mem} {n a : Nat} (ha : a + n ≤ 2 ^ 32)
    (h : ∀ x, a ≤ x → x < a + n → m x = m' x) : rd m a n = rd m' a n := by
  refine rd_eq_of_bytes fun k hk => ?_
  rw [Nat.mod_eq_of_lt (by omega)]
  exact h _ (by omega) (by omega)

theorem wr_other {x : Nat} : ∀ {n a : Nat} (m : Mem) (v : Nat), a + n ≤ 2 ^ 32 →
    x < a ∨ a + n ≤ x → wr m a v n x = m x := by
  intro n
  induction n with
  | zero => intro a m v _ _; rfl
  | succ n ih =>
    intro a m v ha hx
    rw [wr, ih _ _ (by omega) (by omega), Function.update_of_ne]
    rw [Nat.mod_eq_of_lt (by omega)]
    omega

theorem rd_wr_disjoint {m : Mem} {a b v n k : Nat} (ha : a + n ≤ 2 ^ 32) (hb : b + k ≤ 2 ^ 32)
    (h : b + k ≤ a ∨ a + n ≤ b) : rd (wr m a v n) b k = rd m b k :=
  rd_congr hb fun x _ _ => wr_other m v ha (by omega)

theorem rd_wr_same : ∀ {n a : Nat} (m : Mem) (v : Nat), a + n ≤ 2 ^ 32 →
    rd (wr m a v n) a n = v % 256 ^ n := by
  intro n
  induction n with
  | zero => intro a m v _; simp [rd, Nat.mod_one]
  | succ n ih =>
    intro a m v ha
    have h0 : wr m a v (n + 1) (a % 2 ^ 32) = BitVec.ofNat 8 v := by
      rw [Nat.mod_eq_of_lt (by omega), wr, wr_other _ _ (by omega) (by omega),
        Nat.mod_eq_of_lt (by omega), Function.update_self]
    rw [rd, h0, wr, ih _ _ (by omega), BitVec.toNat_ofNat,
      show 256 ^ (n + 1) = 256 * 256 ^ n from Nat.pow_succ', Nat.mod_mul]

end Bytes
end Frod
