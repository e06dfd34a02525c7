import Frod.Boot.Model

/-!
# Frod.Boot.Init

What the boot code does to memory with the bitmap in it.

`Extends` says what a piece of boot code can do when the bitmap lies in `n` bytes: it takes blocks,
and writes addresses outside the bitmap. It composes, so one lemma per function gives `vmmInit_spec`:
`vmm_init` takes the two lowest free blocks and the first 4 MB, and writes the two frames only.
-/

namespace Frod
namespace Ram

open BitArray Bytes
open Pmm (blkSz markLo markHi)

/-! ## Bits in memory -/

/-- Address `x` belongs to the `n` bytes of the bitmap. -/
def InBitmap (s : Ram) (n x : Nat) : Prop := s.bitmap ≤ x ∧ x < s.bitmap + n

theorem isSet_congr (a c : BitArray) {b : Nat} (h : a (b / 8) = c (b / 8)) : isSet a b = isSet c b := by
  rw [isSet, isSet, h]

section Bits

variable {ptr n : Nat} (hn : ptr + n ≤ 2 ^ 32)
include hn

theorem bitsAt_update {m : Mem} {b c : Nat} (hb : b < 8 * n) (hc : c < 8 * n) (v : Byte) :
    Function.update m ((ptr + b / 8) % 2 ^ 32) v ((ptr + c / 8) % 2 ^ 32) =
      Function.update (fun i => m ((ptr + i) % 2 ^ 32)) (b / 8) v (c / 8) := by
  by_cases h : c / 8 = b / 8
  · rw [h, Function.update_self, Function.update_self]
  · rw [Function.update_of_ne h, Function.update_of_ne]
    rw [Nat.mod_eq_of_lt (by omega), Nat.mod_eq_of_lt (by omega)]
    omega

theorem bitmapSet_outside {m : Mem} {b x : Nat} (hb : b < 8 * n) (hx : ¬ (ptr ≤ x ∧ x < ptr + n)) :
    bitmapSet ptr m b x = m x := by
  rw [bitmapSet, Function.update_of_ne]
  rw [Nat.mod_eq_of_lt (by omega)]
  omega

end Bits

section Taken

variable {s : Ram} {n : Nat}

theorem pmmIsTaken_bitmapSet (hn : s.bitmap + n ≤ 2 ^ 32) {b c : Nat} (hb : b < 8 * n)
    (hc : c < 8 * n) : pmmIsTaken { s with mem := bitmapSet s.bitmap s.mem b } c = true ↔
      c = b ∨ s.pmmIsTaken c = true := by
  rw [pmmIsTaken, isSet_congr _ (set s.bits b) (bitsAt_update hn hb hc _)]
  exact isSet_set s.bits b c

theorem pmmIsTaken_pmmFree (hn : s.bitmap + n ≤ 2 ^ 32) {f c : Nat} (hf : f / blkSz < 8 * n)
    (hc : c < 8 * n) :
    (s.pmmFree f).pmmIsTaken c = true ↔ c ≠ f / blkSz ∧ s.pmmIsTaken c = true := by
  rw [pmmIsTaken, isSet_congr _ (unset s.bits (f / blkSz)) (bitsAt_update hn hf hc _)]
  exact isSet_unset s.bits (f / blkSz) c

theorem pmmFree_outside (hn : s.bitmap + n ≤ 2 ^ 32) {f x : Nat} (hf : f / blkSz < 8 * n)
    (hx : ¬ InBitmap s n x) : (s.pmmFree f).mem x = s.mem x := by
  have hx : ¬ (s.bitmap ≤ x ∧ x < s.bitmap + n) := hx
  refine Function.update_of_ne ?_ _ _
  generalize f / blkSz = b at hf
  rw [Nat.mod_eq_of_lt (by omega)]
  omega

theorem pmmIsTaken_congr (s' : Ram) (hn : s.bitmap + n ≤ 2 ^ 32) (hb : s'.bitmap = s.bitmap)
    (h : ∀ x, InBitmap s n x → s'.mem x = s.mem x) {c : Nat} (hc : c < 8 * n) :
    s'.pmmIsTaken c = s.pmmIsTaken c := by
  refine isSet_congr _ _ ?_
  rw [bits, bits, hb]
  refine h _ ?_
  rw [Nat.mod_eq_of_lt (by omega)]
  exact ⟨by omega, by omega⟩

end Taken

/-! ## What boot code does to memory -/

/-- From `s` to `s'` the blocks in `T` are taken, and the addresses in `W`, none of the bitmap's, are
written. -/
structure Extends (n : Nat) (W T : Nat → Prop) (s s' : Ram) : Prop where
  bitmap_eq : s'.bitmap = s.bitmap
  bitmapSz_eq : s'.bitmapSz = s.bitmapSz
  outside : ∀ x, ¬ InBitmap s n x → ¬ W x → s'.mem x = s.mem x
  taken : ∀ b < 8 * n, s'.pmmIsTaken b = true ↔ T b ∨ s.pmmIsTaken b = true

section Extends

variable {n : Nat} {W W' T T' : Nat → Prop} {s s' s'' : Ram}

theorem Extends.trans (h : Extends n W T s s') (h' : Extends n W' T' s' s'') :
    Extends n (fun x => W x ∨ W' x) (fun b => T b ∨ T' b) s s'' where
  bitmap_eq := h'.bitmap_eq.trans h.bitmap_eq
  bitmapSz_eq := h'.bitmapSz_eq.trans h.bitmapSz_eq
  outside := by
    intro x hx hw
    have hx' : ¬ InBitmap s' n x := by rw [InBitmap, h.bitmap_eq]; exact hx
    rw [h'.outside x hx' (fun h => hw (.inr h)), h.outside x hx (fun h => hw (.inl h))]
  taken := by
    intro b hb
    rw [h'.taken b hb, h.taken b hb, or_left_comm, or_assoc]

theorem Extends.weaken (h : Extends n W T s s') (hw : ∀ x, W x → W' x) (ht : ∀ b, T b ↔ T' b) :
    Extends n W' T' s s' where
  bitmap_eq := h.bitmap_eq
  bitmapSz_eq := h.bitmapSz_eq
  outside := fun x hx hx' => h.outside x hx fun hc => hx' (hw x hc)
  taken := fun b hb => by rw [h.taken b hb, ht]

theorem extends_bitmapSet (hn : s.bitmap + n ≤ 2 ^ 32) {k : Nat} (hk : k < 8 * n) :
    Extends n (fun _ => False) (fun b => b = k) s { s with mem := bitmapSet s.bitmap s.mem k } where
  bitmap_eq := rfl
  bitmapSz_eq := rfl
  outside := fun _ hx _ => bitmapSet_outside hn hk hx
  taken := fun _ hb => pmmIsTaken_bitmapSet hn hk hb

theorem extends_setBlocks : ∀ {k lo : Nat} {s : Ram}, s.bitmap + n ≤ 2 ^ 32 → lo + k ≤ 8 * n →
    Extends n (fun _ => False) (fun b => lo ≤ b ∧ b < lo + k) s
      { s with mem := setBlocks s.bitmap s.mem lo k } := by
  intro k
  induction k with
  | zero =>
    intro lo s _ _
    refine ⟨rfl, rfl, fun _ _ _ => rfl, fun b _ => ?_⟩
    have : ¬ (lo ≤ b ∧ b < lo + 0) := by omega
    simp only [this, false_or]
    rfl
  | succ k ih =>
    intro lo s hn h
    have h₁ := extends_bitmapSet hn (show lo < 8 * n by omega)
    exact (h₁.trans (ih hn (by omega))).weaken (fun _ hx => hx.elim id id) fun _ => by omega

theorem extends_pmmMarkMemTaken (hn : s.bitmap + n ≤ 2 ^ 32) (start : Nat) {stop : Nat}
    (h : markHi stop ≤ 8 * n) :
    Extends n (fun _ => False) (fun b => markLo start ≤ b ∧ b < markHi stop) s
      (s.pmmMarkMemTaken start stop) := by
  by_cases hle : markLo start ≤ markHi stop
  · refine (extends_setBlocks hn ?_).weaken (fun _ hx => hx) fun b => ?_
    · omega
    · omega
  · refine ⟨rfl, rfl, fun _ _ _ => ?_, fun b _ => ?_⟩
    · rw [pmmMarkMemTaken, Nat.sub_eq_zero_of_le (by omega)]
      rfl
    · rw [pmmMarkMemTaken, Nat.sub_eq_zero_of_le (by omega), setBlocks]
      have : ¬ (markLo start ≤ b ∧ b < markHi stop) := by omega
      simp only [this, false_or]

theorem extends_write (hn : s.bitmap + n ≤ 2 ^ 32) {m : Mem} (hm : ∀ x, ¬ W x → m x = s.mem x)
    (hapart : ∀ x, W x → ¬ InBitmap s n x) :
    Extends n W (fun _ => False) s { s with mem := m } where
  bitmap_eq := rfl
  bitmapSz_eq := rfl
  outside := fun x _ hx => hm x hx
  taken := fun b hb => by
    have hbits : ∀ x, InBitmap s n x → m x = s.mem x := fun x hx => hm x fun hw => hapart x hw hx
    rw [pmmIsTaken_congr { s with mem := m } hn rfl hbits hb, false_or]

end Extends

/-! ## Allocation -/

/-- Block `b` may be handed out. -/
def Free (s : Ram) (b : Nat) : Prop := 1 ≤ b ∧ b < s.bitmapSz ∧ s.pmmIsTaken b = false

/-- Block `k` is the next one that `pmm_alloc_first` hands out. -/
def Lowest (s : Ram) (k : Nat) : Prop := Free s k ∧ ∀ j, Free s j → k ≤ j

theorem pmmAllocFirst_spec (s : Ram) :
    (∃ k, Lowest s k ∧
      s.pmmAllocFirst = (k * blkSz % 2 ^ 32, { s with mem := bitmapSet s.bitmap s.mem k })) ∨
    ((∀ b, ¬ Free s b) ∧ s.pmmAllocFirst = (0, s)) := by
  rw [pmmAllocFirst]
  cases h : Pmm.allocFirstLoop s.bits (s.bitmapSz - 1) 1 with
  | some k =>
    obtain ⟨h1, h2, h3, h4⟩ := Pmm.allocFirstLoop_some h
    refine .inl ⟨k, ⟨⟨h1, by omega, h3⟩, fun j hj => ?_⟩, rfl⟩
    refine Nat.le_of_not_lt fun hlt => ?_
    have := h4 j hj.1 hlt
    rw [← pmmIsTaken, hj.2.2] at this
    cases this
  | none =>
    refine .inr ⟨fun b hb => ?_, rfl⟩
    have hb2 := hb.2.1
    have := Pmm.allocFirstLoop_none h b hb.1 (by omega)
    rw [← pmmIsTaken, hb.2.2] at this
    cases this

theorem Lowest.unique {s : Ram} {k k' : Nat} (h : Lowest s k) (h' : Lowest s k') : k = k' :=
  Nat.le_antisymm (h.2 k' h'.1) (h'.2 k h.1)

theorem pmmAllocFirst_lowest {s : Ram} {k : Nat} (h : Lowest s k) :
    s.pmmAllocFirst = (k * blkSz % 2 ^ 32, { s with mem := bitmapSet s.bitmap s.mem k }) := by
  rcases pmmAllocFirst_spec s with ⟨k', h', heq⟩ | ⟨hno, _⟩
  · rw [h.unique h']
    exact heq
  · exact absurd h.1 (hno k)

theorem exists_lowest {s : Ram} {b : Nat} (h : Free s b) : ∃ k, Lowest s k := by
  rcases pmmAllocFirst_spec s with ⟨k, hk, _⟩ | ⟨hno, _⟩
  · exact ⟨k, hk⟩
  · exact absurd h (hno b)

/-- The bitmap lies in `n` bytes of memory whose blocks are taken, with room for the blocks it
manages and for those of the first 4 MB. -/
structure Placed (n : Nat) (s : Ram) : Prop where
  bound : s.bitmap + n ≤ 2 ^ 32
  covers : s.bitmapSz ≤ 8 * n
  low : 1024 ≤ 8 * n
  blocks : s.bitmapSz ≤ 2 ^ 20
  inside : ∀ x, InBitmap s n x → x / blkSz < 8 * n
  own : ∀ x, InBitmap s n x → s.pmmIsTaken (x / blkSz) = true

section Placed

variable {n : Nat} {W T : Nat → Prop} {s s' : Ram}

theorem Placed.extends (h : Placed n s) (he : Extends n W T s s') : Placed n s' := by
  have hin : ∀ x, InBitmap s' n x ↔ InBitmap s n x := fun x => by rw [InBitmap, he.bitmap_eq, InBitmap]
  refine ⟨?_, ?_, h.low, ?_, fun x hx => h.inside x ((hin x).mp hx), fun x hx => ?_⟩
  · rw [he.bitmap_eq]; exact h.bound
  · rw [he.bitmapSz_eq]; exact h.covers
  · rw [he.bitmapSz_eq]; exact h.blocks
  · have hx := (hin x).mp hx
    exact (he.taken _ (h.inside x hx)).mpr (.inr (h.own x hx))

theorem Extends.free_iff (hp : Placed n s) (he : Extends n W T s s') (b : Nat) :
    Free s' b ↔ Free s b ∧ ¬ T b := by
  rw [Free, he.bitmapSz_eq, Free]
  by_cases hb : b < s.bitmapSz
  · have ht := he.taken b (Nat.lt_of_lt_of_le hb hp.covers)
    rw [← Bool.not_eq_true, ht, ← Bool.not_eq_true]
    tauto
  · tauto

theorem inFrame_iff {k x : Nat} : InFrame (k * blkSz) x ↔ x / blkSz = k := by
  unfold InFrame blkSz
  omega

/-- A frame that can be handed out has no byte of the bitmap. -/
theorem Placed.apart (h : Placed n s) {k : Nat} (hk : Free s k) :
    ∀ x, InFrame (k * blkSz) x → ¬ InBitmap s n x := by
  intro x hx hb
  have := h.own x hb
  rw [inFrame_iff.mp hx, hk.2.2] at this
  cases this

theorem Free.addr (h : Placed n s) {k : Nat} (hk : Free s k) :
    k * blkSz % 2 ^ 32 = k * blkSz ∧ k * blkSz ≠ 0 ∧ k * blkSz + blkSz ≤ 2 ^ 32 := by
  have h1 := hk.1
  have h2 := hk.2.1
  have h3 := h.blocks
  unfold blkSz
  refine ⟨Nat.mod_eq_of_lt ?_, ?_, ?_⟩ <;> omega

theorem vmmGetPhysicalPage_spec (h : Placed n s) {k : Nat} (hk : Lowest s k) :
    s.vmmGetPhysicalPage.1 = k * blkSz ∧
      Extends n (InFrame (k * blkSz)) (fun b => b = k) s s.vmmGetPhysicalPage.2 := by
  obtain ⟨haddr, hne, hend⟩ := hk.1.addr h
  have hcover := h.covers
  have hlt := hk.1.2.1
  rw [vmmGetPhysicalPage, pmmAllocFirst_lowest hk, haddr]
  refine ⟨rfl, ?_⟩
  have h₁ := extends_bitmapSet h.bound (show k < 8 * n by omega)
  have h₂ : Extends n (InFrame (k * blkSz)) (fun _ => False)
      { s with mem := bitmapSet s.bitmap s.mem k }
      { s with mem := memset (bitmapSet s.bitmap s.mem k) (k * blkSz) kb4 } := by
    refine extends_write (h.extends h₁).bound (fun x hx => ?_) (h.apart hk.1)
    rw [memset, if_neg hne, show kb4 = blkSz from rfl, clearBytes_apply _ hend, if_neg]
    exact hx
  exact (h₁.trans h₂).weaken (fun x hx => hx.elim False.elim id) fun _ => or_iff_left id

theorem identityLoop_outside {ptable x : Nat} (m : Mem) (hx : ¬ InFrame ptable x)
    (hend : ptable + blkSz ≤ 2 ^ 32) : ∀ {i : Nat}, i ≤ 1024 → identityLoop ptable i m x = m x := by
  unfold InFrame blkSz at *
  intro i
  induction i with
  | zero => intro _; rfl
  | succ i ih =>
    intro hi
    rw [identityLoop, wr_other _ _ (by omega) (by omega), ih (by omega)]

theorem writeTables_spec (h : Placed n s) {kd pt : Nat} (hkd : kd + blkSz ≤ 2 ^ 32)
    (hpt : pt + blkSz ≤ 2 ^ 32) (hakd : ∀ x, InFrame kd x → ¬ InBitmap s n x)
    (hapt : ∀ x, InFrame pt x → ¬ InBitmap s n x) :
    Extends n (fun x => InFrame kd x ∨ InFrame pt x) (fun b => b < 1024) s (s.writeTables kd pt) := by
  have hlow : markHi mb4 = 1024 := by decide
  have hlapic : lapicPhysVirtAddr / kb4 = 1007 := by decide
  rw [writeTables, hlapic]
  generalize (0xFEE00000#32 ||| (Vmm.x86PagePresent ||| Vmm.x86PageWritable ||| Vmm.x86PageUser) |||
    Vmm.x86PageCacheDis).toNat = v
  have h₁ : Extends n (InFrame pt) (fun _ => False) s
      { s with mem := wr (identityLoop pt 1024 s.mem) (pt + 4 * 1007) v 4 } := by
    refine extends_write h.bound (fun x hx => ?_) hapt
    rw [wr_other _ _ (by unfold blkSz at hpt; omega) (by unfold InFrame blkSz at hx; omega),
      identityLoop_outside _ hx hpt (Nat.le_refl _)]
  have hp₁ := h.extends h₁
  generalize { s with mem := wr (identityLoop pt 1024 s.mem) (pt + 4 * 1007) v 4 } = s₁ at h₁ hp₁
  have h₂ : Extends n (fun _ => False) (fun b => markLo 0 ≤ b ∧ b < markHi mb4) s₁
      (s₁.pmmMarkMemTaken 0 mb4) :=
    extends_pmmMarkMemTaken hp₁.bound 0 (by rw [hlow]; exact h.low)
  have hp₂ := hp₁.extends h₂
  have h₃ := h₁.trans h₂
  generalize s₁.pmmMarkMemTaken 0 mb4 = s₂ at h₃ hp₂
  refine (h₃.trans (extends_write (W := InFrame kd) hp₂.bound (fun x hx => ?_) fun x hx hc => ?_)).weaken
    (fun x hx => ?_) fun b => ?_
  · unfold InFrame at hx
    unfold blkSz at hx hkd
    rw [wr_other _ _ (by omega) (by omega), wr_other _ _ (by omega) (by omega)]
  · rw [InBitmap, h₃.bitmap_eq] at hc
    exact hakd x hx hc
  · rcases hx with (hx | hx) | hx
    · exact .inr hx
    · exact hx.elim
    · exact .inl hx
  · rw [hlow, show markLo 0 = 0 by decide]
    simp

/-- `vmm_init` takes the two lowest free blocks and the first 4 MB, and writes the two frames. -/
theorem vmmInit_spec (h : Placed n s) {k₁ k₂ : Nat} (h₁ : Lowest s k₁)
    (h₂ : Free s k₂ ∧ k₂ ≠ k₁ ∧ ∀ j, Free s j → j ≠ k₁ → k₂ ≤ j) :
    ∃ s', s.vmmInit = (k₁ * blkSz, k₂ * blkSz, s') ∧
      Extends n (fun x => InFrame (k₁ * blkSz) x ∨ InFrame (k₂ * blkSz) x)
        (fun b => b = k₁ ∨ b = k₂ ∨ b < 1024) s s' := by
  obtain ⟨ha, he⟩ := vmmGetPhysicalPage_spec h h₁
  have hfree := he.free_iff h
  have hp' := h.extends he
  have hlow : Lowest s.vmmGetPhysicalPage.2 k₂ :=
    ⟨(hfree k₂).mpr ⟨h₂.1, h₂.2.1⟩, fun j hj => h₂.2.2 j ((hfree j).mp hj).1 ((hfree j).mp hj).2⟩
  obtain ⟨hb, he'⟩ := vmmGetPhysicalPage_spec hp' hlow
  have hin : ∀ x, InBitmap s.vmmGetPhysicalPage.2.vmmGetPhysicalPage.2 n x → InBitmap s n x := by
    intro x hx
    rw [InBitmap, he'.bitmap_eq, he.bitmap_eq] at hx
    exact hx
  have hw := writeTables_spec (hp'.extends he') (h₁.1.addr h).2.2 (h₂.1.addr h).2.2
    (fun x hx hc => h.apart h₁.1 x hx (hin x hc)) (fun x hx hc => h.apart h₂.1 x hx (hin x hc))
  refine ⟨_, ?_, ((he.trans he').trans hw).weaken (fun x hx => ?_) fun b => or_assoc⟩
  · rw [vmmInit]
    simp only [ha, hb]
  · rcases hx with (hx | hx) | hx
    · exact .inl hx
    · exact .inr hx
    · exact hx

end Placed

end Ram
end Frod
