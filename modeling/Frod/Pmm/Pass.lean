import Frod.Lib.Walk
import Frod.Pmm.Buffer
import Frod.Pmm.Entries

/-!
# Frod.Pmm.Pass

The marking pass of `init_pmm` step by step, over memory that holds both the map and the bitmap: at
each point of the pass the entry it is at is read from memory as the bits set so far have left it.

* `overlay`: memory with a bitmap laid over it. Every state of the pass is one (`overlay_bitmapSet`).
* `pass_onWay`: if what is marked for the entries leaves the bytes of the entries alone, the pass goes
  from one entry to the next as the map says, and never leaves that way.
* `markWalk_same`: as long as these bytes are left alone, the pass computes what it computes over a
  list of the entries, and sets each bit of the ranges it marks.
-/

namespace Frod
namespace Ram

open StateTransition BitArray Bytes
open Pmm (blkSz alignDownwards lastBlock Meets Sweeps markedRanges)

/-! ## The pass -/

/-- Where the pass is: at the head of its loop, or in one of the two loops that set bits, for the gap
before the entry at `copy` or for that entry itself. -/
inductive Point where
  | head (copy expected : Nat)
  | mark (taken : Bool) (copy x : Nat)

/-- The entry that is read there. -/
def Point.copy : Point → Nat
  | .head copy _ => copy
  | .mark _ copy _ => copy

/-- What the counter of a marking loop is compared with. -/
def markLimit (taken : Bool) (m : Mem) (copy : Nat) : Nat :=
  if taken then (entryAt m copy).endL else (entryAt m copy).baseAddrL.toNat

/-- Behind the gap: the entry itself is marked if it is not available, or the next one follows. -/
def afterGap (max : Nat) (m : Mem) (copy : Nat) : Point × Mem :=
  if (entryAt m copy).type ≠ 1 ∧ (entryAt m copy).endL < (max + 2 ^ 32 - 1) % 2 ^ 32 then
    (.mark true copy (alignDownwards (entryAt m copy).baseAddrL.toNat blkSz), m)
  else (.head (nextEntry m copy) (entryAt m copy).endL, m)

/-- Behind a marking loop. -/
def afterMark (max : Nat) (taken : Bool) (m : Mem) (copy : Nat) : Point × Mem :=
  if taken then (.head (nextEntry m copy) (entryAt m copy).endL, m) else afterGap max m copy

theorem afterMark_false (max : Nat) (m : Mem) (copy : Nat) :
    afterMark max false m copy = afterGap max m copy := if_neg nofun

theorem afterMark_snd (max : Nat) (taken : Bool) (m : Mem) (copy : Nat) :
    (afterMark max taken m copy).2 = m := by
  rw [afterMark, afterGap]
  split
  · rfl
  · split <;> rfl

/-- One step of the pass: a test, with the bit that is set where a marking loop goes on. -/
def passStep (ptr max stop : Nat) : Point × Mem → Option (Point × Mem)
  | (.head copy expected, m) =>
    if copy < stop ∧ (entryAt m copy).baseAddrL.toNat < (max + 2 ^ 32 - 1) % 2 ^ 32 then
      some (if (entryAt m copy).baseAddrL.toNat > expected then
          (.mark false copy (alignDownwards expected blkSz), m)
        else afterGap max m copy)
    else none
  | (.mark taken copy x, m) =>
    some (if x < markLimit taken m copy then
        (.mark taken copy ((x + blkSz) % 2 ^ 32), bitmapSet ptr m (x / blkSz))
      else afterMark max taken m copy)

section Steps

variable {ptr max stop copy expected x : Nat} {m m' : Mem} {taken : Bool}

theorem passStep_head (h : copy < stop ∧
    (entryAt m copy).baseAddrL.toNat < (max + 2 ^ 32 - 1) % 2 ^ 32) :
    passStep ptr max stop (.head copy expected, m) =
      some (if (entryAt m copy).baseAddrL.toNat > expected then
          (.mark false copy (alignDownwards expected blkSz), m)
        else afterGap max m copy) := if_pos h

theorem passStep_mark (h : x < markLimit taken m copy) :
    passStep ptr max stop (.mark taken copy x, m) =
      some (.mark taken copy ((x + blkSz) % 2 ^ 32), bitmapSet ptr m (x / blkSz)) := by
  rw [passStep, if_pos h]

theorem passStep_after (h : ¬ x < markLimit taken m copy) :
    passStep ptr max stop (.mark taken copy x, m) = some (afterMark max taken m copy) := by
  rw [passStep, if_neg h]

theorem reaches_of_markLoop : ∀ {n x : Nat} {m : Mem},
    markLoop ptr (fun m => markLimit taken m copy) n x m = .ok m' →
      Reaches (passStep ptr max stop) (.mark taken copy x, m) (afterMark max taken m' copy) := by
  intro n
  induction n with
  | zero => intro x m h; cases h
  | succ n ih =>
    intro x m h
    rw [markLoop] at h
    split at h
    · rename_i hx
      exact .head (passStep_mark hx) (ih h)
    · rename_i hx
      obtain rfl := Except.ok.inj h
      exact .single (passStep_after hx)

/-- Where `markWalk` returns, the pass has come to its end with the same memory. -/
theorem reaches_of_markWalk : ∀ {fuel copy expected : Nat} {m : Mem},
    markWalk ptr max stop fuel copy expected m = .ok m' →
      ∃ p, Reaches (passStep ptr max stop) (.head copy expected, m) (p, m') ∧
        passStep ptr max stop (p, m') = none := by
  intro fuel
  induction fuel with
  | zero => intro copy expected m h; cases h
  | succ fuel ih =>
    intro copy expected m h
    rw [markWalk] at h
    split at h
    · rename_i hc
      obtain ⟨m₁, hgap, h⟩ := Machine.bind_eq_ok.mp h
      obtain ⟨m₂, hentry, h⟩ := Machine.bind_eq_ok.mp h
      obtain ⟨p, hp, hnone⟩ := ih h
      have h₁ : Reaches (passStep ptr max stop) (.head copy expected, m) (afterGap max m₁ copy) := by
        split at hgap
        · rename_i hg
          have hstep := @passStep_head ptr max stop copy expected m hc
          rw [if_pos hg] at hstep
          exact .head hstep (@reaches_of_markLoop _ _ _ _ _ false _ _ _ hgap)
        · rename_i hg
          obtain rfl := Except.ok.inj hgap
          have hstep := @passStep_head ptr max stop copy expected m hc
          rw [if_neg hg] at hstep
          exact .single hstep
      have h₂ : Reaches (passStep ptr max stop) (afterGap max m₁ copy)
          (.head (nextEntry m₂ copy) (entryAt m₂ copy).endL, m₂) := by
        rw [afterGap]
        split at hentry
        · rename_i hr
          rw [if_pos hr]
          exact @reaches_of_markLoop _ _ _ _ _ true _ _ _ hentry
        · rename_i hr
          obtain rfl := Except.ok.inj hentry
          rw [if_neg hr]
          exact .refl
      exact ⟨p, (h₁.trans h₂).trans hp, hnone⟩
    · rename_i hc
      obtain rfl := Except.ok.inj h
      exact ⟨.head copy expected, .refl, if_neg hc⟩

end Steps

/-! ## Memory with a bitmap laid over it -/

/-- The number of the byte at `x` in a bitmap at `base`. -/
def byteNo (base x : Nat) : Nat := (x + 2 ^ 32 - base) % 2 ^ 32

/-- The memory `m` after the first `n` bytes at `ptr` were cleared and the bits of `a` set there. -/
def overlay (m : Mem) (ptr n : Nat) (a : BitArray) : Mem := fun x =>
  if x < 2 ^ 32 then (if byteNo ptr x < n then 0 else m x) ||| a (byteNo ptr x) else m x

section Overlay

variable {m : Mem} {ptr n x : Nat} {a : BitArray}

theorem eq_iff_byteNo (hptr : ptr < 2 ^ 32) (hx : x < 2 ^ 32) {i : Nat} (hi : i < 2 ^ 32) :
    x = (ptr + i) % 2 ^ 32 ↔ byteNo ptr x = i := by
  unfold byteNo
  omega

theorem bitmapSet_apply (m : Mem) (hptr : ptr < 2 ^ 32) (hx : x < 2 ^ 32) {b : Nat}
    (hb : b < 2 ^ 32) : bitmapSet ptr m b x = m x ||| set (fun _ => 0) b (byteNo ptr x) := by
  have hiff := eq_iff_byteNo hptr hx (show b / 8 < 2 ^ 32 by omega)
  rw [bitmapSet, BitArray.set, Function.update_apply, Function.update_apply]
  by_cases heq : x = (ptr + b / 8) % 2 ^ 32
  · rw [if_pos heq, if_pos (hiff.mp heq), ← heq]
    exact congrArg _ BitVec.zero_or.symm
  · rw [if_neg heq, if_neg fun h => heq (hiff.mpr h)]
    exact BitVec.or_zero.symm

/-- Setting a bit in memory sets it in the bitmap that is laid over it. -/
theorem overlay_bitmapSet (hptr : ptr < 2 ^ 32) {b : Nat} (hb : b < 2 ^ 32) :
    bitmapSet ptr (overlay m ptr n a) b = overlay m ptr n (set a b) := by
  funext x
  by_cases hx : x < 2 ^ 32
  · rw [bitmapSet_apply _ hptr hx hb, overlay, overlay, if_pos hx, if_pos hx, set_apply a b,
      BitVec.or_assoc]
  · rw [bitmapSet, Function.update_of_ne (by omega), overlay, overlay, if_neg hx, if_neg hx]

/-- The bytes of the bitmap. -/
theorem isSet_overlay (hptr : ptr < 2 ^ 32) {b : Nat} (hb : b / 8 < 2 ^ 32) :
    isSet (fun i => overlay m ptr n a ((ptr + i) % 2 ^ 32)) b = true ↔
      (¬ b / 8 < n ∧ isSet (fun i => m ((ptr + i) % 2 ^ 32)) b = true) ∨ isSet a b = true := by
  have hx : (ptr + b / 8) % 2 ^ 32 < 2 ^ 32 := Nat.mod_lt _ (by decide)
  have hno : byteNo ptr ((ptr + b / 8) % 2 ^ 32) = b / 8 := (eq_iff_byteNo hptr hx hb).mp rfl
  rw [isSet_eq_getLsbD, isSet_eq_getLsbD, isSet_eq_getLsbD, overlay, if_pos hx, hno,
    BitVec.getLsbD_or, Bool.or_eq_true]
  refine or_congr_left ?_
  by_cases hn : b / 8 < n
  · rw [if_pos hn]
    exact ⟨fun h => absurd h (by simp), fun h => absurd hn h.1⟩
  · rw [if_neg hn]
    exact ⟨fun h => ⟨hn, h⟩, fun h => h.2⟩

/-- A byte is as it was when its bits that are set were set already, and none was cleared. -/
theorem overlay_eq_iff (hx : x < 2 ^ 32) : overlay m ptr n a x = m x ↔
    ∀ b, b / 8 = byteNo ptr x → (isSet a b = true → (m x).getLsbD (b % 8) = true) ∧
      (byteNo ptr x < n → (m x).getLsbD (b % 8) = true → isSet a b = true) := by
  constructor
  · intro h b hb
    have hbit := congrArg (fun y : Byte => y.getLsbD (b % 8)) h
    simp only [overlay, if_pos hx, BitVec.getLsbD_or] at hbit
    rw [isSet_eq_getLsbD, hb]
    refine ⟨fun ha => ?_, fun hn hm => ?_⟩
    · rw [← hbit, ha, Bool.or_true]
    · rw [if_pos hn, hm] at hbit
      simpa using hbit
  · intro h
    apply BitVec.eq_of_getLsbD_eq
    intro k hk
    obtain ⟨h1, h2⟩ := h (8 * byteNo ptr x + k) (by omega)
    rw [isSet_eq_getLsbD, show (8 * byteNo ptr x + k) / 8 = byteNo ptr x by omega,
      show (8 * byteNo ptr x + k) % 8 = k by omega] at h1 h2
    rw [overlay, if_pos hx, BitVec.getLsbD_or]
    by_cases hn : byteNo ptr x < n
    · rw [if_pos hn, show ((0 : Byte).getLsbD k) = false by simp, Bool.false_or]
      exact Bool.eq_iff_iff.mpr ⟨h1, h2 hn⟩
    · rw [if_neg hn]
      cases hm : (m x).getLsbD k with
      | true => rfl
      | false =>
        rw [Bool.false_or, ← hm]
        exact Bool.eq_iff_iff.mpr ⟨h1, fun hset => by rw [hm] at hset; cases hset⟩

end Overlay

/-! ## The bytes of the entries -/

/-- The way from entry to entry. -/
def entryStep (m : Mem) (stop : Nat) : Nat → Option Nat := recordStep (nextEntry m) stop

/-- The byte at `x` is one of an entry that the size fields lead to. -/
def InEntry (m : Mem) (stop mmap x : Nat) : Prop :=
  ∃ p, Reaches (entryStep m stop) mmap p ∧ p < stop ∧ ∃ k < 24, x = (p + k) % 2 ^ 32

section Bytes

variable {m m' : Mem} {a : Nat}

theorem entryAt_of_bytes (h : ∀ k < 24, m' ((a + k) % 2 ^ 32) = m ((a + k) % 2 ^ 32)) :
    entryAt m' a = entryAt m a ∧ nextEntry m' a = nextEntry m a := by
  have hw : ∀ i, i ≤ 20 → word m' (a + i) = word m (a + i) := by
    intro i hi
    have hrd : rd m' (a + i) 4 = rd m (a + i) 4 := rd_eq_of_bytes fun k hk => by
      rw [Nat.add_assoc]
      exact h (i + k) (by omega)
    rw [word, word, hrd]
  refine ⟨?_, ?_⟩
  · rw [entryAt, entryAt, hw 4 (by omega), hw 8 (by omega), hw 12 (by omega), hw 16 (by omega),
      hw 20 (by omega)]
  · rw [nextEntry, nextEntry, show word m' a = word m a from hw 0 (by omega)]

theorem bytes_of_word (h : word m' a = word m a) :
    ∀ k < 4, m' ((a + k) % 2 ^ 32) = m ((a + k) % 2 ^ 32) := by
  have hlt : rd m a 4 < 2 ^ 32 := rd_lt m 4 a
  have hlt' : rd m' a 4 < 2 ^ 32 := rd_lt m' 4 a
  refine bytes_of_rd ?_
  rw [word, word] at h
  have hnat := congrArg BitVec.toNat h
  rw [BitVec.toNat_ofNat, BitVec.toNat_ofNat, Nat.mod_eq_of_lt hlt', Nat.mod_eq_of_lt hlt] at hnat
  exact hnat

/-- The entry and the address of the next one determine the bytes. -/
theorem bytes_of_entryAt (h : entryAt m' a = entryAt m a) (hnext : nextEntry m' a = nextEntry m a) :
    ∀ k < 24, m' ((a + k) % 2 ^ 32) = m ((a + k) % 2 ^ 32) := by
  have hsize : word m' a = word m a := by
    rw [nextEntry, nextEntry] at hnext
    have h1 := (word m a).isLt
    have h2 := (word m' a).isLt
    exact BitVec.eq_of_toNat_eq (by omega)
  simp only [entryAt, MmapEntry.mk.injEq] at h
  obtain ⟨h1, h2, h3, h4, h5⟩ := h
  intro k hk
  have hfield : ∀ i, word m' (a + i) = word m (a + i) → i ≤ k → k < i + 4 →
      m' ((a + k) % 2 ^ 32) = m ((a + k) % 2 ^ 32) := by
    intro i hi h1 h2
    have := bytes_of_word hi (k - i) (by omega)
    rwa [show a + i + (k - i) = a + k by omega] at this
  rcases (by omega : k < 4 ∨ (4 ≤ k ∧ k < 8) ∨ (8 ≤ k ∧ k < 12) ∨ (12 ≤ k ∧ k < 16) ∨
    (16 ≤ k ∧ k < 20) ∨ (20 ≤ k ∧ k < 24)) with hc | hc | hc | hc | hc | hc
  · exact hfield 0 hsize (by omega) (by omega)
  · exact hfield 4 h1 hc.1 hc.2
  · exact hfield 8 h2 hc.1 hc.2
  · exact hfield 12 h3 hc.1 hc.2
  · exact hfield 16 h4 hc.1 hc.2
  · exact hfield 20 h5 hc.1 hc.2

end Bytes

/-! ## The way of the pass -/

/-- The bytes in `D` are as in `m₀`. -/
def Same (D : Nat → Prop) (m₀ m : Mem) : Prop := ∀ x, D x → m x = m₀ x

/-- The blocks that marking the ranges takes all have the property `W`. -/
def Covers (W : Nat → Prop) (ranges : List (Nat × Nat)) : Prop :=
  ∀ r ∈ ranges, ∀ b, Sweeps r.1 r.2 b → W b

/-- The ranges that are marked behind the loop for an entry's gap, or for the entry itself. -/
def rangesBehind (max : Nat) (taken : Bool) (e : MmapEntry) (rest : List MmapEntry) : List (Nat × Nat) :=
  (if taken = false ∧ e.type ≠ 1 ∧ e.endL < (max + 2 ^ 32 - 1) % 2 ^ 32 then
    [(e.baseAddrL.toNat, e.endL)] else []) ++ markedRanges max e.endL rest

/-- The point is on the way that leads along the entries of `m₀`, and what is left to mark has the
property `W`. -/
def OnWay (W : Nat → Prop) (m₀ : Mem) (max stop mmap : Nat) : Point → Prop
  | .head copy expected =>
    Reaches (entryStep m₀ stop) mmap copy ∧ expected < 2 ^ 32 ∧
      ∃ rest, MapAt m₀ stop copy rest ∧ Covers W (markedRanges max expected rest)
  | .mark taken copy x =>
    Reaches (entryStep m₀ stop) mmap copy ∧ copy < stop ∧ x < 2 ^ 32 ∧
      (∀ b, Sweeps x (markLimit taken m₀ copy) b → W b) ∧
      ∃ rest, MapAt m₀ stop (nextEntry m₀ copy) rest ∧
        Covers W (rangesBehind max taken (entryAt m₀ copy) rest)

theorem OnWay.reaches {W : Nat → Prop} {m₀ : Mem} {max stop mmap : Nat} {p : Point}
    (h : OnWay W m₀ max stop mmap p) : Reaches (entryStep m₀ stop) mmap p.copy := by
  cases p with
  | head copy expected => exact h.1
  | mark taken copy x => exact h.1

theorem markLimit_lt (taken : Bool) (m : Mem) (copy : Nat) : markLimit taken m copy < 2 ^ 32 := by
  rw [markLimit]
  split
  · exact MmapEntry.endL_lt _
  · exact BitVec.isLt _

theorem div_blkSz_lt {x : Nat} (hx : x < 2 ^ 32) : x / blkSz < 2 ^ 32 :=
  Nat.lt_of_le_of_lt (Nat.div_le_self _ _) hx

theorem sweeps_align {lo hi b : Nat} : Sweeps (alignDownwards lo blkSz) hi b ↔ Sweeps lo hi b := by
  refine or_congr_left ?_
  simp only [Meets, alignDownwards, blkSz]
  omega

/-- The block at the counter is one of those that are taken, and so are those that follow. -/
theorem sweeps_self {x hi : Nat} (h : x < hi) : Sweeps x hi (x / blkSz) := by
  refine .inl ⟨Nat.le_refl _, ?_⟩
  simp only [blkSz]
  omega

theorem sweeps_next {x hi b : Nat} (hx : x < hi) (hhi : hi < 2 ^ 32)
    (h : Sweeps ((x + blkSz) % 2 ^ 32) hi b) : Sweeps x hi b := by
  by_cases hlast : hi ≤ lastBlock
  · refine h.imp_left fun hm => ?_
    simp only [Meets, lastBlock, blkSz] at *
    omega
  · exact .inr ⟨Nat.lt_of_not_le hlast, h.lt hhi⟩

section Way

variable {D W : Nat → Prop} {m₀ m : Mem} {ptr n max stop mmap copy : Nat} {taken : Bool}

theorem Same.entryAt (h : Same D m₀ m) (hD : ∀ x, InEntry m₀ stop mmap x → D x)
    (hcopy : Reaches (entryStep m₀ stop) mmap copy) (hlt : copy < stop) :
    entryAt m copy = entryAt m₀ copy ∧ nextEntry m copy = nextEntry m₀ copy :=
  entryAt_of_bytes fun k hk => h _ (hD _ ⟨copy, hcopy, hlt, k, hk, rfl⟩)

theorem Same.markLimit (h : Same D m₀ m) (hD : ∀ x, InEntry m₀ stop mmap x → D x)
    (hcopy : Reaches (entryStep m₀ stop) mmap copy) (hlt : copy < stop) (taken : Bool) :
    markLimit taken m copy = markLimit taken m₀ copy := by
  rw [Ram.markLimit, Ram.markLimit, (h.entryAt hD hcopy hlt).1]

/-- Behind a marking loop the pass is on the way, over the same memory. -/
theorem onWay_afterMark {P : BitArray → Prop} {a : BitArray} (ha : P a)
    (h : Same D m₀ (overlay m₀ ptr n a)) (hD : ∀ x, InEntry m₀ stop mmap x → D x)
    (hcopy : Reaches (entryStep m₀ stop) mmap copy) (hlt : copy < stop) {rest : List MmapEntry}
    (hrest : MapAt m₀ stop (nextEntry m₀ copy) rest)
    (hW : Covers W (rangesBehind max taken (Ram.entryAt m₀ copy) rest)) :
    ∃ a', (afterMark max taken (overlay m₀ ptr n a) copy).2 = overlay m₀ ptr n a' ∧ P a' ∧
      OnWay W m₀ max stop mmap (afterMark max taken (overlay m₀ ptr n a) copy).1 := by
  obtain ⟨hentry, hnext⟩ := h.entryAt hD hcopy hlt
  have hreach : Reaches (entryStep m₀ stop) mmap (nextEntry m₀ copy) :=
    hcopy.tail (recordStep_eq_some.mpr ⟨hlt, rfl⟩)
  have hhead : OnWay W m₀ max stop mmap (.head (nextEntry m₀ copy) (Ram.entryAt m₀ copy).endL) :=
    ⟨hreach, MmapEntry.endL_lt _, rest, hrest, fun r hr => hW r (List.mem_append_right _ hr)⟩
  cases taken with
  | true =>
    rw [afterMark, if_pos rfl, hentry, hnext]
    exact ⟨a, rfl, ha, hhead⟩
  | false =>
    rw [afterMark_false, afterGap, hentry, hnext]
    split
    · rename_i hr
      refine ⟨a, rfl, ha, hcopy, hlt, ?_, fun b hb => ?_, rest, hrest, ?_⟩
      · unfold alignDownwards
        omega
      · refine hW ((Ram.entryAt m₀ copy).baseAddrL.toNat, (Ram.entryAt m₀ copy).endL) ?_ b
          (sweeps_align.mp hb)
        rw [rangesBehind, if_pos ⟨rfl, hr⟩]
        exact List.mem_append_left _ (List.mem_singleton.mpr rfl)
      · intro r hr'
        rw [rangesBehind, if_neg (fun hc => nomatch hc.1), List.nil_append] at hr'
        exact hW r (List.mem_append_right _ hr')
    · exact ⟨a, rfl, ha, hhead⟩

/-- One step stays on the way, and memory a bitmap laid over `m₀`. -/
theorem onWay_step {P : BitArray → Prop} (hptr : ptr < 2 ^ 32)
    (hD : ∀ x, InEntry m₀ stop mmap x → D x) (hP : ∀ a, P a → Same D m₀ (overlay m₀ ptr n a))
    (hset : ∀ a b, P a → W b → P (set a b)) {t u : Point × Mem}
    (ht : ∃ a, t.2 = overlay m₀ ptr n a ∧ P a ∧ OnWay W m₀ max stop mmap t.1)
    (hu : passStep ptr max stop t = some u) :
    ∃ a, u.2 = overlay m₀ ptr n a ∧ P a ∧ OnWay W m₀ max stop mmap u.1 := by
  obtain ⟨p, m⟩ := t
  obtain ⟨a, rfl, ha, hway⟩ := ht
  have hsame := hP a ha
  cases p with
  | head copy expected =>
    obtain ⟨hcopy, hexp, rest, hrest, hW⟩ := hway
    rw [passStep] at hu
    split at hu
    · rename_i hc
      obtain rfl := Option.some.inj hu
      cases hrest with
      | nil hstop => omega
      | @cons _ rest hlt hrest =>
        obtain ⟨hentry, _⟩ := hsame.entryAt hD hcopy hlt
        rw [hentry] at hc ⊢
        rw [markedRanges, if_pos hc.2] at hW
        have hbehind : Covers W (rangesBehind max false (entryAt m₀ copy) rest) := by
          intro r hr
          refine hW r ?_
          rw [rangesBehind] at hr
          rw [List.append_assoc]
          simpa only [true_and] using List.mem_append_right _ hr
        split
        · rename_i hg
          refine ⟨a, rfl, ha, hcopy, hlt, ?_, fun b hb => ?_, rest, hrest, hbehind⟩
          · unfold alignDownwards
            omega
          · refine hW (expected, (entryAt m₀ copy).baseAddrL.toNat) ?_ b (sweeps_align.mp hb)
            rw [if_pos hg]
            exact List.mem_append_left _ (List.mem_append_left _ (List.mem_singleton.mpr rfl))
        · rw [← afterMark_false]
          exact onWay_afterMark ha hsame hD hcopy hlt hrest hbehind
    · cases hu
  | mark taken copy x =>
    obtain ⟨hcopy, hlt, hx, hsweep, rest, hrest, hW⟩ := hway
    have hlimit := hsame.markLimit hD hcopy hlt taken
    have hhi := markLimit_lt taken m₀ copy
    rw [passStep, hlimit] at hu
    obtain rfl := Option.some.inj hu
    split
    · rename_i hlt'
      refine ⟨set a (x / blkSz), overlay_bitmapSet hptr (div_blkSz_lt hx), hset a _ ha ?_, hcopy, hlt,
        Nat.mod_lt _ (by decide), fun b hb => hsweep b (sweeps_next hlt' hhi hb), rest, hrest, hW⟩
      exact hsweep _ (sweeps_self hlt')
    · exact onWay_afterMark ha hsame hD hcopy hlt hrest hW

theorem pass_onWay {P : BitArray → Prop} (hptr : ptr < 2 ^ 32)
    (hD : ∀ x, InEntry m₀ stop mmap x → D x) (hP : ∀ a, P a → Same D m₀ (overlay m₀ ptr n a))
    (hset : ∀ a b, P a → W b → P (set a b)) {es : List MmapEntry} (hes : MapAt m₀ stop mmap es)
    (hW : Covers W (markedRanges max 0 es)) {a : BitArray} (ha : P a) {t : Point × Mem}
    (ht : Reaches (passStep ptr max stop) (.head mmap 0, overlay m₀ ptr n a) t) :
    ∃ a, t.2 = overlay m₀ ptr n a ∧ P a ∧ OnWay W m₀ max stop mmap t.1 := by
  refine reaches_induction ⟨a, rfl, ha, ?_⟩ (fun t u => onWay_step hptr hD hP hset) ht
  exact ⟨.refl, Nat.two_pow_pos 32, es, hes, hW⟩

/-! ## What the pass computes -/

/-- From `t` on the pass leaves the bytes in `D` alone. -/
def Keeps (D : Nat → Prop) (m₀ : Mem) (ptr max stop : Nat) (t : Point × Mem) : Prop :=
  ∀ u, Reaches (passStep ptr max stop) t u → Same D m₀ u.2

/-- Block `b` is set in a bitmap that leaves them alone. -/
def SetIn (D : Nat → Prop) (m₀ : Mem) (ptr n b : Nat) : Prop :=
  ∃ a, isSet a b = true ∧ Same D m₀ (overlay m₀ ptr n a)

/-- A piece of the pass does over memory what it does over the bits: it returns with the bits laid over
memory, in a state `Q`, after each block of the ranges was set; or it never returns, and every block
is set in the course. -/
def Follows (D : Nat → Prop) (m₀ : Mem) (ptr n : Nat) (ranges : List (Nat × Nat)) (Q : BitArray → Prop)
    (bits : Except Stop BitArray) (bytes : Except Stop Mem) : Prop :=
  (∃ a, bits = .ok a ∧ bytes = .ok (overlay m₀ ptr n a) ∧ Q a ∧ Covers (SetIn D m₀ ptr n) ranges) ∨
    (bits = .error .diverges ∧ bytes = .error .diverges ∧ ∀ b < 2 ^ 20, SetIn D m₀ ptr n b)

theorem Keeps.same {t : Point × Mem} (h : Keeps D m₀ ptr max stop t) : Same D m₀ t.2 := h t .refl

theorem Keeps.step {t u : Point × Mem} (h : Keeps D m₀ ptr max stop t)
    (hu : passStep ptr max stop t = some u) : Keeps D m₀ ptr max stop u := fun v hv => h v (.head hu hv)

section Marking

variable (hptr : ptr < 2 ^ 32) (hD : ∀ x, InEntry m₀ stop mmap x → D x)
  (hcopy : Reaches (entryStep m₀ stop) mmap copy) (hlt : copy < stop)
include hptr hD hcopy hlt

theorem Keeps.next {x : Nat} {a : BitArray}
    (h : Keeps D m₀ ptr max stop (.mark taken copy x, overlay m₀ ptr n a)) (hx : x < 2 ^ 32)
    (hlimit : x < markLimit taken m₀ copy) :
    Keeps D m₀ ptr max stop
      (.mark taken copy ((x + blkSz) % 2 ^ 32), overlay m₀ ptr n (set a (x / blkSz))) := by
  rw [← overlay_bitmapSet hptr (div_blkSz_lt hx)]
  refine h.step (passStep_mark ?_)
  rw [h.same.markLimit hD hcopy hlt]
  exact hlimit

/-- A marking loop that returns over the bits returns over memory with the same bits. -/
theorem Keeps.markLoop_ok : ∀ {k fuel x : Nat} {a a' : BitArray},
    Keeps D m₀ ptr max stop (.mark taken copy x, overlay m₀ ptr n a) → x < 2 ^ 32 →
    Pmm.markLoop (markLimit taken m₀ copy) k x a = .ok a' → k ≤ fuel →
      markLoop ptr (fun m => markLimit taken m copy) fuel x (overlay m₀ ptr n a) =
          .ok (overlay m₀ ptr n a') ∧
        Keeps D m₀ ptr max stop (afterMark max taken (overlay m₀ ptr n a') copy) := by
  intro k
  induction k with
  | zero => intro fuel x a a' _ _ hok; cases hok
  | succ k ih =>
    intro fuel x a a' h hx hok hfuel
    obtain ⟨f, rfl⟩ := Nat.exists_eq_succ_of_ne_zero (Nat.ne_of_gt (Nat.zero_lt_of_lt hfuel))
    have hlimit := h.same.markLimit hD hcopy hlt taken
    dsimp only at hlimit
    rw [Pmm.markLoop] at hok
    rw [Ram.markLoop, hlimit]
    split at hok
    · rename_i hlt'
      rw [if_pos hlt', overlay_bitmapSet hptr (div_blkSz_lt hx)]
      exact ih (h.next hptr hD hcopy hlt hx hlt') (Nat.mod_lt _ (by decide)) hok (by omega)
    · rename_i hge
      obtain rfl := Except.ok.inj hok
      rw [if_neg hge]
      exact ⟨rfl, h.step (passStep_after (by rw [hlimit]; exact hge))⟩

/-- A marking loop whose counter wraps does not return, -/
theorem Keeps.markLoop_wrap (hwrap : lastBlock < markLimit taken m₀ copy) : ∀ {fuel x : Nat}
    {a : BitArray}, Keeps D m₀ ptr max stop (.mark taken copy x, overlay m₀ ptr n a) →
    x % blkSz = 0 → x < 2 ^ 32 →
      markLoop ptr (fun m => markLimit taken m copy) fuel x (overlay m₀ ptr n a) = .error .diverges := by
  intro fuel
  induction fuel with
  | zero => intro x a _ _ _; rfl
  | succ fuel ih =>
    intro x a h hmod hx
    have hlimit := h.same.markLimit hD hcopy hlt taken
    dsimp only at hlimit
    have hlt' : x < markLimit taken m₀ copy := by
      simp only [lastBlock, blkSz] at *
      omega
    rw [Ram.markLoop, hlimit, if_pos hlt', overlay_bitmapSet hptr (div_blkSz_lt hx)]
    refine ih (h.next hptr hD hcopy hlt hx hlt') ?_ (Nat.mod_lt _ (by decide))
    simp only [blkSz] at *
    omega

/-- and comes to every block: from the one at its counter to the one `j` behind it. -/
theorem Keeps.setIn_wrap (hwrap : lastBlock < markLimit taken m₀ copy) {b : Nat} : ∀ {j x : Nat}
    {a : BitArray}, Keeps D m₀ ptr max stop (.mark taken copy x, overlay m₀ ptr n a) →
    x % blkSz = 0 → x < 2 ^ 32 → (x / blkSz + j) % 2 ^ 20 = b → SetIn D m₀ ptr n b := by
  intro j
  induction j with
  | zero =>
    intro x a h hmod hx hb
    have hlt' : x < markLimit taken m₀ copy := by
      simp only [lastBlock, blkSz] at *
      omega
    have hself : x / blkSz = b := by
      simp only [blkSz] at *
      omega
    refine ⟨set a (x / blkSz), ?_, (h.next hptr hD hcopy hlt hx hlt').same⟩
    rw [isSet_set]
    exact .inl hself.symm
  | succ j ih =>
    intro x a h hmod hx hb
    have hlt' : x < markLimit taken m₀ copy := by
      simp only [lastBlock, blkSz] at *
      omega
    refine ih (h.next hptr hD hcopy hlt hx hlt') ?_ (Nat.mod_lt _ (by decide)) ?_
    · simp only [blkSz] at *
      omega
    · simp only [blkSz] at *
      omega

/-- Marking one range, by its limit. -/
theorem Keeps.markRange {lo : Nat} {a : BitArray} (hlo : lo < 2 ^ 32)
    (h : Keeps D m₀ ptr max stop (.mark taken copy (alignDownwards lo blkSz), overlay m₀ ptr n a)) :
    Follows D m₀ ptr n [(lo, markLimit taken m₀ copy)]
      (fun a' => Keeps D m₀ ptr max stop (afterMark max taken (overlay m₀ ptr n a') copy))
      (Pmm.markRange a lo (markLimit taken m₀ copy))
      (Ram.markRange ptr (overlay m₀ ptr n a) lo fun m => Ram.markLimit taken m copy) := by
  have halign : alignDownwards lo blkSz < 2 ^ 32 := by
    unfold alignDownwards
    omega
  have hmod : alignDownwards lo blkSz % blkSz = 0 := by
    simp only [alignDownwards, blkSz]
    omega
  by_cases hhi : markLimit taken m₀ copy ≤ lastBlock
  · obtain ⟨a', ha', hbits⟩ := Pmm.markRange_ok a lo hhi
    obtain ⟨hm, hafter⟩ := h.markLoop_ok hptr hD hcopy hlt halign ha' (show 2 ^ 20 + 1 ≤ 2 ^ 21 + 1 by decide)
    refine .inl ⟨a', ha', hm, hafter, fun r hr b hb => ⟨a', ?_, ?_⟩⟩
    · rw [List.mem_singleton.mp hr] at hb
      rcases hb with hmeets | ⟨hlast, _⟩
      · exact (hbits b).mpr (.inl hmeets)
      · exact absurd hhi (Nat.not_le.mpr hlast)
    · rw [← afterMark_snd max taken (overlay m₀ ptr n a') copy]
      exact hafter.same
  · have hwrap : lastBlock < markLimit taken m₀ copy := Nat.lt_of_not_le hhi
    refine .inr ⟨Pmm.markRange_diverges a hlo hwrap, h.markLoop_wrap hptr hD hcopy hlt hwrap hmod halign,
      fun b hb => h.setIn_wrap hptr hD hcopy hlt hwrap (j := b + 2 ^ 20 - alignDownwards lo blkSz / blkSz)
        hmod halign ?_⟩
    simp only [blkSz] at *
    omega

/-- The entry itself, behind the gap. -/
theorem Keeps.markTaken {a : BitArray}
    (h : Keeps D m₀ ptr max stop (afterGap max (overlay m₀ ptr n a) copy)) :
    let e := Ram.entryAt m₀ copy
    let top := (max + 2 ^ 32 - 1) % 2 ^ 32
    Follows D m₀ ptr n (if e.type ≠ 1 ∧ e.endL < top then [(e.baseAddrL.toNat, e.endL)] else [])
      (fun a' => Keeps D m₀ ptr max stop (.head (nextEntry m₀ copy) e.endL, overlay m₀ ptr n a'))
      (if e.type ≠ 1 ∧ e.endL < top then Pmm.markRange a e.baseAddrL.toNat e.endL else .ok a)
      (if e.type ≠ 1 ∧ e.endL < top then
        Ram.markRange ptr (overlay m₀ ptr n a) e.baseAddrL.toNat fun m => (Ram.entryAt m copy).endL
      else .ok (overlay m₀ ptr n a)) := by
  dsimp only
  have hsame : Same D m₀ (overlay m₀ ptr n a) := by
    rw [← afterMark_snd max false (overlay m₀ ptr n a) copy, afterMark_false]
    exact h.same
  obtain ⟨hentry, hnext⟩ := hsame.entryAt hD hcopy hlt
  rw [afterGap, hentry, hnext] at h
  split at h
  · rename_i hr
    rw [if_pos hr, if_pos hr, if_pos hr]
    refine (h.markRange hptr hD hcopy hlt (BitVec.isLt _)).imp_left ?_
    rintro ⟨a', h1, h2, h3, h4⟩
    have hsame' := h3.same
    rw [afterMark_snd] at hsame'
    obtain ⟨hentry', hnext'⟩ := hsame'.entryAt hD hcopy hlt
    rw [afterMark, if_pos rfl, hentry', hnext'] at h3
    exact ⟨a', h1, h2, h3, h4⟩
  · rename_i hr
    rw [if_neg hr, if_neg hr, if_neg hr]
    exact .inl ⟨a, rfl, rfl, h, fun r hr => absurd hr List.not_mem_nil⟩

/-- The gap before an entry. -/
theorem Keeps.markGap {expected : Nat} {a : BitArray} (hexp : expected < 2 ^ 32)
    (hbelow : (Ram.entryAt m₀ copy).baseAddrL.toNat < (max + 2 ^ 32 - 1) % 2 ^ 32)
    (h : Keeps D m₀ ptr max stop (.head copy expected, overlay m₀ ptr n a)) :
    let e := Ram.entryAt m₀ copy
    Follows D m₀ ptr n (if e.baseAddrL.toNat > expected then [(expected, e.baseAddrL.toNat)] else [])
      (fun a' => Keeps D m₀ ptr max stop (afterGap max (overlay m₀ ptr n a') copy))
      (if e.baseAddrL.toNat > expected then Pmm.markRange a expected e.baseAddrL.toNat else .ok a)
      (if e.baseAddrL.toNat > expected then
        Ram.markRange ptr (overlay m₀ ptr n a) expected fun m => (Ram.entryAt m copy).baseAddrL.toNat
      else .ok (overlay m₀ ptr n a)) := by
  dsimp only
  obtain ⟨hentry, _⟩ := h.same.entryAt hD hcopy hlt
  have hstep := @passStep_head ptr max stop copy expected (overlay m₀ ptr n a)
    ⟨hlt, by rw [hentry]; exact hbelow⟩
  have h := h.step hstep
  rw [hentry] at h
  split at h
  · rename_i hg
    rw [if_pos hg, if_pos hg, if_pos hg]
    refine (h.markRange hptr hD hcopy hlt hexp).imp_left ?_
    rintro ⟨a', h1, h2, h3, h4⟩
    rw [afterMark_false] at h3
    exact ⟨a', h1, h2, h3, h4⟩
  · rename_i hg
    rw [if_neg hg, if_neg hg, if_neg hg]
    exact .inl ⟨a, rfl, rfl, h, fun r hr => absurd hr List.not_mem_nil⟩

end Marking

theorem markedRanges_snd_lt {max : Nat} : ∀ {es : List MmapEntry} {x : Nat},
    ∀ r ∈ markedRanges max x es, r.2 < 2 ^ 32 := by
  intro es
  induction es with
  | nil => intro x r hr; cases hr
  | cons e es ih =>
    intro x r hr
    rw [markedRanges] at hr
    split at hr
    · rw [List.mem_append, List.mem_append] at hr
      rcases hr with (hr | hr) | hr
      · split at hr
        · rw [List.mem_singleton.mp hr]
          exact BitVec.isLt _
        · cases hr
      · split at hr
        · rw [List.mem_singleton.mp hr]
          exact e.endL_lt
        · cases hr
      · exact ih r hr
    · cases hr

/-- As long as the pass leaves the entries alone, it computes what it computes over a list of them, and
comes to every block of the ranges it marks. -/
theorem markWalk_same (hptr : ptr < 2 ^ 32) (hD : ∀ x, InEntry m₀ stop mmap x → D x) :
    ∀ {rest : List MmapEntry} {copy : Nat}, MapAt m₀ stop copy rest → ∀ {fuel expected : Nat}
      {a : BitArray}, Reaches (entryStep m₀ stop) mmap copy → expected < 2 ^ 32 → rest.length < fuel →
      Keeps D m₀ ptr max stop (.head copy expected, overlay m₀ ptr n a) →
        Covers (SetIn D m₀ ptr n) (markedRanges max expected rest) ∧
        markWalk ptr max stop fuel copy expected (overlay m₀ ptr n a) =
          (Pmm.markEntries max rest expected a).map (overlay m₀ ptr n) := by
  intro rest copy hrest
  induction hrest with
  | nil hstop =>
    intro fuel expected a _ _ hfuel _
    obtain ⟨f, rfl⟩ := Nat.exists_eq_succ_of_ne_zero (Nat.ne_of_gt hfuel)
    rw [markWalk, if_neg (by omega)]
    exact ⟨(fun r hr => absurd hr List.not_mem_nil), rfl⟩
  | @cons copy rest hlt _ ih =>
    intro fuel expected a hcopy hexp hfuel h
    obtain ⟨f, rfl⟩ := Nat.exists_eq_succ_of_ne_zero (Nat.ne_of_gt (Nat.zero_lt_of_lt hfuel))
    have hentry := (h.same.entryAt hD hcopy hlt).1
    have hall : (∀ b < 2 ^ 20, SetIn D m₀ ptr n b) →
        Covers (SetIn D m₀ ptr n) (markedRanges max expected (entryAt m₀ copy :: rest)) :=
      fun hset r hr b hb => hset b (hb.lt (markedRanges_snd_lt r hr))
    dsimp only at hentry
    rw [markWalk, hentry, Pmm.markEntries]
    by_cases hbelow : (entryAt m₀ copy).baseAddrL.toNat < (max + 2 ^ 32 - 1) % 2 ^ 32
    · rw [if_pos ⟨hlt, hbelow⟩, if_pos hbelow]
      rcases h.markGap hptr hD hcopy hlt hexp hbelow with ⟨a₁, hl₁, hr₁, h₁, hcov₁⟩ | ⟨hl₁, hr₁, hset⟩
      · have hsame₁ := h₁.same
        rw [← afterMark_false, afterMark_snd] at hsame₁
        rw [hl₁, hr₁, Machine.ok_bind, Machine.ok_bind, (hsame₁.entryAt hD hcopy hlt).1]
        rcases h₁.markTaken hptr hD hcopy hlt with ⟨a₂, hl₂, hr₂, h₂, hcov₂⟩ | ⟨hl₂, hr₂, hset⟩
        · have hsame₂ := h₂.same
          dsimp only at hsame₂
          obtain ⟨hentry₂, hnext₂⟩ := hsame₂.entryAt hD hcopy hlt
          obtain ⟨hcov₃, hwalk⟩ := ih (hcopy.tail (recordStep_eq_some.mpr ⟨hlt, rfl⟩))
            (MmapEntry.endL_lt _) (Nat.lt_of_succ_lt_succ hfuel) h₂
          rw [hl₂, hr₂, Machine.ok_bind, Machine.ok_bind, hentry₂, hnext₂, hwalk, markedRanges,
            if_pos hbelow]
          refine ⟨fun r hr => ?_, rfl⟩
          rcases List.mem_append.mp hr with hr | hr
          · rcases List.mem_append.mp hr with hr | hr
            · exact hcov₁ r hr
            · exact hcov₂ r hr
          · exact hcov₃ r hr
        · rw [hl₂, hr₂]
          exact ⟨hall hset, rfl⟩
      · rw [hl₁, hr₁]
        exact ⟨hall hset, rfl⟩
    · rw [if_neg fun hc => hbelow hc.2, if_neg hbelow, markedRanges, if_neg hbelow]
      exact ⟨(fun r hr => absurd hr List.not_mem_nil), rfl⟩

end Way

end Ram
end Frod
