import Mathlib.Data.List.Lex
import Frod.Boot.Model

/-!
# Frod.Str.Compare

`memcmp`, `strcmp` and `strncmp` of `lib/string.c`.

All three find the first place where the two sides differ, which for strings is `firstDiff`, and
return the difference of the two bytes there. `memcmp` takes it of `uint8_t`, the other two of plain
`char`, which is signed on this target. So they agree, and give the order on unsigned bytes, exactly
when the first two bytes that differ are both below 128 or both not (`oneOrder_iff`).
-/

namespace Frod
namespace Str

/-- The loop of `memcmp` at index `i`, with `n` bytes left. -/
def memcmpLoop (m : Mem) (ptr1 ptr2 : Nat) : Nat → Nat → Int
  | 0, _ => 0
  | n + 1, i =>
    if m ((ptr1 + i) % 2 ^ 32) ≠ m ((ptr2 + i) % 2 ^ 32) then
      (m ((ptr1 + i) % 2 ^ 32)).toNat - (m ((ptr2 + i) % 2 ^ 32)).toNat
    else memcmpLoop m ptr1 ptr2 n (i + 1)

def memcmp (m : Mem) (ptr1 ptr2 num : Nat) : Int :=
  if ptr1 = 0 ∨ ptr2 = 0 then 0xF00 else memcmpLoop m ptr1 ptr2 num 0

/-- The loop of `strcmp` at index `i`: the index it stops at. Nothing but addresses modulo `2^32`
depends on `i`. -/
def strcmpLoop (m : Mem) (str1 str2 : Nat) : Nat → Nat → Except Stop Nat
  | 0, _ => .error .diverges
  | fuel + 1, i =>
    if m ((str1 + i) % 2 ^ 32) = m ((str2 + i) % 2 ^ 32) ∧ m ((str1 + i) % 2 ^ 32) ≠ 0 then
      strcmpLoop m str1 str2 fuel (i + 1)
    else .ok i

def strcmp (fuel : Nat) (m : Mem) (str1 str2 : Nat) : Except Stop Int :=
  if str1 = 0 ∨ str2 = 0 then .ok 0xF00
  else
    match strcmpLoop m str1 str2 fuel 0 with
    | .error e => .error e
    | .ok i => .ok ((m ((str1 + i) % 2 ^ 32)).toInt - (m ((str2 + i) % 2 ^ 32)).toInt)

/-- The loop of `strncmp` at index `i`, with `n` characters left: the index it stops at. -/
def strncmpLoop (m : Mem) (str1 str2 : Nat) : Nat → Nat → Nat
  | 0, i => i
  | n + 1, i =>
    if m ((str1 + i) % 2 ^ 32) ≠ 0 ∧ m ((str1 + i) % 2 ^ 32) = m ((str2 + i) % 2 ^ 32) then
      strncmpLoop m str1 str2 n (i + 1)
    else i

def strncmp (m : Mem) (str1 str2 num : Nat) : Int :=
  if str1 = 0 ∨ str2 = 0 then 0xF00
  else if num = 0 then 0
  else
    let i := strncmpLoop m str1 str2 num 0
    if i ≥ num then 0 else (m ((str1 + i) % 2 ^ 32)).toInt - (m ((str2 + i) % 2 ^ 32)).toInt

/-- The string `s` stands at `a`, with its terminator. -/
def IsStr (m : Mem) : Nat → List Byte → Prop
  | a, [] => m (a % 2 ^ 32) = 0
  | a, c :: s => m (a % 2 ^ 32) = c ∧ c ≠ 0 ∧ IsStr m (a + 1) s

/-- The bytes at the first place where two strings differ, terminators included. -/
def firstDiff : List Byte → List Byte → Option (Byte × Byte)
  | [], [] => none
  | [], y :: _ => some (0, y)
  | x :: _, [] => some (x, 0)
  | x :: s, y :: t => if x = y then firstDiff s t else some (x, y)

/-- The difference of the two bytes as `char` and as `uint8_t`. -/
def charDiff : Option (Byte × Byte) → Int
  | none => 0
  | some (x, y) => x.toInt - y.toInt

def byteDiff : Option (Byte × Byte) → Int
  | none => 0
  | some (x, y) => x.toNat - y.toNat

/-- The three functions agree on one order of the strings `s` and `t`, which are at `a` and `b`:
`strcmp` on the strings, `strncmp` with `strcmp` on the strings cut to `num` characters, wherever
these stand, and both with `memcmp`. -/
structure OneOrder (m : Mem) (a b : Nat) (s t : List Byte) (num : Nat) : Prop where
  order : ∃ fuel r, strcmp fuel m a b = .ok r ∧ (r = 0 ↔ s = t) ∧ (r < 0 ↔ s < t) ∧ (0 < r ↔ t < s)
  cut : ∀ m' a' b', a' ≠ 0 → b' ≠ 0 → IsStr m' a' (s.take num) → IsStr m' b' (t.take num) →
    ∃ fuel r, strcmp fuel m' a' b' = .ok r ∧ (strncmp m a b num).sign = r.sign ∧
      r.sign = (memcmp m a b (min num (min s.length t.length + 1))).sign
  buffer : (strncmp m a b num).sign = (memcmp m a b (min num (min s.length t.length + 1))).sign
  noError : (∀ fuel, strcmp fuel m a b ≠ .ok 0xF00) ∧ strncmp m a b num ≠ 0xF00 ∧
    ∀ k, memcmp m a b k ≠ 0xF00

/-! ## The first difference -/

theorem firstDiff_ne : ∀ {s t : List Byte} {x y : Byte}, 0 ∉ s → 0 ∉ t → firstDiff s t = some (x, y) →
    x ≠ y := by
  intro s
  induction s with
  | nil =>
    intro t x y _ ht h
    cases t with
    | nil => cases h
    | cons c t =>
      cases h
      exact fun h0 => ht (h0 ▸ List.mem_cons_self)
  | cons d s ih =>
    intro t x y hs ht h
    cases t with
    | nil =>
      cases h
      exact fun h0 => hs (h0 ▸ List.mem_cons_self)
    | cons c t =>
      rw [firstDiff] at h
      split at h
      · exact ih (fun h0 => hs (List.mem_cons_of_mem _ h0)) (fun h0 => ht (List.mem_cons_of_mem _ h0)) h
      · rename_i hne
        cases h
        exact hne

theorem firstDiff_eq_none : ∀ {s t : List Byte}, firstDiff s t = none ↔ s = t := by
  intro s
  induction s with
  | nil => intro t; cases t <;> simp [firstDiff]
  | cons d s ih =>
    intro t
    cases t with
    | nil => simp [firstDiff]
    | cons c t =>
      rw [firstDiff]
      split
      · rename_i hdc
        rw [ih, hdc, List.cons.injEq]
        exact ⟨fun h => ⟨rfl, h⟩, fun h => h.2⟩
      · rename_i hne
        exact ⟨nofun, fun h => absurd (List.cons.inj h).1 hne⟩

theorem firstDiff_swap : ∀ (s t : List Byte), firstDiff t s = (firstDiff s t).map Prod.swap := by
  intro s
  induction s with
  | nil => intro t; cases t <;> rfl
  | cons d s ih =>
    intro t
    cases t with
    | nil => rfl
    | cons c t =>
      rw [firstDiff, firstDiff, ih]
      by_cases h : d = c
      · rw [if_pos h, if_pos h.symm]
      · rw [if_neg h, if_neg (Ne.symm h)]
        rfl

/-- The order of two strings is that of the first bytes that differ. -/
theorem lt_iff_firstDiff : ∀ {s t : List Byte}, 0 ∉ t →
    (s < t ↔ ∃ x y, firstDiff s t = some (x, y) ∧ x < y) := by
  intro s
  induction s with
  | nil =>
    intro t ht
    cases t with
    | nil => simp [firstDiff]
    | cons c t =>
      have hne : c ≠ 0 := fun h0 => ht (h0 ▸ List.mem_cons_self)
      have hc : (0 : Byte) < c := by bv_omega
      exact ⟨fun _ => ⟨0, c, rfl, hc⟩, fun _ => List.nil_lt_cons c t⟩
  | cons d s ih =>
    intro t ht
    cases t with
    | nil =>
      refine ⟨fun h => absurd h (List.not_lt_nil _), ?_⟩
      rintro ⟨x, y, h, hlt⟩
      cases h
      exact absurd hlt (by simp)
    | cons c t =>
      rw [List.cons_lt_cons_iff, firstDiff]
      by_cases hdc : d = c
      · subst hdc
        rw [if_pos rfl, ← ih fun h0 => ht (List.mem_cons_of_mem _ h0)]
        simp [BitVec.lt_irrefl]
      · rw [if_neg hdc]
        simp [hdc]

/-- Cut strings differ where the strings do, if the place is not cut off. -/
theorem firstDiff_take : ∀ {n : Nat} {s t : List Byte} {p : Byte × Byte},
    firstDiff (s.take n) (t.take n) = some p → firstDiff s t = some p := by
  intro n
  induction n with
  | zero => intro s t p h; cases h
  | succ n ih =>
    intro s t p h
    cases s with
    | nil =>
      cases t with
      | nil => cases h
      | cons c t => exact h
    | cons d s =>
      cases t with
      | nil => exact h
      | cons c t =>
        rw [List.take_succ_cons, List.take_succ_cons, firstDiff] at h
        rw [firstDiff]
        split
        · rename_i hdc
          rw [if_pos hdc] at h
          exact ih h
        · rename_i hdc
          rw [if_neg hdc] at h
          exact h

/-! ## The three functions by the first difference -/

section Functions

variable {m : Mem} {a b : Nat} {s t : List Byte}

theorem IsStr.zero_notMem : ∀ {s : List Byte} {a : Nat}, IsStr m a s → 0 ∉ s := by
  intro s
  induction s with
  | nil => intro a _ h; cases h
  | cons c s ih =>
    rintro a ⟨_, hc, hs⟩ h
    rcases List.mem_cons.mp h with h | h
    · exact hc h.symm
    · exact ih hs h

/-- Where the comparison of two strings cannot stop they have the same character. -/
theorem IsStr.common (hs : IsStr m a s) (ht : IsStr m b t)
    (heq : m (a % 2 ^ 32) = m (b % 2 ^ 32)) (hne : m (a % 2 ^ 32) ≠ 0) :
    ∃ x s' t', s = x :: s' ∧ t = x :: t' ∧ IsStr m (a + 1) s' ∧ IsStr m (b + 1) t' := by
  cases s with
  | nil => exact absurd hs hne
  | cons x s =>
    cases t with
    | nil => exact absurd (heq.trans ht) hne
    | cons y t =>
      obtain rfl : x = y := hs.1.symm.trans (heq.trans ht.1)
      exact ⟨x, s, t, rfl, rfl, hs.2.2, ht.2.2⟩

/-- Where it stops it has come to the first difference. -/
theorem IsStr.stop (hs : IsStr m a s) (ht : IsStr m b t)
    (hstop : ¬ (m (a % 2 ^ 32) = m (b % 2 ^ 32) ∧ m (a % 2 ^ 32) ≠ 0)) (n : Nat) :
    (m (a % 2 ^ 32)).toInt - (m (b % 2 ^ 32)).toInt =
      charDiff (firstDiff (s.take (n + 1)) (t.take (n + 1))) := by
  cases s with
  | nil =>
    have hzero : m (a % 2 ^ 32) = 0 := hs
    cases t with
    | nil =>
      have hzero' : m (b % 2 ^ 32) = 0 := ht
      rw [hzero, hzero']
      rfl
    | cons y t =>
      rw [hzero, ht.1]
      rfl
  | cons x s =>
    cases t with
    | nil =>
      have hzero : m (b % 2 ^ 32) = 0 := ht
      rw [hs.1, hzero]
      rfl
    | cons y t =>
      rw [hs.1, ht.1] at hstop ⊢
      rw [List.take_succ_cons, List.take_succ_cons, firstDiff,
        if_neg fun hxy => hstop ⟨hxy, hs.2.1⟩]
      rfl

theorem strcmpLoop_eq : ∀ {fuel i : Nat} {s t : List Byte}, IsStr m (a + i) s → IsStr m (b + i) t →
    (s.length < fuel → ∃ j, strcmpLoop m a b fuel i = .ok j) ∧
    ∀ j, strcmpLoop m a b fuel i = .ok j →
      (m ((a + j) % 2 ^ 32)).toInt - (m ((b + j) % 2 ^ 32)).toInt = charDiff (firstDiff s t) := by
  intro fuel
  induction fuel with
  | zero => intro i s t _ _; exact ⟨fun h => absurd h (Nat.not_lt_zero _), nofun⟩
  | succ fuel ih =>
    intro i s t hs ht
    rw [strcmpLoop]
    split
    · rename_i hgo
      obtain ⟨x, s', t', rfl, rfl, hs', ht'⟩ := hs.common ht hgo.1 hgo.2
      obtain ⟨hok, hall⟩ := ih (i := i + 1) hs' ht'
      rw [firstDiff, if_pos rfl]
      exact ⟨fun hlt => hok (Nat.lt_of_succ_lt_succ hlt), hall⟩
    · rename_i hstop
      refine ⟨fun _ => ⟨i, rfl⟩, fun j hj => ?_⟩
      cases hj
      have hdiff := hs.stop ht hstop (s.length + t.length)
      rwa [List.take_of_length_le (by omega), List.take_of_length_le (by omega)] at hdiff

/-- `strcmp` of strings returns, and all it returns is the difference of two characters. -/
theorem strcmp_eq (ha : a ≠ 0) (hb : b ≠ 0) (hs : IsStr m a s) (ht : IsStr m b t) :
    strcmp (s.length + 1) m a b = .ok (charDiff (firstDiff s t)) ∧
    ∀ fuel r, strcmp fuel m a b = .ok r → r = charDiff (firstDiff s t) := by
  have hall : ∀ fuel r, strcmp fuel m a b = .ok r → r = charDiff (firstDiff s t) := by
    intro fuel r h
    rw [strcmp, if_neg (not_or.mpr ⟨ha, hb⟩)] at h
    split at h
    · cases h
    · rename_i j hj
      cases h
      exact (strcmpLoop_eq (i := 0) hs ht).2 j hj
  obtain ⟨j, hj⟩ := (strcmpLoop_eq (i := 0) hs ht).1 (Nat.lt_succ_self s.length)
  refine ⟨?_, hall⟩
  have hok : strcmp (s.length + 1) m a b =
      .ok ((m ((a + j) % 2 ^ 32)).toInt - (m ((b + j) % 2 ^ 32)).toInt) := by
    rw [strcmp, if_neg (not_or.mpr ⟨ha, hb⟩), hj]
  rw [hok, hall _ _ hok]

theorem strncmpLoop_eq : ∀ {n : Nat} {s t : List Byte} {i : Nat}, IsStr m (a + i) s →
    IsStr m (b + i) t → (strncmpLoop m a b n i = i + n ∧ firstDiff (s.take n) (t.take n) = none) ∨
    (strncmpLoop m a b n i < i + n ∧
      (m ((a + strncmpLoop m a b n i) % 2 ^ 32)).toInt -
        (m ((b + strncmpLoop m a b n i) % 2 ^ 32)).toInt =
          charDiff (firstDiff (s.take n) (t.take n))) := by
  intro n
  induction n with
  | zero => intro s t i _ _; exact .inl ⟨rfl, rfl⟩
  | succ n ih =>
    intro s t i hs ht
    rw [strncmpLoop]
    split
    · rename_i hgo
      obtain ⟨x, s', t', rfl, rfl, hs', ht'⟩ := hs.common ht hgo.2 hgo.1
      rw [List.take_succ_cons, List.take_succ_cons, firstDiff, if_pos rfl, ← Nat.add_assoc,
        Nat.add_right_comm]
      exact ih (i := i + 1) hs' ht'
    · rename_i hstop
      refine .inr ⟨by omega, ?_⟩
      exact hs.stop ht (fun h => hstop ⟨h.2, h.1⟩) n

theorem strncmp_eq (ha : a ≠ 0) (hb : b ≠ 0) (hs : IsStr m a s) (ht : IsStr m b t) (num : Nat) :
    strncmp m a b num = charDiff (firstDiff (s.take num) (t.take num)) := by
  rw [strncmp, if_neg (not_or.mpr ⟨ha, hb⟩)]
  cases num with
  | zero => rfl
  | succ num =>
    rw [if_neg (Nat.succ_ne_zero num)]
    dsimp only
    rcases strncmpLoop_eq (n := num + 1) (i := 0) hs ht with ⟨hi, hnone⟩ | ⟨hi, hdiff⟩
    · rw [hnone, if_pos (by omega)]
      rfl
    · rw [if_neg (by omega), hdiff]

theorem memcmpLoop_eq : ∀ {n : Nat} {s t : List Byte} {i : Nat}, IsStr m (a + i) s → IsStr m (b + i) t →
    memcmpLoop m a b (min n (min s.length t.length + 1)) i =
      byteDiff (firstDiff (s.take n) (t.take n)) := by
  intro n
  induction n with
  | zero =>
    intro s t i _ _
    rw [Nat.zero_min]
    rfl
  | succ n ih =>
    intro s t i hs ht
    rw [Nat.succ_min_succ, memcmpLoop]
    cases s with
    | nil =>
      have hzero : m ((a + i) % 2 ^ 32) = 0 := hs
      cases t with
      | nil =>
        have hzero' : m ((b + i) % 2 ^ 32) = 0 := ht
        rw [hzero, hzero', if_neg (not_not.mpr rfl)]
        simp [memcmpLoop, firstDiff, byteDiff]
      | cons y t =>
        rw [hzero, ht.1, if_pos (Ne.symm ht.2.1)]
        rfl
    | cons x s =>
      cases t with
      | nil =>
        have hzero : m ((b + i) % 2 ^ 32) = 0 := ht
        rw [hs.1, hzero, if_pos hs.2.1]
        rfl
      | cons y t =>
        rw [hs.1, ht.1, List.take_succ_cons, List.take_succ_cons, firstDiff]
        by_cases hxy : x = y
        · rw [if_neg (not_not.mpr hxy), if_pos hxy, List.length_cons, List.length_cons,
            Nat.add_min_add_right]
          exact ih hs.2.2 ht.2.2
        · rw [if_pos hxy, if_neg hxy]
          rfl

theorem memcmp_eq (ha : a ≠ 0) (hb : b ≠ 0) (hs : IsStr m a s) (ht : IsStr m b t) (num : Nat) :
    memcmp m a b (min num (min s.length t.length + 1)) =
      byteDiff (firstDiff (s.take num) (t.take num)) := by
  rw [memcmp, if_neg (not_or.mpr ⟨ha, hb⟩)]
  exact memcmpLoop_eq (i := 0) hs ht

end Functions

/-! ## One order -/

/-- The first bytes that differ are both below 128, or both not. -/
def SameHalf (s t : List Byte) : Prop :=
  ∀ x y, firstDiff s t = some (x, y) → (x.toNat < 128 ↔ y.toNat < 128)

theorem charDiff_bounds (p : Option (Byte × Byte)) : -256 < charDiff p ∧ charDiff p < 256 := by
  cases p with
  | none => decide
  | some p =>
    have h1 := BitVec.le_toInt p.1
    have h2 := BitVec.toInt_lt (x := p.1)
    have h3 := BitVec.le_toInt p.2
    have h4 := BitVec.toInt_lt (x := p.2)
    rw [charDiff]
    omega

/-- Signed and unsigned bytes have the same order in each half. -/
theorem sign_charDiff {p : Option (Byte × Byte)}
    (h : ∀ x y, p = some (x, y) → (x.toNat < 128 ↔ y.toNat < 128)) :
    (charDiff p).sign = (byteDiff p).sign := by
  cases p with
  | none => rfl
  | some p =>
    obtain ⟨x, y⟩ := p
    have hhalf := h x y rfl
    have hdiff : charDiff (some (x, y)) = byteDiff (some (x, y)) := by
      rw [charDiff, byteDiff, BitVec.toInt_eq_toNat_cond, BitVec.toInt_eq_toNat_cond]
      split <;> split <;> omega
    rw [hdiff]

theorem memcmpLoop_bounds (m : Mem) (a b : Nat) : ∀ n i, memcmpLoop m a b n i < 256 := by
  intro n
  induction n with
  | zero => intro i; rw [memcmpLoop]; decide
  | succ n ih =>
    intro i
    rw [memcmpLoop]
    split
    · have h1 := (m ((a + i) % 2 ^ 32)).isLt
      omega
    · exact ih (i + 1)

theorem toInt_order_iff {x y : Byte} (hne : x ≠ y) :
    ((x.toInt - y.toInt < 0 ↔ x < y) ∧ (0 < x.toInt - y.toInt ↔ y < x)) ↔
      (x.toNat < 128 ↔ y.toNat < 128) := by
  have hne' : x.toNat ≠ y.toNat := fun h => hne (BitVec.eq_of_toNat_eq h)
  have hx := x.isLt
  have hy := y.isLt
  rw [BitVec.lt_def, BitVec.lt_def, BitVec.toInt_eq_toNat_cond, BitVec.toInt_eq_toNat_cond]
  split <;> split <;> omega

/-- The sign of `strcmp` is that of the order on unsigned bytes exactly when the first bytes that
differ are in the same half. -/
theorem charDiff_order_iff {s t : List Byte} (hs : 0 ∉ s) (ht : 0 ∉ t) :
    ((charDiff (firstDiff s t) < 0 ↔ s < t) ∧ (0 < charDiff (firstDiff s t) ↔ t < s)) ↔ SameHalf s t := by
  rw [lt_iff_firstDiff ht, lt_iff_firstDiff hs, firstDiff_swap s t, SameHalf]
  cases hd : firstDiff s t with
  | none => simp [charDiff]
  | some p =>
    obtain ⟨x, y⟩ := p
    simpa [charDiff] using toInt_order_iff (firstDiff_ne hs ht hd)

theorem charDiff_eq_zero {s t : List Byte} (hs : 0 ∉ s) (ht : 0 ∉ t) :
    charDiff (firstDiff s t) = 0 ↔ s = t := by
  rw [← firstDiff_eq_none]
  cases hd : firstDiff s t with
  | none => exact ⟨fun _ => rfl, fun _ => rfl⟩
  | some p =>
    obtain ⟨x, y⟩ := p
    have hne : x.toInt ≠ y.toInt := fun h => firstDiff_ne hs ht hd (BitVec.eq_of_toInt_eq h)
    refine ⟨fun h => ?_, nofun⟩
    rw [charDiff] at h
    omega

theorem OneOrder.sameHalf {m : Mem} {a b num : Nat} {s t : List Byte} (h : OneOrder m a b s t num)
    (ha : a ≠ 0) (hb : b ≠ 0) (hs : IsStr m a s) (ht : IsStr m b t) : SameHalf s t := by
  obtain ⟨fuel, r, hr, _, hlt, hgt⟩ := h.order
  rw [(strcmp_eq ha hb hs ht).2 fuel r hr] at hlt hgt
  exact (charDiff_order_iff hs.zero_notMem ht.zero_notMem).mp ⟨hlt, hgt⟩

/-- `strcmp`, `strncmp` and `memcmp` agree on the order of unsigned bytes exactly when the first bytes
that differ are both below 128 or both not. -/
theorem oneOrder_iff {m : Mem} {a b : Nat} {s t : List Byte} (num : Nat) (ha : a ≠ 0) (hb : b ≠ 0)
    (hs : IsStr m a s) (ht : IsStr m b t) : OneOrder m a b s t num ↔ SameHalf s t := by
  obtain ⟨hok, hall⟩ := strcmp_eq ha hb hs ht
  refine ⟨fun h => h.sameHalf ha hb hs ht, fun hhalf => ?_⟩
  have horder := (charDiff_order_iff hs.zero_notMem ht.zero_notMem).mpr hhalf
  have hzero := charDiff_eq_zero hs.zero_notMem ht.zero_notMem
  have hsign : (charDiff (firstDiff (s.take num) (t.take num))).sign =
      (byteDiff (firstDiff (s.take num) (t.take num))).sign :=
    sign_charDiff fun x y h => hhalf x y (firstDiff_take h)
  refine ⟨⟨_, _, hok, hzero, horder⟩, fun m' a' b' ha' hb' hs' ht' => ?_, ?_, ?_, ?_, ?_⟩
  · refine ⟨_, _, (strcmp_eq ha' hb' hs' ht').1, ?_, ?_⟩
    · rw [strncmp_eq ha hb hs ht]
    · rw [memcmp_eq ha hb hs ht, hsign]
  · rw [strncmp_eq ha hb hs ht, memcmp_eq ha hb hs ht, hsign]
  · intro fuel h
    have hbound := charDiff_bounds (firstDiff s t)
    rw [← hall fuel _ h] at hbound
    exact absurd hbound.2 (by decide)
  · have hbound := charDiff_bounds (firstDiff (s.take num) (t.take num))
    rw [strncmp_eq ha hb hs ht]
    omega
  · intro k
    have hbound := memcmpLoop_bounds m a b k 0
    rw [memcmp, if_neg (not_or.mpr ⟨ha, hb⟩)]
    omega

/-- The strings of one character `x` and `y` at 0x100 and 0x200. -/
def twoStrings (x y : Byte) : Mem := fun a => if a = 0x100 then x else if a = 0x200 then y else 0

theorem oneOrder_iff_letters : OneOrder (twoStrings 0x61 0x62) 0x100 0x200 [0x61] [0x62] 1 := by
  have hs : IsStr (twoStrings 0x61 0x62) 0x100 [0x61] := ⟨rfl, by decide, rfl⟩
  have ht : IsStr (twoStrings 0x61 0x62) 0x200 [0x62] := ⟨rfl, by decide, rfl⟩
  refine (oneOrder_iff 1 (by decide) (by decide) hs ht).mpr fun x y h => ?_
  cases h
  decide

/-- A byte above 127 comes after 1, but `strcmp` puts it in front. -/
theorem not_oneOrder_high : IsStr (twoStrings 0x80 0x01) 0x100 [0x80] ∧
    IsStr (twoStrings 0x80 0x01) 0x200 [0x01] ∧
    ¬ OneOrder (twoStrings 0x80 0x01) 0x100 0x200 [0x80] [0x01] 1 := by
  have hs : IsStr (twoStrings 0x80 0x01) 0x100 [0x80] := ⟨rfl, by decide, rfl⟩
  have ht : IsStr (twoStrings 0x80 0x01) 0x200 [0x01] := ⟨rfl, by decide, rfl⟩
  refine ⟨hs, ht, fun h => ?_⟩
  have hhalf := h.sameHalf (by decide) (by decide) hs ht 0x80 0x01 rfl
  exact absurd hhalf (by decide)

end Str
end Frod
