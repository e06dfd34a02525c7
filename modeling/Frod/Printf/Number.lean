import Mathlib.Data.Nat.Digits.Lemmas
import Frod.Printf.Emit

/-!
# Frod.Printf.Number

Numbers in `do_printf`.

The digits are written from the end of `buf` towards its beginning. A 32-bit number has 11 digits
in base 8 and fewer in the others, so the 15 bytes in front of the terminator are enough
(`digitsLoop_eq`, `numeral_length`). `readNumber` reads a field back as C's `strtol` would, and
`readNumber_show` is the round trip, for every width, flag and value.
-/

namespace Frod
namespace Printf

variable {σ ε : Type} {K : Sink σ ε}

theorem digit_ne_zero : ∀ (ca : Bool) {d : Nat}, d < 16 → digit ca d ≠ 0 := by
  decide

/-- The last digit comes off the end. -/
theorem digitsOf_eq {radix : Nat} (hr : 1 < radix) (n : Nat) :
    digitsOf radix n = (if n / radix = 0 then [] else digitsOf radix (n / radix)) ++ [n % radix] := by
  by_cases hn : n = 0
  · subst hn
    rw [digitsOf, if_pos rfl, Nat.zero_div, if_pos rfl, Nat.zero_mod, List.nil_append]
  · rw [digitsOf, if_neg hn, Nat.digits_def' hr (Nat.pos_of_ne_zero hn), List.reverse_cons]
    congr 1
    by_cases hq : n / radix = 0
    · rw [if_pos hq, hq, Nat.digits_zero, List.reverse_nil]
    · rw [if_neg hq, digitsOf, if_neg hq]

theorem numeral_eq {radix : Nat} (hr : 1 < radix) (ca : Bool) (n : Nat) :
    numeral radix ca n =
      (if n / radix = 0 then [] else numeral radix ca (n / radix)) ++ [digit ca (n % radix)] := by
  rw [numeral, digitsOf_eq hr, List.map_append]
  congr 1
  split
  · rfl
  · rfl

theorem digitsOf_lt {radix : Nat} (hr : 1 < radix) (n : Nat) : ∀ d ∈ digitsOf radix n, d < radix := by
  intro d hd
  rw [digitsOf] at hd
  split at hd
  · rw [List.mem_singleton] at hd
    omega
  · exact Nat.digits_lt_base hr (List.mem_reverse.mp hd)

theorem numeral_length {radix : Nat} (hr : 8 ≤ radix) (ca : Bool) {n : Nat} (hn : n < 2 ^ 32) :
    (numeral radix ca n).length ≤ 11 := by
  rw [numeral, List.length_map, digitsOf]
  split
  · exact Nat.le_add_left 1 10
  · rw [List.length_reverse, Nat.digits_length_le_iff (by omega)]
    calc n < 2 ^ 32 := hn
      _ ≤ 8 ^ 11 := by decide
      _ ≤ radix ^ 11 := Nat.pow_le_pow_left hr 11

/-! ## The buffer -/

theorem isText_buf_congr {m : Mem} {b b' : Nat → Byte} : ∀ {t : List Byte} {i : Nat},
    (∀ j, i ≤ j → b' j = b j) → (Where.buf b i).IsText m t → (Where.buf b' i).IsText m t := by
  intro t
  induction t with
  | nil => intro i h ht; exact (h i (Nat.le_refl i)).trans ht
  | cons c t ih =>
    intro i h ht
    exact ⟨(h i (Nat.le_refl i)).trans ht.1, ht.2.1, ih (fun j hj => h j (by omega)) ht.2.2⟩

theorem digitsLoop_eq {radix : Nat} (hr : 1 < radix) (hr16 : radix ≤ 16) (ca : Bool) (m : Mem) :
    ∀ {w n : Nat} {t : List Byte} {buf : Nat → Byte}, (numeral radix ca n).length ≤ w →
      (Where.buf buf w).IsText m t → ∃ i buf',
        digitsLoop radix ca w n buf = (.ok (i, buf') : Except (Halt ε) (Nat × (Nat → Byte))) ∧
        (Where.buf buf' i).IsText m (numeral radix ca n ++ t) := by
  intro w
  induction w with
  | zero =>
    intro n t buf hlen _
    rw [numeral_eq hr, List.length_append] at hlen
    exact absurd hlen (Nat.not_succ_le_zero _)
  | succ w ih =>
    intro n t buf hlen ht
    have hlt : n % radix < 16 := Nat.lt_of_lt_of_le (Nat.mod_lt n (by omega)) hr16
    have hlast : (Where.buf (Function.update buf w (digit ca (n % radix))) w).IsText m
        (digit ca (n % radix) :: t) := by
      refine ⟨Function.update_self _ _ _, digit_ne_zero ca hlt, isText_buf_congr (fun j hj => ?_) ht⟩
      exact Function.update_of_ne (by omega) _ _
    rw [numeral_eq hr, List.length_append, List.length_singleton] at hlen
    rw [digitsLoop, numeral_eq hr]
    by_cases hq : n / radix = 0
    · rw [if_neg (not_not.mpr hq), if_pos hq]
      exact ⟨w, _, rfl, hlast⟩
    · rw [if_neg hq] at hlen
      rw [if_pos hq, if_neg hq, List.append_assoc]
      exact ih (by omega) hlast

theorem isText_buf {m : Mem} {b : Nat → Byte} (m' : Mem) : ∀ {t : List Byte} {i : Nat},
    (Where.buf b i).IsText m t → (Where.buf b i).IsText m' t := by
  intro t
  induction t with
  | nil => intro i h; exact h
  | cons c t ih => intro i h; exact ⟨h.1, h.2.1, ih h.2.2⟩

theorem doNum_eq {radix fuel : Nat} {s : St σ} {str : Word → List Byte} {b : Body} (hr : 8 ≤ radix)
    (hr16 : radix ≤ 16) (hws : s.flags.ws = false)
    (hb : b = (Conv.number radix s.flags.ca s.flags.sg).body str (s.args 0))
    (hf : b.text.length < fuel) :
    s.doNum K fuel radix = wrote K (b.fill s.flags.lj s.flags.lz s.givenWd) s
      { s with
        args := fun i => s.args (i + 1)
        flags := { s.flags with ws := b.sign }
        givenWd := 0 } := by
  have hlen : b.text.length ≤ 11 := by
    rw [hb]
    exact numeral_length hr _ (BitVec.isLt _)
  have hbuf : (Where.buf (Function.update (fun _ => 0) (prBuflen - 1) 0) (prBuflen - 1)).IsText
      (K.mem s.out) [] := by simp [Where.IsText, Where.get]
  obtain ⟨i, buf, hloop, htext⟩ := digitsLoop_eq (ε := ε) (by omega) hr16 s.flags.ca (K.mem s.out)
    (n := (if s.flags.sg && (s.args 0).slt 0 then -(s.args 0) else s.args 0).toNat)
    (Nat.le_trans (numeral_length hr _ (BitVec.isLt _)) (by decide)) hbuf
  rw [List.append_nil] at htext
  have hneg : ∀ c : Bool, (if c then
      { s with args := fun i => s.args (i + 1), flags := { s.flags with ws := true } }
      else { s with args := fun i => s.args (i + 1) }) =
      { s with args := fun i => s.args (i + 1), flags := { s.flags with ws := c } } := by
    intro c
    cases c with
    | true => rfl
    | false =>
      rw [if_neg Bool.false_ne_true]
      congr 1
      rw [← hws]
  rw [St.doNum, St.vaArg]
  simp only [hneg, hloop, Machine.ok_bind]
  refine (emit_eq (b := b) (by rw [hb]; rfl) ?_ hf (by rw [hb]; rfl) ?_).trans ?_
  · intro u v _ o _
    rw [hb]
    exact isText_buf _ htext
  · have hblen : b.len = b.text.length := by rw [hb]; rfl
    intro _
    omega
  · rw [hb]
    rfl

/-! ## Reading a number back -/

/-- The value of a digit. -/
def digitValue (c : Byte) : Option Nat :=
  if 0x30 ≤ c.toNat ∧ c.toNat ≤ 0x39 then some (c.toNat - 0x30)
  else if 0x41 ≤ c.toNat ∧ c.toNat ≤ 0x46 then some (c.toNat - 0x41 + 10)
  else if 0x61 ≤ c.toNat ∧ c.toNat ≤ 0x66 then some (c.toNat - 0x61 + 10)
  else none

/-- The digits in front, behind a number `n` that was read already. -/
def readDigits (radix : Nat) : Nat → List Byte → Nat
  | n, [] => n
  | n, c :: cs =>
    match digitValue c with
    | some d => readDigits radix (radix * n + d) cs
    | none => n

/-- Blanks, a sign and digits. -/
def readNumber (radix : Nat) : List Byte → Int
  | [] => 0
  | c :: cs =>
    if c = ch ' ' then readNumber radix cs
    else if c = ch '-' then -(readDigits radix 0 cs : Int)
    else readDigits radix 0 (c :: cs)

theorem digitValue_digit : ∀ (ca : Bool) {d : Nat}, d < 16 → digitValue (digit ca d) = some d := by
  decide

theorem digit_ne : ∀ (ca : Bool) {d : Nat}, d < 16 → digit ca d ≠ ch ' ' ∧ digit ca d ≠ ch '-' := by
  decide

theorem readDigits_append (radix : Nat) (ca : Bool) (cs : List Byte) : ∀ {ds : List Nat} {n : Nat},
    (∀ d ∈ ds, d < 16) → readDigits radix n (ds.map (digit ca) ++ cs) =
      readDigits radix (ds.foldl (fun n d => radix * n + d) n) cs := by
  intro ds
  induction ds with
  | nil => intro n _; rfl
  | cons d ds ih =>
    intro n h
    rw [List.map_cons, List.cons_append, readDigits, digitValue_digit ca (h d (by simp))]
    exact ih fun d' hd' => h d' (by simp [hd'])

theorem readDigits_blanks (radix n k : Nat) : readDigits radix n (List.replicate k (ch ' ')) = n := by
  cases k with
  | zero => rfl
  | succ k => rfl

theorem readDigits_zeroes (radix k : Nat) (cs : List Byte) :
    readDigits radix 0 (List.replicate k (ch '0') ++ cs) = readDigits radix 0 cs := by
  induction k with
  | zero => rfl
  | succ k ih =>
    rw [List.replicate_succ, List.cons_append, readDigits,
      show digitValue (ch '0') = some 0 by decide]
    exact ih

theorem readNumber_blanks (radix k : Nat) (cs : List Byte) :
    readNumber radix (List.replicate k (ch ' ') ++ cs) = readNumber radix cs := by
  induction k with
  | zero => rfl
  | succ k ih => rw [List.replicate_succ, List.cons_append, readNumber, if_pos rfl, ih]

/-- The value of the digits of a number. -/
theorem foldl_digitsOf (radix n : Nat) :
    (digitsOf radix n).foldl (fun n d => radix * n + d) 0 = n := by
  rw [digitsOf]
  split
  · rename_i hn
    exact hn.symm
  · conv_rhs => rw [← Nat.ofDigits_digits radix n, Nat.ofDigits_eq_foldr]
    rw [List.foldl_reverse]
    congr 1
    funext d n
    exact Nat.add_comm _ _

/-- A numeral reads back as its number, whatever blanks follow. -/
theorem readDigits_numeral {radix : Nat} (hr : 1 < radix) (hr16 : radix ≤ 16) (ca : Bool) (n k : Nat) :
    readDigits radix 0 (numeral radix ca n ++ List.replicate k (ch ' ')) = n := by
  have hlt : ∀ d ∈ digitsOf radix n, d < 16 :=
    fun d hd => Nat.lt_of_lt_of_le (digitsOf_lt hr n d hd) hr16
  rw [numeral, readDigits_append _ _ _ hlt, readDigits_blanks, foldl_digitsOf]

/-- In front of a digit there is nothing to skip. -/
theorem readNumber_numeral {radix : Nat} (hr : 1 < radix) (hr16 : radix ≤ 16) (ca : Bool)
    (n z k : Nat) : readNumber radix (List.replicate z (ch '0') ++ (numeral radix ca n ++
      List.replicate k (ch ' '))) = n := by
  have hread : readDigits radix 0 (List.replicate z (ch '0') ++ (numeral radix ca n ++
      List.replicate k (ch ' '))) = n := by
    rw [readDigits_zeroes, readDigits_numeral hr hr16]
  have hcons : ∀ {d : Nat} {cs : List Byte}, d < 16 →
      readNumber radix (digit ca d :: cs) = readDigits radix 0 (digit ca d :: cs) := by
    intro d cs hd
    rw [readNumber, if_neg (digit_ne ca hd).1, if_neg (digit_ne ca hd).2]
  conv_rhs => rw [← hread]
  cases z with
  | succ z => exact hcons (d := 0) (by decide)
  | zero =>
    cases hds : digitsOf radix n with
    | nil =>
      rw [digitsOf_eq hr] at hds
      exact absurd hds (by simp)
    | cons d ds =>
      have hd : d < radix := digitsOf_lt hr n d (by rw [hds]; simp)
      rw [numeral, hds, List.replicate_zero, List.nil_append, List.map_cons, List.cons_append]
      exact hcons (by omega)

theorem readNumber_sign {radix : Nat} (hr : 1 < radix) (hr16 : radix ≤ 16) (ca neg : Bool)
    (n z k : Nat) : readNumber radix (signText neg ++ (List.replicate z (ch '0') ++
      (numeral radix ca n ++ List.replicate k (ch ' ')))) = if neg then -(n : Int) else n := by
  cases neg with
  | false => exact readNumber_numeral hr hr16 ca n z k
  | true =>
    show -(readDigits radix 0 (List.replicate z (ch '0') ++ _) : Int) = -(n : Int)
    rw [readDigits_zeroes, readDigits_numeral hr hr16]

/-- A body of digits reads back, wherever its padding is. -/
theorem readNumber_fill {radix : Nat} (hr : 1 < radix) (hr16 : radix ≤ 16) (ca neg lj lz : Bool)
    (n len width : Nat) : readNumber radix (Body.fill ⟨neg, numeral radix ca n, len⟩ lj lz width) =
      if neg then -(n : Int) else n := by
  rw [Body.fill]
  have h := readNumber_sign hr hr16 ca neg n
  cases lj with
  | true =>
    rw [if_pos rfl, List.append_assoc]
    exact h 0 _
  | false =>
    rw [if_neg Bool.false_ne_true]
    cases lz with
    | true =>
      rw [if_pos rfl, List.append_assoc]
      simpa using h (width - (len + (signText neg).length)) 0
    | false =>
      rw [if_neg Bool.false_ne_true, List.append_assoc, readNumber_blanks]
      simpa using h 0 0

/-- **A number reads back.** Whatever the flags and the width, the field of `%d`, `%u`, `%o` or `%x`
reads back as the number that was given, signed for `%d`. -/
theorem readNumber_show {radix : Nat} (hr : 1 < radix) (hr16 : radix ≤ 16)
    (str : Word → List Byte) (lj lz ca sg : Bool) (width : Nat) (w : Word) :
    readNumber radix (Directive.show str ⟨lj, lz, width, .number radix ca sg⟩ w) =
      if sg then w.toInt else w.toNat := by
  refine (readNumber_fill hr hr16 ca (sg && w.slt 0) lj _ _ _ width).trans ?_
  have hlt := w.isLt
  cases sg with
  | false => rfl
  | true =>
    rw [Bool.true_and, if_pos rfl]
    cases hneg : w.slt 0 with
    | false =>
      have hge : ¬ w.toInt < 0 := by simpa [BitVec.slt] using hneg
      rw [BitVec.toInt_eq_toNat_cond] at hge ⊢
      simp only [Bool.false_eq_true, if_false]
      split at hge <;> split <;> omega
    | true =>
      have hge : w.toInt < 0 := by simpa [BitVec.slt] using hneg
      rw [BitVec.toInt_eq_toNat_cond] at hge ⊢
      simp only [if_true, BitVec.toNat_neg]
      split at hge <;> split <;> omega

end Printf
end Frod
