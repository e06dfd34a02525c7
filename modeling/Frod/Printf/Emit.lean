import Frod.Str.Compare
import Frod.Printf.Spec

/-!
# Frod.Printf.Emit

The part of `do_printf` that prints one directive.

`wrote K t s s₁` is the outcome of giving the text `t` to `fn`, one character after the other, and
going on in `s₁`. Every loop of the conversion is an equation with it (`padLoop_eq`, `textLoop_eq`),
`wrote_bind` composes them, and `doNum_eq` says what a number prints. The text is read while the
output grows, so it must hold in memory after each part of it (`During`).
-/

namespace Frod
namespace Printf

variable {σ ε : Type} {K : Sink σ ε}

/-- Give a text to `fn`. -/
def Sink.feed (K : Sink σ ε) : List Byte → σ → Except ε σ
  | [], o => .ok o
  | c :: cs, o =>
    match K.fn c o with
    | .ok o => K.feed cs o
    | .error e => .error e

theorem feed_append (t u : List Byte) : ∀ o : σ, K.feed (t ++ u) o = K.feed t o >>= K.feed u := by
  induction t with
  | nil => intro o; rfl
  | cons c t ih =>
    intro o
    rw [List.cons_append, Sink.feed, Sink.feed]
    cases K.fn c o with
    | ok o => exact ih o
    | error e => rfl

theorem vprintfBochs_mem (m : Mem) (o : List Byte) : (vprintfBochs ε m).mem o = m := rfl

theorem feed_vprintfBochs (m : Mem) : ∀ (t o : List Byte),
    (vprintfBochs ε m).feed t o = .ok (o ++ t) := by
  intro t
  induction t with
  | nil => intro o; rw [List.append_nil]; rfl
  | cons c t ih =>
    intro o
    rw [Sink.feed, vprintfBochs]
    refine (ih (o ++ [c])).trans ?_
    rw [List.append_assoc, List.singleton_append]

/-- `s₁` with the output `o` and `n` more characters than `s`. -/
def St.grown (s s₁ : St σ) (n : Nat) (o : σ) : St σ :=
  { s₁ with out := o, count := s.count + BitVec.ofNat 32 n }

def wrote (K : Sink σ ε) (t : List Byte) (s s₁ : St σ) : Except (Halt ε) (St σ) :=
  match K.feed t s.out with
  | .ok o => .ok (s.grown s₁ t.length o)
  | .error e => .error (.fn e)

theorem wrote_nil (s s₁ : St σ) :
    wrote K [] s s₁ = .ok { s₁ with out := s.out, count := s.count } := by
  simp [wrote, Sink.feed, St.grown]

theorem wrote_bind {t u : List Byte} {s s₁ s₂ : St σ} {f : St σ → Except (Halt ε) (St σ)}
    (h : ∀ o, K.feed t s.out = .ok o →
      f (s.grown s₁ t.length o) = wrote K u (s.grown s₁ t.length o) s₂) :
    wrote K t s s₁ >>= f = wrote K (t ++ u) s s₂ := by
  rw [wrote, wrote, feed_append]
  cases hf : K.feed t s.out with
  | error e => rfl
  | ok o =>
    refine (h o hf).trans ?_
    rw [wrote]
    show (match K.feed u o with | .ok o => _ | .error e => _) =
      match K.feed u o with | .ok o => _ | .error e => _
    cases K.feed u o with
    | error e => rfl
    | ok o' =>
      simp only [St.grown, List.length_append, BitVec.ofNat_add, BitVec.add_assoc]

theorem put_eq (c : Byte) (s : St σ) : s.put K c = wrote K [c] s s := by
  rw [St.put, wrote, Sink.feed]
  cases K.fn c s.out with
  | ok o => rfl
  | error e => rfl

/-- The loop leaves `given_wd` at the width of the text, or as it was. -/
theorem padLoop_eq (c : Byte) (actual : Nat) : ∀ (n : Nat) (s : St σ),
    s.padLoop K c actual n =
      wrote K (List.replicate (n - actual) c) s { s with givenWd := min n actual } := by
  intro n
  induction n with
  | zero =>
    intro s
    rw [St.padLoop, Nat.zero_sub, Nat.zero_min, List.replicate_zero, wrote_nil]
  | succ n ih =>
    intro s
    rw [St.padLoop]
    by_cases h : n + 1 > actual
    · rw [if_pos h, put_eq, show n + 1 - actual = n - actual + 1 by omega, List.replicate_succ,
        show min (n + 1) actual = min n actual by omega]
      exact wrote_bind (u := List.replicate (n - actual) c) fun o _ => ih _
    · rw [if_neg h, show n + 1 - actual = 0 by omega, Nat.min_eq_left (by omega)]
      rw [List.replicate_zero, wrote_nil]

/-! ## The text of a field -/

/-- The text at `where`. -/
def Where.IsText (m : Mem) : Where → List Byte → Prop
  | w, [] => w.get m = 0
  | w, c :: t => w.get m = c ∧ c ≠ 0 ∧ w.next.IsText m t

instance decidableIsStr (m : Mem) : ∀ (a : Nat) (t : List Byte), Decidable (Str.IsStr m a t)
  | a, [] => inferInstanceAs (Decidable (m (a % 2 ^ 32) = 0))
  | a, c :: t =>
    have := decidableIsStr m (a + 1) t
    inferInstanceAs (Decidable (m (a % 2 ^ 32) = c ∧ c ≠ 0 ∧ Str.IsStr m (a + 1) t))

/-- Memory with the bytes `l` at `a`, and 0 behind them. -/
def bytesAt (a : Nat) (l : List Byte) : Mem := fun x => l.getD (x - a) 0

theorem isText_mem {m : Mem} : ∀ {t : List Byte} {a : Nat}, Str.IsStr m a t →
    (Where.mem a).IsText m t := by
  intro t
  induction t with
  | nil => intro a h; exact h
  | cons c t ih => intro a h; exact ⟨h.1, h.2.1, ih h.2.2⟩

/-- `P` holds of memory after every part of the text. -/
def During (K : Sink σ ε) (P : Mem → Prop) (t : List Byte) (o : σ) : Prop :=
  ∀ u v, t = u ++ v → ∀ o', K.feed u o = .ok o' → P (K.mem o')

theorem During.head {P : Mem → Prop} {t : List Byte} {o : σ} (h : During K P t o) : P (K.mem o) :=
  h [] t rfl o rfl

theorem During.split {P : Mem → Prop} {t u : List Byte} {o : σ} (h : During K P (t ++ u) o) :
    During K P t o ∧ ∀ o', K.feed t o = .ok o' → During K P u o' := by
  refine ⟨fun x y hxy o' ho' => h x (y ++ u) (by rw [hxy, List.append_assoc]) o' ho', ?_⟩
  intro o' ho' x y hxy o'' ho''
  refine h (t ++ x) y (by rw [hxy, List.append_assoc]) o'' ?_
  rw [feed_append, ho']
  exact ho''

theorem During.imp {P Q : Mem → Prop} {t : List Byte} {o : σ} (h : During K P t o)
    (hi : ∀ m, P m → Q m) : During K Q t o :=
  fun u v huv o' ho' => hi _ (h u v huv o' ho')

theorem during_const {P : Mem → Prop} {m : Mem} {t : List Byte} {o : σ} (hK : ∀ o, K.mem o = m)
    (h : P m) : During K P t o := by
  intro u v _ o' _
  rw [hK]
  exact h

theorem strlenLoop_eq {m : Mem} : ∀ {t : List Byte} {fuel : Nat} {w : Where} {ret : Nat},
    w.IsText m t → t.length < fuel →
      strlenLoop m fuel w ret = (.ok (ret + t.length) : Except (Halt ε) Nat) := by
  intro t
  induction t with
  | nil =>
    intro fuel w ret hw hf
    obtain ⟨fuel, rfl⟩ := Nat.exists_eq_succ_of_ne_zero (Nat.ne_of_gt (Nat.zero_lt_of_lt hf))
    have h0 : w.get m = 0 := hw
    rw [strlenLoop, if_neg (not_not.mpr h0)]
    rfl
  | cons c t ih =>
    intro fuel w ret hw hf
    obtain ⟨fuel, rfl⟩ := Nat.exists_eq_succ_of_ne_zero (Nat.ne_of_gt (Nat.zero_lt_of_lt hf))
    obtain ⟨hc, hne, hrest⟩ := hw
    rw [strlenLoop, if_pos (by rw [hc]; exact hne), ih hrest (by simp at hf; omega),
      List.length_cons]
    congr 1
    omega

theorem textLoop_eq : ∀ {t : List Byte} {fuel : Nat} {w : Where} {s : St σ},
    During K (fun m => w.IsText m t) t s.out → t.length < fuel →
      s.textLoop K fuel w = wrote K t s s := by
  intro t
  induction t with
  | nil =>
    intro fuel w s hw hf
    obtain ⟨fuel, rfl⟩ := Nat.exists_eq_succ_of_ne_zero (Nat.ne_of_gt (Nat.zero_lt_of_lt hf))
    have h0 : w.get (K.mem s.out) = 0 := hw.head
    rw [St.textLoop, h0, wrote_nil]
    rfl
  | cons c t ih =>
    intro fuel w s hw hf
    obtain ⟨fuel, rfl⟩ := Nat.exists_eq_succ_of_ne_zero (Nat.ne_of_gt (Nat.zero_lt_of_lt hf))
    obtain ⟨hc, hne, _⟩ : w.get (K.mem s.out) = c ∧ c ≠ 0 ∧ w.next.IsText (K.mem s.out) t := hw.head
    rw [St.textLoop, hc, if_pos hne, put_eq]
    refine wrote_bind (t := [c]) fun o ho => ih ?_ (Nat.lt_of_succ_lt_succ hf)
    exact ((During.split (t := [c]) hw).2 o ho).imp fun m hm => hm.2.2

/-! ## A field -/

/-- The text of a field from `EMIT2` on. -/
def fill2 (f : Flags) (width actual : Nat) (t : List Byte) : List Byte :=
  (if f.lj then [] else List.replicate (width - actual) (if f.lz then ch '0' else ch ' ')) ++
    (signText (f.ws && !f.lz) ++ (t ++ if f.lj then List.replicate (width - actual) (ch ' ') else []))

theorem sign_eq (b : Bool) (s : St σ) :
    (if b then s.put K (ch '-') else .ok s) = wrote K (signText b) s s := by
  cases b with
  | false => rw [signText, if_neg Bool.false_ne_true, if_neg Bool.false_ne_true, wrote_nil]
  | true => rw [signText, if_pos rfl, if_pos rfl, put_eq]

theorem emit2_eq {t : List Byte} {fuel actual : Nat} {w : Where} {s : St σ}
    (ht : During K (fun m => w.IsText m t) (fill2 s.flags s.givenWd actual t) s.out)
    (hf : t.length < fuel) :
    s.emit2 K fuel w actual =
      wrote K (fill2 s.flags s.givenWd actual t) s { s with givenWd := 0 } := by
  have hleft : (if s.flags.lj then (.ok s : Except (Halt ε) (St σ))
      else s.padLoop K (if s.flags.lz then ch '0' else ch ' ') actual s.givenWd) =
      wrote K (if s.flags.lj then []
        else List.replicate (s.givenWd - actual) (if s.flags.lz then ch '0' else ch ' ')) s
        { s with givenWd := if s.flags.lj then s.givenWd else min s.givenWd actual } := by
    cases s.flags.lj with
    | true => simp only [if_true, wrote_nil]
    | false => exact padLoop_eq _ _ _ _
  rw [St.emit2, hleft]
  refine wrote_bind fun o ho => ?_
  have ht₁ := ht.split.2 o ho
  rw [show ∀ s₁ : St σ, (s.grown s₁ _ o).flags = s₁.flags from fun _ => rfl, sign_eq]
  refine wrote_bind fun o₁ ho₁ => ?_
  have ht₂ := ht₁.split.2 o₁ ho₁
  rw [textLoop_eq ht₂.split.1 hf]
  refine wrote_bind fun o₂ _ => ?_
  rw [padLoop_eq]
  cases s.flags.lj with
  | true =>
    have hpad : (if s.givenWd < actual then 0 else s.givenWd - actual) = s.givenWd - actual := by
      split <;> omega
    simp only [St.grown, if_true, hpad, Nat.min_zero, Nat.sub_zero]
    rfl
  | false =>
    have hpad : (if min s.givenWd actual < actual then 0 else min s.givenWd actual - actual) = 0 := by
      split <;> omega
    simp only [St.grown, Bool.false_eq_true, if_false, hpad, Nat.min_zero, Nat.sub_zero]
    rfl

/-- A sign goes in front of zeroes and behind blanks. -/
theorem fill_eq (f : Flags) (b : Body) (width : Nat) (hs : b.sign = f.ws) :
    signText (f.ws && f.lz) ++ fill2 f width (b.len + (signText f.ws).length) b.text =
      b.fill f.lj f.lz width := by
  rw [Body.fill, fill2, hs]
  cases f.ws <;> cases f.lz <;> cases f.lj <;> simp [signText]

theorem Body.text_length_le (b : Body) (lj lz : Bool) (width : Nat) :
    b.text.length ≤ (b.fill lj lz width).length := by
  rw [Body.fill]
  cases lj <;> cases lz <;> simp <;> omega

theorem emit_eq {b : Body} {fuel : Nat} {w : Where} {s : St σ} (hs : b.sign = s.flags.ws)
    (ht : During K (fun m => w.IsText m b.text) (b.fill s.flags.lj s.flags.lz s.givenWd) s.out)
    (hf : b.text.length < fuel) (hlen : b.len = if w.isNull then 0 else b.text.length)
    (hwd : s.flags.ws = true → b.len + 1 < 2 ^ 32) :
    s.emit K fuel w = wrote K (b.fill s.flags.lj s.flags.lz s.givenWd) s { s with givenWd := 0 } := by
  have hstr : strlen (K.mem s.out) fuel w = (.ok b.len : Except (Halt ε) Nat) := by
    rw [strlen, hlen]
    split
    · rfl
    · rw [strlenLoop_eq ht.head hf, Nat.zero_add]
  have hactual : (if s.flags.ws then (b.len + 1) % 2 ^ 32 else b.len) =
      b.len + (signText s.flags.ws).length := by
    cases hws : s.flags.ws with
    | true => exact Nat.mod_eq_of_lt (hwd hws)
    | false => rfl
  rw [← fill_eq s.flags b s.givenWd hs] at ht ⊢
  rw [St.emit, hstr, Machine.ok_bind]
  simp only [hactual]
  rw [sign_eq]
  exact wrote_bind fun o ho => emit2_eq (ht.split.2 o ho) hf

end Printf
end Frod
