import Frod.Printf.Refine

/-!
# Frod.Printf.Items

Formats as they are written.

An item is a character, `%%` or a directive with its flags, width, modifiers and conversion
character. `pieces_text` says that the scan reads the items of a format back in order, so
`doPrintf_items` gives the text of any format that is written this way, and `doPrintf_number` the
number that a printed field reads back as.
-/

namespace Frod
namespace Printf

inductive Item where
  | lit (c : Byte)
  | percent
  | dir (d : Directive) (mods : List Byte) (c : Byte)

namespace Item

/-- The characters of a width. -/
def widthText (n : Nat) : List Byte := if n = 0 then [] else numeral 10 false n

def flagsText (lj lz : Bool) : List Byte :=
  (if lj then [ch '-'] else []) ++ (if lz then [ch '0'] else [])

def text : Item → List Byte
  | lit c => [c]
  | percent => [ch '%', ch '%']
  | dir d mods c => ch '%' :: (flagsText d.lj d.lz ++ (widthText d.width ++ (mods ++ [c])))

def piece : Item → Piece
  | lit c => .lit c
  | percent => .lit (ch '%')
  | dir d _ _ => .arg d

/-- A character that is no `%`, and a directive whose width fits and whose conversion is `c`. -/
def Wf : Item → Prop
  | lit c => c ≠ ch '%' ∧ c ≠ 0
  | percent => True
  | dir d mods c => d.width < 2 ^ 32 ∧ (∀ b ∈ mods, isModifier b) ∧ conversion c = some d.conv

end Item

/-! ## Reading a directive back -/

theorem modifier_char : ∀ c : Byte, isModifier c → isDigit c = false ∧ c ≠ ch '%' ∧ c ≠ ch '-' := by
  decide +kernel

theorem conversion_char : ∀ c : Byte, (conversion c).isSome →
    isDigit c = false ∧ isModifier c = false ∧ c ≠ ch '%' ∧ c ≠ ch '-' := by
  decide +kernel

theorem digit_char : ∀ {d : Nat}, d < 10 → isDigit (digit false d) = true ∧
    (digit false d).toNat - 0x30 = d ∧ digit false d ≠ ch '%' ∧ digit false d ≠ ch '-' ∧
    (digit false d = ch '0' → d = 0) := by
  decide

section Directive

variable {lj lz : Bool}

/-- A place where the width may begin, the flags being read. -/
def Scan.opened (lj lz : Bool) : Scan := if lz then .zero lj else if lj then .dash else .percent

theorem opened_step {c : Byte} (hp : c ≠ ch '%') (hm : c ≠ ch '-') (h0 : c = ch '0' → lz = true) :
    (Scan.opened lj lz).step c = field lj lz 0 c := by
  cases lz with
  | true => rfl
  | false =>
    have h0' : c ≠ ch '0' := fun hc => Bool.false_ne_true (h0 hc)
    cases lj with
    | true => simp only [Scan.opened, Bool.false_eq_true, if_false, if_true, Scan.step, hp, hm, h0']
    | false => simp only [Scan.opened, Bool.false_eq_true, if_false, Scan.step, hp, hm, h0']

/-- The modifiers and the conversion, read at a place with the width `n`. -/
theorem pieces_mods {n : Nat} {c : Byte} {v : Conv} (hv : conversion c = some v) (r : List Byte) :
    ∀ {mods : List Byte} {q : Scan}, (∀ b ∈ mods, isModifier b) →
      (∀ c, isDigit c = false → c ≠ ch '%' → c ≠ ch '-' → q.step c = finish lj lz n c) →
      q.pieces (mods ++ [c] ++ r) = .arg ⟨lj, lz, n, v⟩ :: Scan.text.pieces r ∧
        q.last (mods ++ [c] ++ r) = Scan.text.last r := by
  intro mods
  induction mods with
  | nil =>
    intro q _ hq
    obtain ⟨hd, hmod, hp, hm⟩ := conversion_char c (by rw [hv]; rfl)
    have hstep : q.step c = (.text, [.arg ⟨lj, lz, n, v⟩]) := by
      rw [hq c hd hp hm, finish, if_neg (by rw [hmod]; exact Bool.false_ne_true), hv]
      rfl
    rw [List.nil_append, List.cons_append, Scan.pieces, Scan.last, hstep]
    exact ⟨rfl, rfl⟩
  | cons b mods ih =>
    intro q hmods hq
    obtain ⟨hb, hmods⟩ := List.forall_mem_cons.mp hmods
    obtain ⟨hd, hp, hm⟩ := modifier_char b hb
    have hstep : q.step b = (.modifier lj lz n, []) := by
      rw [hq b hd hp hm, finish, if_pos hb]
    simp only [List.cons_append, Scan.pieces, Scan.last, hstep, List.nil_append]
    exact ih hmods fun _ _ _ _ => rfl

theorem foldl_mod (M : Nat) : ∀ (ds : List Nat) (m : Nat),
    ds.foldl (fun n d => 10 * n + d) (m % M) % M = ds.foldl (fun n d => 10 * n + d) m % M := by
  intro ds
  induction ds with
  | nil => intro m; exact Nat.mod_mod m M
  | cons d ds ih =>
    intro m
    rw [List.foldl_cons, List.foldl_cons, ← ih, ← ih (10 * m + d)]
    congr 2
    rw [Nat.add_mod, Nat.mul_mod, Nat.mod_mod, ← Nat.mul_mod, ← Nat.add_mod]

variable (lj lz) in
/-- The digits of a width, the number `m` being read. -/
theorem width_digits : ∀ {ds : List Nat} {m : Nat}, (∀ d ∈ ds, d < 10) → m < 2 ^ 32 → ∀ r,
    (Scan.width lj lz m).pieces (ds.map (digit false) ++ r) =
      (Scan.width lj lz (ds.foldl (fun n d => 10 * n + d) m % 2 ^ 32)).pieces r ∧
    (Scan.width lj lz m).last (ds.map (digit false) ++ r) =
      (Scan.width lj lz (ds.foldl (fun n d => 10 * n + d) m % 2 ^ 32)).last r := by
  intro ds
  induction ds with
  | nil =>
    intro m _ hm r
    rw [List.foldl_nil, Nat.mod_eq_of_lt hm]
    exact ⟨rfl, rfl⟩
  | cons d ds ih =>
    intro m hds hm r
    obtain ⟨hd, hds⟩ := List.forall_mem_cons.mp hds
    obtain ⟨hdig, hval, -⟩ := digit_char hd
    have hstep : (Scan.width lj lz m).step (digit false d) =
        (.width lj lz ((10 * m + d) % 2 ^ 32), []) := by
      rw [Scan.step, field, if_pos hdig, hval]
    have h := ih hds (Nat.mod_lt (10 * m + d) (by decide)) r
    rw [foldl_mod] at h
    rw [List.map_cons, List.cons_append, Scan.pieces, Scan.last, hstep]
    exact h

/-- A number has no zero in front, and its digits read back. -/
theorem digitsOf_cons {n : Nat} (hn : n ≠ 0) : ∃ d ds, digitsOf 10 n = d :: ds ∧ d ≠ 0 ∧
    ds.foldl (fun n d => 10 * n + d) d = n := by
  have hval : (digitsOf 10 n).foldl (fun n d => 10 * n + d) 0 = n := foldl_digitsOf 10 n
  have hne : Nat.digits 10 n ≠ [] := Nat.digits_ne_nil_iff_ne_zero.mpr hn
  have hlast := Nat.getLast_digit_ne_zero 10 hn
  have hhead : digitsOf 10 n = (Nat.digits 10 n).getLast hne :: (Nat.digits 10 n).dropLast.reverse := by
    rw [digitsOf, if_neg hn]
    conv_lhs => rw [← List.dropLast_append_getLast hne]
    rw [List.reverse_append]
    rfl
  refine ⟨_, _, hhead, hlast, ?_⟩
  rw [hhead, List.foldl_cons, Nat.mul_zero, Nat.zero_add] at hval
  exact hval

variable (lj lz) in
/-- The width, the modifiers and the conversion behind the flags. -/
theorem pieces_body {n : Nat} {mods : List Byte} {c : Byte} {v : Conv} (hn : n < 2 ^ 32)
    (hmods : ∀ b ∈ mods, isModifier b) (hv : conversion c = some v) (r : List Byte) :
    (Scan.opened lj lz).pieces (Item.widthText n ++ (mods ++ [c] ++ r)) =
        .arg ⟨lj, lz, n, v⟩ :: Scan.text.pieces r ∧
      (Scan.opened lj lz).last (Item.widthText n ++ (mods ++ [c] ++ r)) = Scan.text.last r := by
  rw [Item.widthText]
  by_cases h0 : n = 0
  · subst h0
    rw [if_pos rfl, List.nil_append]
    refine pieces_mods hv r hmods fun c hd hp hm => ?_
    have hz : c = ch '0' → lz = true := by
      rintro rfl
      cases hd
    rw [opened_step hp hm hz, field, if_neg (by rw [hd]; exact Bool.false_ne_true)]
  · obtain ⟨d, ds, hds, hd0, hval⟩ := digitsOf_cons h0
    have hlt : ∀ d' ∈ d :: ds, d' < 10 := by
      rw [← hds]
      exact digitsOf_lt (by decide) n
    obtain ⟨hd, hlt⟩ := List.forall_mem_cons.mp hlt
    obtain ⟨hdig, hdval, hp, hm, hz⟩ := digit_char hd
    have hstep : (Scan.opened lj lz).step (digit false d) = (.width lj lz d, []) := by
      rw [opened_step hp hm fun h => absurd (hz h) hd0, field, if_pos hdig, hdval, Nat.mul_zero,
        Nat.zero_add, Nat.mod_eq_of_lt (by omega)]
    have hwidth := width_digits lj lz hlt (m := d) (by omega) (mods ++ [c] ++ r)
    rw [hval, Nat.mod_eq_of_lt hn] at hwidth
    rw [if_neg h0, numeral, hds, List.map_cons, List.cons_append, Scan.pieces, Scan.last, hstep,
      List.nil_append, hwidth.1, hwidth.2]
    refine pieces_mods hv r hmods fun c hd _ _ => ?_
    rw [Scan.step, field, if_neg (by rw [hd]; exact Bool.false_ne_true)]

end Directive

/-! ## Formats -/

theorem pieces_item {i : Item} (hi : i.Wf) (r : List Byte) :
    Scan.text.pieces (i.text ++ r) = i.piece :: Scan.text.pieces r ∧
      Scan.text.last (i.text ++ r) = Scan.text.last r := by
  cases i with
  | lit c =>
    have hstep : Scan.text.step c = (.text, [.lit c]) := if_neg hi.1
    rw [Item.text, List.singleton_append, Scan.pieces, Scan.last, hstep]
    exact ⟨rfl, rfl⟩
  | percent => exact ⟨rfl, rfl⟩
  | dir d mods c =>
    obtain ⟨hn, hmods, hv⟩ := hi
    have hbody := pieces_body d.lj d.lz hn hmods hv r
    have hflags : ∀ r, Scan.text.pieces (ch '%' :: (Item.flagsText d.lj d.lz ++ r)) =
          (Scan.opened d.lj d.lz).pieces r ∧
        Scan.text.last (ch '%' :: (Item.flagsText d.lj d.lz ++ r)) =
          (Scan.opened d.lj d.lz).last r := by
      intro r
      cases d.lj <;> cases d.lz <;> exact ⟨rfl, rfl⟩
    have h := hflags (Item.widthText d.width ++ (mods ++ [c] ++ r))
    rw [hbody.1, hbody.2] at h
    simpa only [Item.text, Item.piece, List.cons_append, List.append_assoc] using h

/-- The scan reads the items of a format back. -/
theorem pieces_text : ∀ {items : List Item}, (∀ i ∈ items, i.Wf) →
    Scan.text.pieces (items.flatMap Item.text) = items.map Item.piece ∧
      Scan.text.last (items.flatMap Item.text) = .text := by
  intro items
  induction items with
  | nil => intro _; exact ⟨rfl, rfl⟩
  | cons i items ih =>
    intro h
    obtain ⟨hi, hitems⟩ := List.forall_mem_cons.mp h
    obtain ⟨hp, hl⟩ := pieces_item hi (items.flatMap Item.text)
    rw [List.flatMap_cons, List.map_cons, hp, hl, (ih hitems).1, (ih hitems).2]
    exact ⟨rfl, rfl⟩

section Printf

variable {σ ε : Type} {K : Sink σ ε} {str : Word → List Byte} {fuel fmt : Nat} {args : Nat → Word}
  {out : σ}

variable (str args) in
theorem format_items {items : List Item} (hw : ∀ i ∈ items, i.Wf) :
    format str (items.flatMap Item.text) args = render str (items.map Item.piece) args := by
  rw [format, (pieces_text hw).1]

/-- **A format prints its items in order.** -/
theorem doPrintf_items {items : List Item} (hw : ∀ i ∈ items, i.Wf)
    (h : Readable K str fmt [items.flatMap Item.text] args out) :
    ∃ n, ∀ fuel, n ≤ fuel → doPrintf K fuel fmt args out =
      match K.feed (render str (items.map Item.piece) args) out with
      | .ok o => .ok (BitVec.ofNat 32 (render str (items.map Item.piece) args).length, o)
      | .error e => .error (.fn e) := by
  rw [← format_items str args hw]
  exact doPrintf_eq h (by rw [(pieces_text hw).2]; rfl)

/-- `a%03hd` with -5. -/
theorem doPrintf_items_short : ∃ n, ∀ fuel, n ≤ fuel →
    doPrintf (vprintfBochs Empty (bytesAt 0x100 [ch 'a', ch '%', ch '0', ch '3', ch 'h', ch 'd']))
      fuel 0x100 (fun _ => -5) [] = .ok (4, [ch 'a', ch '-', ch '0', ch '5']) := by
  have hw : ∀ i ∈ [Item.lit (ch 'a'), .dir ⟨false, true, 3, .number 10 false true⟩ [ch 'h'] (ch 'd')],
      i.Wf := by
    simp only [List.mem_cons, List.not_mem_nil, or_false, forall_eq_or_imp, forall_eq]
    exact ⟨⟨by decide, by decide⟩, by decide, by decide, by decide⟩
  have htext : [Item.lit (ch 'a'), .dir ⟨false, true, 3, .number 10 false true⟩ [ch 'h']
      (ch 'd')].flatMap Item.text = [ch 'a', ch '%', ch '0', ch '3', ch 'h', ch 'd'] := by
    simp [Item.text, Item.flagsText, Item.widthText, numeral, digitsOf, digit, ch]
  have hread : Readable (vprintfBochs Empty
      (bytesAt 0x100 [ch 'a', ch '%', ch '0', ch '3', ch 'h', ch 'd'])) (fun _ => []) 0x100
      [[Item.lit (ch 'a'), .dir ⟨false, true, 3, .number 10 false true⟩ [ch 'h']
        (ch 'd')].flatMap Item.text] (fun _ => -5) [] := by
    rw [htext]
    exact readable_const (vprintfBochs_mem _) ⟨by decide, trivial⟩ (texts_nil _)
  have h := doPrintf_items hw hread
  have hshow : render (fun _ => []) ([Item.lit (ch 'a'), .dir ⟨false, true, 3, .number 10 false true⟩
      [ch 'h'] (ch 'd')].map Item.piece) (fun _ => -5) = [ch 'a', ch '-', ch '0', ch '5'] := by
    simp [Item.piece, render, Directive.show, Conv.body, Conv.isNumber, Body.fill, signText, numeral,
      digitsOf, digit, ch]
  rwa [hshow, feed_vprintfBochs] at h

theorem conversion_radix {c : Byte} {radix : Nat} {ca sg : Bool}
    (h : conversion c = some (.number radix ca sg)) : 8 ≤ radix ∧ radix ≤ 16 := by
  rw [conversion] at h
  repeat' split at h
  all_goals cases h
  all_goals decide

/-- A field is as wide as it should be, or as its number needs. -/
theorem fill_length (b : Body) (lj lz : Bool) (width : Nat) (h : b.len = b.text.length) :
    (b.fill lj lz width).length = max width (b.text.length + (signText b.sign).length) := by
  rw [Body.fill, h]
  cases lj <;> cases lz <;> simp <;> omega

/-- **What `%d`, `%u`, `%o`, `%x` and their relatives print reads back.** Whatever the flags, the
width, the modifiers and the argument, the field reads back as the argument and is as wide as the
width, or at most 12 characters. -/
theorem doPrintf_number {lj lz ca sg : Bool} {radix width : Nat} {mods : List Byte} {c : Byte}
    (hw : (Item.dir ⟨lj, lz, width, .number radix ca sg⟩ mods c).Wf)
    (h : Readable K str fmt [(Item.dir ⟨lj, lz, width, .number radix ca sg⟩ mods c).text] args out) :
    ∃ t : List Byte, readNumber radix t = (if sg then (args 0).toInt else (args 0).toNat) ∧
      width ≤ t.length ∧ t.length ≤ max width 12 ∧
      ∃ n, ∀ fuel, n ≤ fuel → doPrintf K fuel fmt args out =
        match K.feed t out with
        | .ok o => .ok (BitVec.ofNat 32 t.length, o)
        | .error e => .error (.fn e) := by
  obtain ⟨hr, hr16⟩ := conversion_radix hw.2.2
  have hone := format_items str args (List.forall_mem_singleton.mpr hw)
  rw [List.flatMap_singleton, List.map_singleton, Item.piece, render, render, List.append_nil] at hone
  have hlast := (pieces_item hw []).2
  rw [List.append_nil] at hlast
  have hfill : ∀ w, Directive.show str ⟨lj, lz, width, .number radix ca sg⟩ w =
      ((Conv.number radix ca sg).body str w).fill lj lz width := by
    intro w
    rw [Directive.show, Conv.isNumber, Bool.and_true]
  refine ⟨Directive.show str ⟨lj, lz, width, .number radix ca sg⟩ (args 0),
    readNumber_show (by omega) hr16 str lj lz ca sg width _, ?_, ?_, ?_⟩
  · rw [hfill, fill_length _ lj lz width rfl]
    exact Nat.le_max_left _ _
  · rw [hfill, fill_length _ lj lz width rfl]
    have hlen : ((Conv.number radix ca sg).body str (args 0)).text.length ≤ 11 :=
      numeral_length hr ca (BitVec.isLt _)
    have hsign : (signText ((Conv.number radix ca sg).body str (args 0)).sign).length ≤ 1 := by
      rw [signText]
      split
      · exact Nat.le_refl 1
      · exact Nat.zero_le 1
    omega
  · rw [← hone]
    exact doPrintf_eq h (by rw [hlast]; rfl)

/-- `%-2X` with 0xBEEF. -/
theorem doPrintf_number_beef : ∃ t : List Byte, readNumber 16 t = 0xBEEF ∧ 2 ≤ t.length ∧
    t.length ≤ 12 ∧ ∃ n, ∀ fuel, n ≤ fuel →
      doPrintf (vprintfBochs Empty (bytesAt 0x100 [ch '%', ch '-', ch '2', ch 'X'])) fuel 0x100
        (fun _ => 0xBEEF) [] = .ok (BitVec.ofNat 32 t.length, t) := by
  have hw : (Item.dir ⟨true, false, 2, .number 16 true false⟩ [] (ch 'X')).Wf :=
    ⟨by decide, by decide, by decide⟩
  have htext : (Item.dir ⟨true, false, 2, .number 16 true false⟩ [] (ch 'X')).text =
      [ch '%', ch '-', ch '2', ch 'X'] := by
    simp [Item.text, Item.flagsText, Item.widthText, numeral, digitsOf, digit, ch]
  have hread : Readable (vprintfBochs Empty (bytesAt 0x100 [ch '%', ch '-', ch '2', ch 'X']))
      (fun _ => []) 0x100 [(Item.dir ⟨true, false, 2, .number 16 true false⟩ [] (ch 'X')).text]
      (fun _ => 0xBEEF) [] := by
    rw [htext]
    exact readable_const (vprintfBochs_mem _) ⟨by decide, trivial⟩ (texts_nil _)
  obtain ⟨t, hval, hlo, hhi, hprint⟩ := doPrintf_number hw hread
  rw [feed_vprintfBochs] at hprint
  exact ⟨t, hval, hlo, hhi, hprint⟩

end Printf

end Printf
end Frod
