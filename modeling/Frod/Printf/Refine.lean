import Frod.Printf.Number

/-!
# Frod.Printf.Refine

`do_printf` prints what its format says.

`At q s` relates the variables of the scan to the place `q` in the format. An iteration reads one
character, or two or three where it begins a directive (`switch_eq`); the loop reads the format to
its end (`scanLoop_ok`), and one character further where the format ends in `%` or in the flag `0`.
-/

namespace Frod
namespace Printf

variable {σ ε : Type} {K : Sink σ ε}

/-! ## Pieces -/

theorem after_after (args : Nat → Word) (m n : Nat) : after (after args m) n = after args (m + n) := by
  funext i
  exact congrArg args (by omega)

theorem render_append (str : Word → List Byte) (qs : List Piece) : ∀ (ps : List Piece)
    (args : Nat → Word), render str (ps ++ qs) args =
      render str ps args ++ render str qs (after args (argCount ps)) := by
  intro ps
  induction ps with
  | nil => intro args; rfl
  | cons p ps ih =>
    intro args
    cases p with
    | lit c => simp only [List.cons_append, render, argCount, ih]
    | arg d =>
      simp only [List.cons_append, render, argCount, ih, after_after, List.append_assoc,
        Nat.add_comm 1]

theorem pointers_append (qs : List Piece) : ∀ (ps : List Piece) (args : Nat → Word),
    pointers (ps ++ qs) args = pointers ps args ++ pointers qs (after args (argCount ps)) := by
  intro ps
  induction ps with
  | nil => intro args; rfl
  | cons p ps ih =>
    intro args
    cases p with
    | lit c => simp only [List.cons_append, pointers, argCount, ih]
    | arg d =>
      simp only [List.cons_append, pointers, argCount, ih, after_after, List.append_assoc,
        Nat.add_comm 1]

theorem argCount_append (qs : List Piece) : ∀ ps : List Piece,
    argCount (ps ++ qs) = argCount ps + argCount qs := by
  intro ps
  induction ps with
  | nil => exact (Nat.zero_add _).symm
  | cons p ps ih =>
    cases p with
    | lit c => simp only [List.cons_append, argCount, ih]
    | arg d => simp only [List.cons_append, argCount, ih]; omega

theorem Scan.pieces_append (u : List Byte) : ∀ (t : List Byte) (q : Scan),
    q.pieces (t ++ u) = q.pieces t ++ (q.last t).pieces u := by
  intro t
  induction t with
  | nil => intro q; rfl
  | cons c t ih => intro q; simp only [List.cons_append, pieces, last, ih, List.append_assoc]

theorem Scan.last_append (u : List Byte) : ∀ (t : List Byte) (q : Scan),
    q.last (t ++ u) = (q.last t).last u := by
  intro t
  induction t with
  | nil => intro q; rfl
  | cons c t ih => intro q; simp only [List.cons_append, last, ih]

/-! ## Directives -/

/-- The flags inside a directive whose conversion has not been read. -/
def Flags.Open (f : Flags) (lj lz : Bool) : Prop :=
  f.lj = lj ∧ f.lz = lz ∧ f.ca = false ∧ f.sg = false ∧ f.ws = false

/-- The variables of the scan at a place of the format. -/
def At : Scan → St σ → Prop
  | .text, s => s.state = .percent ∧ s.flags = {} ∧ s.givenWd = 0
  | .dash, s => s.state = .flags ∧ s.flags.Open true false ∧ s.givenWd = 0
  | .width lj lz n, s => s.state = .width ∧ s.flags.Open lj lz ∧ s.givenWd = n
  | .modifier lj lz n, s => s.state = .modifier ∧ s.flags.Open lj lz ∧ s.givenWd = n
  | .percent, s => s.state = .flags ∧ s.flags.Open false false ∧ s.givenWd = 0
  | .zero lj, s => s.state = .width ∧ s.flags.Open lj true ∧ s.givenWd = 0

/-- The texts of the arguments of `%s` are in memory. -/
def Texts (str : Word → List Byte) (ps : List Word) (m : Mem) : Prop :=
  ∀ p ∈ ps, Str.IsStr m p.toNat (str p)

/-- The part of an iteration behind `s` reads the pieces `ps` and goes on at `q`. -/
def Turns (K : Sink σ ε) (str : Word → List Byte) (s : St σ) (next : Scan × List Piece)
    (x : Except (Halt ε) (St σ)) : Prop :=
  ∃ s₁, x = wrote K (render str next.2 s.args) s s₁ ∧ At next.1 s₁ ∧ s₁.fmt = s.fmt ∧
    s₁.args = after s.args (argCount next.2)

theorem at_reset (s : St σ) : At .text s.reset := ⟨rfl, rfl, rfl⟩

theorem wrote_reset (t : List Byte) (s s₁ : St σ) :
    (wrote K t s s₁ >>= fun s => pure s.reset) = wrote K t s s₁.reset := by
  rw [wrote, wrote]
  cases K.feed t s.out with
  | ok o => rfl
  | error e => rfl

/-- The end of a directive that has printed. -/
theorem Turns.reset {str : Word → List Byte} {s : St σ} {d : Directive}
    {x : Except (Halt ε) (St σ)} (s₁ : St σ) (h : x = wrote K (d.show str (s.args 0)) s s₁)
    (hfmt : s₁.fmt = s.fmt) (hargs : s₁.args = after s.args 1) :
    Turns K str s (.text, [.arg d]) (x >>= fun s => pure s.reset) := by
  refine ⟨s₁.reset, ?_, at_reset s₁, hfmt, hargs⟩
  rw [h, wrote_reset, render, render, List.append_nil]

/-- An assignment to the variables of the scan, which prints nothing. -/
theorem turns_ok {str : Word → List Byte} {s : St σ} {q : Scan} (s₁ : St σ) (hout : s₁.out = s.out)
    (hcount : s₁.count = s.count) (hat : At q s₁) (hfmt : s₁.fmt = s.fmt) (hargs : s₁.args = s.args) :
    Turns K str s (q, []) (.ok s₁) := by
  refine ⟨s₁, ?_, hat, hfmt, hargs⟩
  rw [render, wrote_nil, ← hout, ← hcount]

/-- Only the output, its length, the place and the arguments count for what follows. -/
theorem Turns.congr {str : Word → List Byte} {s s' : St σ} {next : Scan × List Piece}
    {x : Except (Halt ε) (St σ)} (h : Turns K str s' next x) (hout : s'.out = s.out)
    (hcount : s'.count = s.count) (hfmt : s'.fmt = s.fmt) (hargs : s'.args = s.args) :
    Turns K str s next x := by
  obtain ⟨s₁, hx, hat, hfmt₁, hargs₁⟩ := h
  refine ⟨s₁, ?_, hat, hfmt₁.trans hfmt, hargs₁.trans (by rw [hargs])⟩
  rw [hx, wrote, wrote, hout, hargs]
  simp only [St.grown, hcount]

section Case

variable {str : Word → List Byte} {fuel : Nat} {s : St σ} {lj lz : Bool}

theorem turns_number {radix : Nat} {ca sg : Bool} (hr : 8 ≤ radix) (hr16 : radix ≤ 16)
    (hf : (Directive.show str ⟨lj, lz, s.givenWd, .number radix ca sg⟩ (s.args 0)).length < fuel)
    {f : Flags} (hlj : f.lj = lj) (hlz : f.lz = lz) (hca : f.ca = ca) (hsg : f.sg = sg)
    (hws : f.ws = false) :
    Turns K str s (.text, [.arg ⟨lj, lz, s.givenWd, .number radix ca sg⟩])
      (St.doNum K fuel radix { s with flags := f } >>= fun s => pure s.reset) := by
  subst hlj hlz hca hsg
  have hshow : ∀ w, Directive.show str ⟨f.lj, f.lz, s.givenWd, .number radix f.ca f.sg⟩ w =
      ((Conv.number radix f.ca f.sg).body str w).fill f.lj f.lz s.givenWd := by
    intro w
    rw [Directive.show, Conv.isNumber, Bool.and_true]
  rw [hshow] at hf
  refine Turns.reset { s with
      flags := { f with ws := f.sg && (s.args 0).slt 0 }, args := after s.args 1, givenWd := 0 }
    ((doNum_eq (b := (Conv.number radix f.ca f.sg).body str (s.args 0)) hr hr16 hws rfl ?_).trans ?_)
    rfl rfl
  · exact Nat.lt_of_le_of_lt (Body.text_length_le _ _ _ _) hf
  · rw [hshow]
    rfl

/-- The character 0 is the end of the text. -/
theorem isText_char (m : Mem) (c : Byte) :
    (Where.buf (Function.update (Function.update (fun _ => 0) (prBuflen - 1) 0) (prBuflen - 2) c)
      (prBuflen - 2)).IsText m (if c = 0 then [] else [c]) := by
  split
  · rename_i h0
    simp [Where.IsText, Where.get, h0]
  · rename_i h0
    have hend : (Where.buf (Function.update (Function.update (fun _ => 0) (prBuflen - 1) 0)
        (prBuflen - 2) c) (prBuflen - 1)).IsText m [] := by
      simp [Where.IsText, Where.get, prBuflen]
    exact ⟨by simp [Where.get], h0, hend⟩

theorem turns_char (hf : 1 < fuel) {f : Flags} (hlj : f.lj = lj) (hws : f.ws = false) :
    Turns K str s (.text, [.arg ⟨lj, lz, s.givenWd, .char⟩])
      ((let (num, s) := St.vaArg { s with flags := { f with lz := false } }
        let buf := Function.update (Function.update (fun _ => 0) (prBuflen - 1) 0) (prBuflen - 2)
          (num.setWidth 8)
        s.emit2 K fuel (.buf buf (prBuflen - 2)) 1) >>= fun s => pure s.reset) := by
  subst hlj
  have hfill : ∀ b : Body, b.sign = false → b.len = 1 →
      fill2 { f with lz := false } s.givenWd 1 b.text = b.fill f.lj false s.givenWd := by
    intro b hsign hlen
    have h := fill_eq { f with lz := false } b s.givenWd (hsign.trans hws.symm)
    rw [Bool.and_false, show signText false = [] from rfl, List.nil_append, hlen] at h
    rw [← h, hws]
    rfl
  refine Turns.reset
    { s with flags := { f with lz := false }, args := after s.args 1, givenWd := 0 }
    ((emit2_eq (t := (Conv.body str .char (s.args 0)).text) ?_ ?_).trans ?_) rfl rfl
  · exact fun u v _ o _ => isText_char _ _
  · show (if (s.args 0).setWidth 8 = (0 : Byte) then [] else _).length < fuel
    split
    · exact Nat.zero_lt_of_lt hf
    · exact hf
  · rw [Directive.show, Conv.isNumber, Bool.and_false, ← hfill _ rfl rfl]
    rfl

theorem turns_string {f : Flags} (hlj : f.lj = lj) (hws : f.ws = false)
    (hf : (Directive.show str ⟨lj, lz, s.givenWd, .string⟩ (s.args 0)).length < fuel)
    (ht : During K (fun m => Str.IsStr m (s.args 0).toNat (str (s.args 0)))
      (Directive.show str ⟨lj, lz, s.givenWd, .string⟩ (s.args 0)) s.out) :
    Turns K str s (.text, [.arg ⟨lj, lz, s.givenWd, .string⟩])
      ((let (p, s) := St.vaArg { s with flags := { f with lz := false } }
        s.emit K fuel (.mem p.toNat)) >>= fun s => pure s.reset) := by
  subst hlj
  rw [Directive.show, Conv.isNumber, Bool.and_false] at hf ht
  have hlen : (Conv.body str .string (s.args 0)).len =
      if (Where.mem (s.args 0).toNat).isNull then 0 else (str (s.args 0)).length := by
    refine if_congr ?_ rfl rfl
    rw [Where.isNull, beq_iff_eq, ← BitVec.toNat_inj]
    rfl
  refine Turns.reset
    { s with flags := { f with lz := false }, args := after s.args 1, givenWd := 0 }
    ((emit_eq (b := Conv.body str .string (s.args 0)) ?_ (ht.imp fun m hm => isText_mem hm)
      ?_ hlen ?_).trans ?_) rfl rfl
  · exact hws.symm
  · exact Nat.lt_of_le_of_lt (Body.text_length_le _ _ _ _) hf
  · exact fun h => absurd (hws.symm.trans h) Bool.false_ne_true
  · rw [Directive.show, Conv.isNumber, Bool.and_false]
    rfl

theorem turns_conversion {c : Byte} (hc : K.mem s.out (s.fmt % 2 ^ 32) = c)
    (hflags : s.flags.Open lj lz)
    (hf : (render str ((conversion c).map fun v => .arg ⟨lj, lz, s.givenWd, v⟩).toList s.args).length +
      1 < fuel)
    (ht : During K (Texts str (pointers ((conversion c).map fun v =>
        .arg ⟨lj, lz, s.givenWd, v⟩).toList s.args))
      (render str ((conversion c).map fun v => .arg ⟨lj, lz, s.givenWd, v⟩).toList s.args) s.out) :
    Turns K str s (.text, ((conversion c).map fun v => .arg ⟨lj, lz, s.givenWd, v⟩).toList)
      (s.caseConversion K fuel) := by
  obtain ⟨hlj, hlz, hca, hsg, hws⟩ := hflags
  have hone : ∀ d : Directive, render str [.arg d] s.args = d.show str (s.args 0) :=
    fun d => List.append_nil _
  rw [St.caseConversion, hc]
  rw [conversion] at hf ht ⊢
  by_cases hX : c = ch 'X'
  · simp only [if_pos hX, Option.map_some, Option.toList_some, hone] at hf ⊢
    exact turns_number (by decide) (by decide) (by omega) hlj hlz rfl hsg hws
  simp only [if_neg hX] at hf ht ⊢
  by_cases hx : c = ch 'x' ∨ c = ch 'p' ∨ c = ch 'n'
  · simp only [if_pos hx, Option.map_some, Option.toList_some, hone] at hf ⊢
    exact turns_number (by decide) (by decide) (by omega) hlj hlz hca hsg hws
  simp only [if_neg hx] at hf ht ⊢
  by_cases hd : c = ch 'd' ∨ c = ch 'i'
  · simp only [if_pos hd, Option.map_some, Option.toList_some, hone] at hf ⊢
    exact turns_number (by decide) (by decide) (by omega) hlj hlz hca rfl hws
  simp only [if_neg hd] at hf ht ⊢
  by_cases hu : c = ch 'u'
  · simp only [if_pos hu, Option.map_some, Option.toList_some, hone] at hf ⊢
    exact turns_number (by decide) (by decide) (by omega) hlj hlz hca hsg hws
  simp only [if_neg hu] at hf ht ⊢
  by_cases ho : c = ch 'o'
  · simp only [if_pos ho, Option.map_some, Option.toList_some, hone] at hf ⊢
    exact turns_number (by decide) (by decide) (by omega) hlj hlz hca hsg hws
  simp only [if_neg ho] at hf ht ⊢
  by_cases hc' : c = ch 'c'
  · simp only [if_pos hc', Option.map_some, Option.toList_some] at hf ⊢
    exact turns_char (by omega) hlj hws
  simp only [if_neg hc'] at hf ht ⊢
  by_cases hs : c = ch 's'
  · simp only [if_pos hs, Option.map_some, Option.toList_some, hone] at hf ht ⊢
    refine turns_string hlj hws (by omega) (ht.imp fun m hm => hm _ ?_)
    rw [pointers, if_pos rfl]
    exact List.mem_append_left _ (List.mem_singleton_self _)
  · simp only [if_neg hs, Option.map_none, Option.toList_none]
    exact turns_ok s.reset rfl rfl (at_reset s) rfl rfl

theorem turns_finish {c : Byte} (hc : K.mem s.out (s.fmt % 2 ^ 32) = c) (hflags : s.flags.Open lj lz)
    (hstate : s.state = .modifier)
    (hf : (render str (finish lj lz s.givenWd c).2 s.args).length + 1 < fuel)
    (ht : During K (Texts str (pointers (finish lj lz s.givenWd c).2 s.args))
      (render str (finish lj lz s.givenWd c).2 s.args) s.out) :
    Turns K str s (finish lj lz s.givenWd c) (s.caseModifier K fuel) := by
  rw [St.caseModifier, hc]
  rw [finish] at hf ht ⊢
  by_cases hmod : isModifier c
  · rw [if_pos hmod]
    have hturn : ∀ f : Flags, f.Open lj lz → Turns K str s (.modifier lj lz s.givenWd, [])
        (.ok { s with flags := f }) :=
      fun f hf => turns_ok _ rfl rfl ⟨hstate, hf, rfl⟩ rfl rfl
    by_cases hF : c = ch 'F'
    · simp only [if_pos hF]
      exact hturn _ hflags
    by_cases hN : c = ch 'N'
    · simp only [if_neg hF, if_pos hN]
      exact hturn s.flags hflags
    by_cases hl : c = ch 'l'
    · simp only [if_neg hF, if_neg hN, if_pos hl]
      exact hturn _ hflags
    have hh : c = ch 'h' := by simpa [isModifier, hF, hN, hl] using hmod
    simp only [if_neg hF, if_neg hN, if_neg hl, if_pos hh]
    exact hturn _ hflags
  · rw [if_neg hmod] at hf ht ⊢
    simp only [isModifier, Bool.or_eq_true, decide_eq_true_eq, not_or] at hmod
    obtain ⟨⟨⟨hF, hN⟩, hl⟩, hh⟩ := hmod
    simp only [if_neg hF, if_neg hN, if_neg hl, if_neg hh]
    have h : Turns K str { s with state := .conversion } (.text, ((conversion c).map fun v =>
        .arg ⟨lj, lz, s.givenWd, v⟩).toList) (St.caseConversion K fuel { s with state := .conversion }) :=
      turns_conversion hc hflags hf ht
    exact h.congr rfl rfl rfl rfl

theorem turns_field {c : Byte} (hc : K.mem s.out (s.fmt % 2 ^ 32) = c) (hflags : s.flags.Open lj lz)
    (hstate : s.state = .width)
    (hf : (render str (field lj lz s.givenWd c).2 s.args).length + 1 < fuel)
    (ht : During K (Texts str (pointers (field lj lz s.givenWd c).2 s.args))
      (render str (field lj lz s.givenWd c).2 s.args) s.out) :
    Turns K str s (field lj lz s.givenWd c) (s.caseWidth K fuel) := by
  rw [St.caseWidth, hc]
  rw [field] at hf ht ⊢
  by_cases hd : 0x30 ≤ c.toNat ∧ c.toNat ≤ 0x39
  · have hdig : isDigit c = true := by simpa [isDigit] using hd
    simp only [if_pos hd, if_pos hdig]
    exact turns_ok _ rfl rfl ⟨hstate, hflags, rfl⟩ rfl rfl
  · have hdig : ¬ isDigit c = true := by simpa [isDigit] using hd
    simp only [if_neg hd, if_neg hdig] at hf ht ⊢
    have h : Turns K str { s with state := .modifier } (finish lj lz s.givenWd c)
        (St.caseModifier K fuel { s with state := .modifier }) :=
      turns_finish hc hflags rfl hf ht
    exact h.congr rfl rfl rfl rfl

variable (lj) in
/-- `case 1` at a character that is no flag `0`. -/
theorem turns_flags {c : Byte} (hc : K.mem s.out (s.fmt % 2 ^ 32) = c) (hflags : s.flags.Open lj false)
    (hstate : s.state = .flags) (hwd : s.givenWd = 0) (h0 : c ≠ ch '0')
    (hf : (render str ((if lj then Scan.dash else .percent).step c).2 s.args).length + 1 < fuel)
    (ht : During K (Texts str (pointers ((if lj then Scan.dash else .percent).step c).2 s.args))
      (render str ((if lj then Scan.dash else .percent).step c).2 s.args) s.out) :
    Turns K str s ((if lj then Scan.dash else .percent).step c) (s.caseFlags K fuel) := by
  have hstep : (if lj then Scan.dash else .percent).step c =
      if c = ch '%' then (.text, [.lit c])
      else if c = ch '-' then (if lj then .text else .dash, []) else field lj false s.givenWd c := by
    rw [hwd]
    cases lj with
    | true => simp only [if_true, Scan.step, if_neg h0]
    | false => simp only [Bool.false_eq_true, if_false, Scan.step, if_neg h0]
  rw [St.caseFlags, hc]
  rw [hstep] at hf ht ⊢
  by_cases hp : c = ch '%'
  · simp only [if_pos hp]
    refine ⟨s.reset, ?_, at_reset s, rfl, rfl⟩
    rw [put_eq, wrote_reset]
    rfl
  simp only [if_neg hp] at hf ht ⊢
  by_cases hm : c = ch '-'
  · simp only [if_pos hm, hflags.1]
    cases lj with
    | true => exact turns_ok s.reset rfl rfl (at_reset s) rfl rfl
    | false =>
      obtain ⟨_, hlz, hca, hsg, hws⟩ := hflags
      exact turns_ok _ rfl rfl ⟨hstate, ⟨rfl, hlz, hca, hsg, hws⟩, hwd⟩ rfl rfl
  · simp only [if_neg hm, if_neg h0] at hf ht ⊢
    have h : Turns K str { s with state := .width } (field lj false s.givenWd c)
        (St.caseWidth K fuel { s with state := .width }) :=
      turns_field hc hflags rfl hf ht
    exact h.congr rfl rfl rfl rfl

end Case

/-! ## An iteration -/

/-- The rest `r` of the format and the texts it prints are in memory while it is printed. -/
structure Legible (K : Sink σ ε) (str : Word → List Byte) (fuel : Nat) (q : Scan) (r : List Byte)
    (s : St σ) : Prop where
  fuel : (render str (q.pieces r) s.args).length + 1 < fuel
  texts : During K (fun m => Str.IsStr m s.fmt r ∧ Texts str (pointers (q.pieces r) s.args) m)
    (render str (q.pieces r) s.args) s.out

theorem isStr_drop {m : Mem} : ∀ {p r : List Byte} {a : Nat}, Str.IsStr m a (p ++ r) →
    Str.IsStr m (a + p.length) r := by
  intro p
  induction p with
  | nil => intro r a h; exact h
  | cons c p ih =>
    intro r a h
    rw [List.length_cons, Nat.add_comm p.length 1, ← Nat.add_assoc]
    exact ih h.2.2

section Iteration

variable {str : Word → List Byte} {fuel : Nat} {q : Scan} {s : St σ}

theorem Legible.isStr {r : List Byte} (h : Legible K str fuel q r s) :
    Str.IsStr (K.mem s.out) s.fmt r := h.texts.head.1

/-- What the part `p` of the format needs. -/
theorem Legible.part {p r : List Byte} (h : Legible K str fuel q (p ++ r) s) :
    (render str (q.pieces p) s.args).length + 1 < fuel ∧
      During K (Texts str (pointers (q.pieces p) s.args)) (render str (q.pieces p) s.args) s.out := by
  obtain ⟨hf, ht⟩ := h
  rw [Scan.pieces_append, render_append] at hf ht
  rw [List.length_append] at hf
  refine ⟨by omega, ht.split.1.imp fun m hm w hw => hm.2 w ?_⟩
  rw [pointers_append]
  exact List.mem_append_left _ hw

/-- What the rest of the format needs behind `p`. -/
theorem Legible.rest {p r : List Byte} (s₁ : St σ) (h : Legible K str fuel q (p ++ r) s)
    (hout : K.feed (render str (q.pieces p) s.args) s.out = .ok s₁.out)
    (hargs : s₁.args = after s.args (argCount (q.pieces p))) (hfmt : s₁.fmt = s.fmt + p.length) :
    Legible K str fuel (q.last p) r s₁ := by
  obtain ⟨hf, ht⟩ := h
  rw [Scan.pieces_append, render_append, ← hargs] at hf ht
  rw [List.length_append] at hf
  refine ⟨by omega, (ht.split.2 _ hout).imp fun m hm => ⟨?_, fun w hw => hm.2 w ?_⟩⟩
  · rw [hfmt]
    exact isStr_drop hm.1
  · rw [pointers_append, ← hargs]
    exact List.mem_append_right _ hw

/-- An iteration from `s` reads the part `p` of the format. It ends at the last character of `p`, or
at the terminator if the format ends at a place that overruns. -/
def Reads (q : Scan) (p r : List Byte) (s s₁ : St σ) : Prop :=
  s₁.args = after s.args (argCount (q.pieces p)) ∧
    ((At (q.last p) s₁ ∧ (q.last p).overruns = false ∧ p ≠ [] ∧ s₁.fmt + 1 = s.fmt + p.length) ∨
      (At .text s₁ ∧ (q.last p).overruns = true ∧ r = [] ∧ s₁.fmt = s.fmt + p.length))

theorem Scan.pieces_one (q : Scan) (c : Byte) : q.pieces [c] = (q.step c).2 :=
  List.append_nil _

/-- One character that has been read. -/
theorem Turns.reads {c : Byte} {r : List Byte} {x : Except (Halt ε) (St σ)}
    (h : Turns K str s (q.step c) x) (ho : (q.step c).1.overruns = false) :
    ∃ s₁, x = wrote K (render str (q.pieces [c]) s.args) s s₁ ∧ Reads q [c] r s s₁ := by
  obtain ⟨s₁, hx, hat, hfmt, hargs⟩ := h
  rw [← Scan.pieces_one] at hx hargs
  exact ⟨s₁, hx, hargs, .inl ⟨hat, ho, List.cons_ne_nil _ _, congrArg (· + 1) hfmt⟩⟩

theorem finish_overruns (lj lz : Bool) (n : Nat) (c : Byte) :
    (finish lj lz n c).1.overruns = false := by
  rw [finish]
  split
  · rfl
  · rfl

theorem field_overruns (lj lz : Bool) (n : Nat) (c : Byte) :
    (field lj lz n c).1.overruns = false := by
  rw [field]
  split
  · rfl
  · exact finish_overruns lj lz n c

theorem flags_overruns (lj : Bool) {c : Byte} (h0 : c ≠ ch '0') :
    ((if lj then Scan.dash else .percent).step c).1.overruns = false := by
  cases lj with
  | true =>
    simp only [if_true, Scan.step, if_neg h0]
    split
    · rfl
    · split
      · rfl
      · exact field_overruns _ _ _ c
  | false =>
    simp only [Bool.false_eq_true, if_false, Scan.step, if_neg h0]
    split
    · rfl
    · split
      · rfl
      · exact field_overruns _ _ _ c

/-- A character in front that prints nothing and goes on in the same iteration. -/
theorem Reads.cons {q' : Scan} {c : Byte} {p r : List Byte} {s' s₁ : St σ} (h : Reads q' p r s' s₁)
    (hstep : q.step c = (q', [])) (hargs : s'.args = s.args) (hfmt : s'.fmt = s.fmt + 1) :
    Reads q (c :: p) r s s₁ := by
  obtain ⟨hargs₁, h⟩ := h
  rw [hargs] at hargs₁
  rw [hfmt, Nat.add_assoc, Nat.add_comm 1] at h
  rw [Reads, Scan.pieces, Scan.last, hstep, List.nil_append]
  refine ⟨hargs₁, ?_⟩
  obtain ⟨hat, ho, _, hlen⟩ | hend := h
  · exact .inl ⟨hat, ho, List.cons_ne_nil _ _, hlen⟩
  · exact .inr hend

theorem Legible.tail {q' : Scan} {c : Byte} {r : List Byte} (s' : St σ)
    (h : Legible K str fuel q (c :: r) s) (hstep : q.step c = (q', [])) (hout : s'.out = s.out)
    (hargs : s'.args = s.args) (hfmt : s'.fmt = s.fmt + 1) : Legible K str fuel q' r s' := by
  have hpieces : q.pieces [c] = [] := by rw [Scan.pieces_one, hstep]
  have hrest := Legible.rest (p := [c]) s' h (by rw [hpieces, hout]; rfl)
    (by rw [hpieces, hargs]; rfl) hfmt
  rwa [Scan.last, hstep] at hrest

theorem during_nil {P : Mem → Prop} {o : σ} (h : P (K.mem o)) : During K P [] o := by
  intro u v huv o' ho'
  obtain ⟨rfl, -⟩ := List.append_eq_nil_iff.mp huv.symm
  cases ho'
  exact h

theorem texts_nil (m : Mem) : Texts str [] m := fun _ hp => absurd hp List.not_mem_nil

/-- `case 2`, at the characters `r` behind the flag `0`. -/
theorem zero_reads {lj : Bool} {r : List Byte} (hleg : Legible K str fuel (.zero lj) r s)
    (hstate : s.state = .width) (hflags : s.flags.Open lj true) (hwd : s.givenWd = 0) :
    ∃ p r' s₁, r = p ++ r' ∧
      s.caseWidth K fuel = wrote K (render str ((Scan.zero lj).pieces p) s.args) s s₁ ∧
      Reads (.zero lj) p r' s s₁ := by
  cases r with
  | nil =>
    have hend : field lj true s.givenWd 0 = (.text, []) := by
      rw [hwd]
      cases lj with
      | true => rfl
      | false => rfl
    have h := turns_field (K := K) hleg.isStr hflags hstate (by rw [hend]; exact hleg.fuel)
      (by rw [hend]; exact during_nil (texts_nil _))
    rw [hend] at h
    obtain ⟨s₁, hx, hat, hfmt, hargs⟩ := h
    exact ⟨[], [], s₁, rfl, hx, hargs, .inr ⟨hat, rfl, rfl, hfmt⟩⟩
  | cons c r =>
    have hpart := hleg.part (p := [c])
    rw [Scan.pieces_one, Scan.step, ← hwd] at hpart
    have h := turns_field hleg.isStr.1 hflags hstate hpart.1 hpart.2
    rw [hwd] at h
    obtain ⟨s₁, hx, hreads⟩ := Turns.reads (q := .zero lj) (r := r) h (field_overruns lj true 0 c)
    exact ⟨[c], r, s₁, rfl, hx, hreads⟩

/-- `case 1`, at the characters `r` behind `%` or `%-`. -/
theorem flags_reads (lj : Bool) {r : List Byte}
    (hleg : Legible K str fuel (if lj then Scan.dash else .percent) r s) (hstate : s.state = .flags)
    (hflags : s.flags.Open lj false) (hwd : s.givenWd = 0) (hr : r = [] → lj = false) :
    ∃ p r' s₁, r = p ++ r' ∧ s.caseFlags K fuel =
        wrote K (render str ((if lj then Scan.dash else .percent).pieces p) s.args) s s₁ ∧
      Reads (if lj then Scan.dash else .percent) p r' s s₁ := by
  cases r with
  | nil =>
    have hlj := hr rfl
    subst hlj
    obtain ⟨s₁, hx, hat, hfmt, hargs⟩ := turns_flags false hleg.isStr hflags hstate hwd
      (by decide) hleg.fuel (during_nil (texts_nil _))
    exact ⟨[], [], s₁, rfl, hx, hargs, .inr ⟨hat, rfl, rfl, hfmt⟩⟩
  | cons c r =>
    have hc : K.mem s.out (s.fmt % 2 ^ 32) = c := hleg.isStr.1
    by_cases h0 : c = ch '0'
    · subst h0
      have hstep : (if lj then Scan.dash else .percent).step (ch '0') = (.zero lj, []) := by
        cases lj with
        | true => rfl
        | false => rfl
      have hcase : s.caseFlags K fuel = St.caseWidth K fuel { s with
          state := .width, flags := { s.flags with lz := true }, fmt := s.fmt + 1 } := by
        rw [St.caseFlags, hc]
        rfl
      have hopen : Flags.Open { s.flags with lz := true } lj true :=
        ⟨hflags.1, rfl, hflags.2.2.1, hflags.2.2.2.1, hflags.2.2.2.2⟩
      obtain ⟨p, r', s₁, hp, hx, hreads⟩ := zero_reads
        (hleg.tail { s with state := .width, flags := { s.flags with lz := true }, fmt := s.fmt + 1 }
          hstep rfl rfl rfl) rfl hopen hwd
      refine ⟨ch '0' :: p, r', s₁, by rw [hp]; rfl, ?_, hreads.cons hstep rfl rfl⟩
      rw [hcase, Scan.pieces, hstep]
      exact hx
    · have hpart := hleg.part (p := [c])
      rw [Scan.pieces_one] at hpart
      obtain ⟨s₁, hx, hreads⟩ := (turns_flags _ hc hflags hstate hwd h0 hpart.1 hpart.2).reads (r := r)
        (flags_overruns lj h0)
      exact ⟨[c], r, s₁, rfl, hx, hreads⟩

/-- The `switch` of an iteration. -/
theorem switch_reads {c : Byte} {r : List Byte} (hleg : Legible K str fuel q (c :: r) s)
    (hat : At q s) (hq : q.overruns = false) :
    ∃ p r' s₁, c :: r = p ++ r' ∧
      s.switch K fuel = wrote K (render str (q.pieces p) s.args) s s₁ ∧ Reads q p r' s s₁ := by
  have hc : K.mem s.out (s.fmt % 2 ^ 32) = c := hleg.isStr.1
  have hpart := hleg.part (p := [c])
  rw [Scan.pieces_one] at hpart
  cases q with
  | text =>
    obtain ⟨hstate, hflags, hwd⟩ := hat
    rw [St.switch, hstate]
    simp only [St.casePercent, hc]
    by_cases hp : c = ch '%'
    · subst hp
      rw [if_neg (not_not.mpr rfl)]
      have hopen : s.flags.Open false false := by
        rw [hflags]
        exact ⟨rfl, rfl, rfl, rfl, rfl⟩
      obtain ⟨p, r', s₁, hr, hx, hreads⟩ := flags_reads false
        (hleg.tail { s with state := .flags, fmt := s.fmt + 1 } rfl rfl rfl rfl) rfl hopen hwd
        fun _ => rfl
      exact ⟨ch '%' :: p, r', s₁, by rw [hr]; rfl, hx, hreads.cons rfl rfl rfl⟩
    · rw [if_pos hp, put_eq]
      have hstep : Scan.text.step c = (.text, [.lit c]) := if_neg hp
      refine ⟨[c], r, s, rfl, ?_, ?_⟩
      · rw [Scan.pieces_one, hstep]
        rfl
      · rw [Reads, Scan.pieces_one, Scan.last, hstep]
        exact ⟨rfl, .inl ⟨⟨hstate, hflags, hwd⟩, rfl, List.cons_ne_nil _ _, rfl⟩⟩
  | percent => cases hq
  | zero lj => cases hq
  | dash =>
    obtain ⟨hstate, hflags, hwd⟩ := hat
    rw [St.switch, hstate]
    exact flags_reads true hleg hstate hflags hwd fun h => absurd h (List.cons_ne_nil _ _)
  | width lj lz n =>
    obtain ⟨hstate, hflags, rfl⟩ := hat
    rw [St.switch, hstate]
    obtain ⟨s₁, hx, hreads⟩ := Turns.reads (q := .width lj lz s.givenWd) (r := r)
      (turns_field hc hflags hstate hpart.1 hpart.2) (field_overruns lj lz s.givenWd c)
    exact ⟨[c], r, s₁, rfl, hx, hreads⟩
  | modifier lj lz n =>
    obtain ⟨hstate, hflags, rfl⟩ := hat
    rw [St.switch, hstate]
    obtain ⟨s₁, hx, hreads⟩ := Turns.reads (q := .modifier lj lz s.givenWd) (r := r)
      (turns_finish hc hflags hstate hpart.1 hpart.2) (finish_overruns lj lz s.givenWd c)
    exact ⟨[c], r, s₁, rfl, hx, hreads⟩

/-! ## The loop -/

/-- The loop stands behind the format `r`: at the terminator, or behind it. -/
def Behind (q : Scan) (r : List Byte) (s s₁ : St σ) : Prop :=
  s₁.args = after s.args (argCount (q.pieces r)) ∧
    (((q.last r).overruns = false ∧ s₁.fmt = s.fmt + r.length) ∨
      (At .text s₁ ∧ (q.last r).overruns = true ∧ s₁.fmt = s.fmt + r.length + 1))

theorem Behind.append {p r : List Byte} {s₁ s₂ : St σ} (h : Behind (q.last p) r s₁ s₂)
    (hargs : s₁.args = after s.args (argCount (q.pieces p))) (hfmt : s₁.fmt = s.fmt + p.length) :
    Behind q (p ++ r) s s₂ := by
  obtain ⟨hargs₂, h⟩ := h
  rw [hfmt] at h
  rw [Behind, Scan.pieces_append, Scan.last_append, argCount_append, List.length_append,
    ← Nat.add_assoc]
  exact ⟨by rw [hargs₂, hargs, after_after], h⟩

/-- The loop prints the text `t` of the format and stands behind it, or stops where `fn` does. -/
def Runs (K : Sink σ ε) (fuel : Nat) (q : Scan) (r t : List Byte) (s : St σ) : Prop :=
  match K.feed t s.out with
  | .ok o => ∃ n ≤ r.length, ∃ s₁, s₁.out = o ∧ s₁.count = s.count + BitVec.ofNat 32 t.length ∧
      Behind q r s s₁ ∧ ∀ i, s.scanLoop K fuel (i + n) = s₁.scanLoop K fuel i
  | .error e => ∃ n ≤ r.length, ∀ i, s.scanLoop K fuel (i + n) = .error (.fn e)

theorem At.moved {s₁ : St σ} {n x : Nat} {o : σ} (h : At q s₁) :
    At q { s.grown s₁ n o with fmt := x } := by
  cases q <;> exact h

theorem runs_nil (hq : q.overruns = false) : Runs K fuel q [] [] s :=
  ⟨0, Nat.le_refl 0, s, rfl, (BitVec.add_zero _).symm, ⟨rfl, .inl ⟨hq, rfl⟩⟩, fun _ => rfl⟩

/-- An iteration in front of the rest of the format. -/
theorem Runs.cons {p r t u : List Byte} (s₁ : St σ) {o : σ} (hp : p ≠ [])
    (ho : K.feed t s.out = .ok o) (hout : s₁.out = o)
    (hcount : s₁.count = s.count + BitVec.ofNat 32 t.length)
    (hargs : s₁.args = after s.args (argCount (q.pieces p))) (hfmt : s₁.fmt = s.fmt + p.length)
    (hloop : ∀ i, s.scanLoop K fuel (i + 1) = s₁.scanLoop K fuel i)
    (h : Runs K fuel (q.last p) r u s₁) : Runs K fuel q (p ++ r) (t ++ u) s := by
  have hlen : ∀ n ≤ r.length, n + 1 ≤ (p ++ r).length := by
    intro n hn
    have hpos := List.length_pos_iff.mpr hp
    rw [List.length_append]
    omega
  rw [Runs, hout] at h
  rw [Runs, feed_append, ho, Machine.ok_bind]
  cases hu : K.feed u o with
  | error e =>
    rw [hu] at h
    obtain ⟨n, hn, hend⟩ := h
    refine ⟨n + 1, hlen n hn, fun i => ?_⟩
    rw [← Nat.add_assoc, hloop, hend]
  | ok o' =>
    rw [hu] at h
    obtain ⟨n, hn, s₂, hout₂, hcount₂, hbehind, hend⟩ := h
    refine ⟨n + 1, hlen n hn, s₂, hout₂, ?_, hbehind.append hargs hfmt, fun i => ?_⟩
    · rw [hcount₂, hcount, List.length_append, BitVec.ofNat_add, BitVec.add_assoc]
    · rw [← Nat.add_assoc, hloop, hend]

theorem scanLoop_runs : ∀ {k : Nat} {r : List Byte} {q : Scan} {s : St σ}, r.length ≤ k →
    Legible K str fuel q r s → At q s → q.overruns = false →
    Runs K fuel q r (render str (q.pieces r) s.args) s := by
  intro k
  induction k with
  | zero =>
    intro r q s hk _ _ hq
    obtain rfl := List.eq_nil_of_length_eq_zero (Nat.le_zero.mp hk)
    exact runs_nil hq
  | succ k ih =>
    intro r q s hk hleg hat hq
    cases r with
    | nil => exact runs_nil hq
    | cons c r =>
      obtain ⟨hc, hne, _⟩ := hleg.isStr
      obtain ⟨p, r', s₁, hr, hx, hargs, hreads⟩ := switch_reads hleg hat hq
      rw [hr] at hleg hk ⊢
      rw [List.length_append] at hk
      rw [Scan.pieces_append, render_append]
      have hloop : ∀ i, s.scanLoop K fuel (i + 1) =
          s.switch K fuel >>= fun s => St.scanLoop K fuel i { s with fmt := s.fmt + 1 } := by
        intro i
        rw [St.scanLoop, hc, if_pos hne]
      cases ho : K.feed (render str (q.pieces p) s.args) s.out with
      | error e =>
        rw [wrote, ho] at hx
        rw [Runs, feed_append, ho]
        refine ⟨1, ?_, fun i => by rw [hloop, hx]; rfl⟩
        rw [← hr]
        exact Nat.le_add_left 1 _
      | ok o =>
        rw [wrote, ho] at hx
        let s₂ : St σ :=
          { s.grown s₁ (render str (q.pieces p) s.args).length o with fmt := s₁.fmt + 1 }
        have hloop₂ : ∀ i, s.scanLoop K fuel (i + 1) = s₂.scanLoop K fuel i :=
          fun i => by rw [hloop, hx]; rfl
        obtain ⟨hat₁, hover, hp, hfmt⟩ | ⟨hat₁, hover, rfl, hfmt⟩ := hreads
        · have hp' := List.length_pos_iff.mpr hp
          rw [← hargs]
          exact Runs.cons s₂ hp ho rfl rfl hargs hfmt hloop₂
            (ih (by omega) (hleg.rest s₂ ho hargs hfmt) hat₁.moved hover)
        · -- the terminator has been read, and `fmt++` goes behind it
          have hp : 1 ≤ p.length := by
            rw [← List.append_nil p, ← hr]
            exact Nat.le_add_left 1 _
          simp only [List.append_nil, Scan.pieces, render]
          rw [Runs, ho]
          exact ⟨1, hp, s₂, rfl, rfl, ⟨hargs, .inr ⟨hat₁.moved, hover, congrArg (· + 1) hfmt⟩⟩, hloop₂⟩

end Iteration

/-! ## `do_printf` -/

/-- The strings one behind the other. -/
def Strings (m : Mem) : Nat → List (List Byte) → Prop
  | _, [] => True
  | a, fs :: rest => Str.IsStr m a fs ∧ Strings m (a + fs.length + 1) rest

/-- Each string but the last one runs on into the next. -/
def Chained : List (List Byte) → Prop
  | [] => False
  | fs :: rest => if (Scan.text.last fs).overruns then Chained rest else rest = []

/-- The text of the strings, each one taking its arguments behind those of the one before. -/
def chainText (str : Word → List Byte) : List (List Byte) → (Nat → Word) → List Byte
  | [], _ => []
  | fs :: rest, args =>
    format str fs args ++ chainText str rest (after args (argCount (Scan.text.pieces fs)))

def chainPointers : List (List Byte) → (Nat → Word) → List Word
  | [], _ => []
  | fs :: rest, args => pointers (Scan.text.pieces fs) args ++
    chainPointers rest (after args (argCount (Scan.text.pieces fs)))

/-- The strings and the texts of their `%s` are in memory, and stay there while they are printed. -/
def Readable (K : Sink σ ε) (str : Word → List Byte) (fmt : Nat) (fss : List (List Byte))
    (args : Nat → Word) (out : σ) : Prop :=
  During K (fun m => Strings m fmt fss ∧ Texts str (chainPointers fss args) m)
    (chainText str fss args) out

section Printf

variable {str : Word → List Byte} {fuel fmt : Nat} {args : Nat → Word} {out : σ}

/-- Output that does not change the memory the format is in. -/
theorem readable_const {m : Mem} {fss : List (List Byte)} (hK : ∀ o, K.mem o = m)
    (h : Strings m fmt fss) (ht : Texts str (chainPointers fss args) m) :
    Readable K str fmt fss args out :=
  during_const hK ⟨h, ht⟩

theorem Readable.first {fs : List Byte} {rest : List (List Byte)}
    (h : Readable K str fmt (fs :: rest) args out) :
    During K (fun m => Str.IsStr m fmt fs ∧ Texts str (pointers (Scan.text.pieces fs) args) m)
      (format str fs args) out :=
  (During.split h).1.imp fun _ hm => ⟨hm.1.1, fun p hp => hm.2 p (List.mem_append_left _ hp)⟩

theorem Readable.rest {fs : List Byte} {rest : List (List Byte)} {o : σ}
    (h : Readable K str fmt (fs :: rest) args out) (ho : K.feed (format str fs args) out = .ok o) :
    Readable K str (fmt + fs.length + 1) rest (after args (argCount (Scan.text.pieces fs))) o :=
  ((During.split h).2 o ho).imp fun _ hm => ⟨hm.1.2, fun p hp => hm.2 p (List.mem_append_right _ hp)⟩

/-- The terminator is still there when the text has been printed. -/
theorem Readable.terminator {fs : List Byte} {o : σ} (h : Readable K str fmt [fs] args out)
    (ho : K.feed (format str fs args) out = .ok o) : K.mem o ((fmt + fs.length) % 2 ^ 32) = 0 := by
  have hstr := (h.first _ [] (List.append_nil _).symm o ho).1
  rw [← List.append_nil fs] at hstr
  exact isStr_drop hstr

/-- The number of bytes of the strings, with their terminators. -/
def size (fss : List (List Byte)) : Nat := (fss.map fun fs => fs.length + 1).sum

theorem scanLoop_chain : ∀ {fss : List (List Byte)} {s : St σ}, At .text s → Chained fss →
    Readable K str s.fmt fss s.args s.out → (chainText str fss s.args).length + 1 < fuel →
    ∃ n ≤ size fss, ∀ i, (s.scanLoop K fuel (i + n) >>= fun s => pure (s.count, s.out)) =
      match K.feed (chainText str fss s.args) s.out with
      | .ok o => .ok (s.count + BitVec.ofNat 32 (chainText str fss s.args).length, o)
      | .error e => .error (.fn e) := by
  intro fss
  induction fss with
  | nil => intro s _ hchain _ _; exact absurd hchain id
  | cons fs rest ih =>
    intro s hat hchain hread hf
    have hsize : size (fs :: rest) = fs.length + 1 + size rest := by
      rw [size, List.map_cons, List.sum_cons]
      rfl
    rw [chainText, List.length_append] at hf
    have hrun : Runs K fuel .text fs (format str fs s.args) s :=
      scanLoop_runs (Nat.le_refl fs.length) ⟨by rw [← format]; omega, hread.first⟩ hat rfl
    rw [Runs] at hrun
    rw [chainText, feed_append]
    cases ho : K.feed (format str fs s.args) s.out with
    | error e =>
      simp only [ho] at hrun
      obtain ⟨n, hn, hend⟩ := hrun
      exact ⟨n, by omega, fun i => by rw [hend]; rfl⟩
    | ok o =>
      simp only [ho] at hrun
      obtain ⟨n, hn, s₁, hout, hcount, ⟨hargs, hbehind⟩, hend⟩ := hrun
      rw [Machine.ok_bind]
      rw [Chained] at hchain
      obtain ⟨hover, hfmt⟩ | ⟨hat₁, hover, hfmt⟩ := hbehind
      · rw [if_neg (by rw [hover]; exact Bool.false_ne_true)] at hchain
        subst hchain
        have h0 : K.mem s₁.out (s₁.fmt % 2 ^ 32) = 0 := by
          rw [hout, hfmt]
          exact hread.terminator ho
        refine ⟨n + 1, by omega, fun i => ?_⟩
        rw [Nat.add_comm n 1, ← Nat.add_assoc, hend, St.scanLoop, if_neg (not_not.mpr h0),
          chainText, Sink.feed, List.append_nil, ← hcount, ← hout]
        rfl
      · rw [if_pos hover] at hchain
        have hrest := hread.rest ho
        rw [← hargs, ← hout, ← hfmt] at hrest
        rw [← hargs] at hf ⊢
        obtain ⟨n', hn', hend'⟩ := ih hat₁ hchain hrest (by omega)
        refine ⟨n' + n, by omega, fun i => ?_⟩
        rw [← Nat.add_assoc, hend, hend', hout, hcount, List.length_append, BitVec.ofNat_add,
          BitVec.add_assoc]

theorem doPrintf_of_chain {fss : List (List Byte)} (h : Readable K str fmt fss args out)
    (hchain : Chained fss) (hf : size fss + (chainText str fss args).length + 1 < fuel) :
    doPrintf K fuel fmt args out = match K.feed (chainText str fss args) out with
      | .ok o => .ok (BitVec.ofNat 32 (chainText str fss args).length, o)
      | .error e => .error (.fn e) := by
  obtain ⟨n, hn, hend⟩ := scanLoop_chain (s := { fmt := fmt, args := args, out := out })
    ⟨rfl, rfl, rfl⟩ hchain h (show _ + 1 < fuel by dsimp only; omega)
  have hloop := hend (fuel - n)
  rw [Nat.sub_add_cancel (by omega)] at hloop
  rw [doPrintf, hloop, show ∀ x : Word, 0 + x = x from BitVec.zero_add]

theorem chainText_one (fs : List Byte) : chainText str [fs] args = format str fs args :=
  List.append_nil _

/-- One string, which does not run on. -/
theorem doPrintf_eq {fs : List Byte} (h : Readable K str fmt [fs] args out)
    (ho : (Scan.text.last fs).overruns = false) :
    ∃ n, ∀ fuel, n ≤ fuel → doPrintf K fuel fmt args out =
      match K.feed (format str fs args) out with
      | .ok o => .ok (BitVec.ofNat 32 (format str fs args).length, o)
      | .error e => .error (.fn e) := by
  have hchain : Chained [fs] := by
    rw [Chained, if_neg (by rw [ho]; exact Bool.false_ne_true)]
  refine ⟨size [fs] + (chainText str [fs] args).length + 2, fun fuel hf => ?_⟩
  rw [← chainText_one]
  exact doPrintf_of_chain h hchain (by omega)

/-- **`do_printf` prints what the format says.** With enough fuel it gives the text of the format
to `fn`, one character after the other, and returns its length; if `fn` stops, so does it. A format
that ends in `%`, or in the flag `0`, runs on into the string behind its terminator, and only such
a format does. -/
theorem doPrintf_prints {fss : List (List Byte)} (h : Readable K str fmt fss args out)
    (hchain : Chained fss) : ∃ n, ∀ fuel, n ≤ fuel → doPrintf K fuel fmt args out =
      match K.feed (chainText str fss args) out with
      | .ok o => .ok (BitVec.ofNat 32 (chainText str fss args).length, o)
      | .error e => .error (.fn e) :=
  ⟨size fss + (chainText str fss args).length + 2, fun _ hf => doPrintf_of_chain h hchain (by omega)⟩

/-- The format `a%` in front of the string `b`. -/
theorem doPrintf_prints_behind : ∃ n, ∀ fuel, n ≤ fuel →
    doPrintf (vprintfBochs Empty (bytesAt 0x100 [ch 'a', ch '%', 0, ch 'b'])) fuel 0x100 (fun _ => 0) [] =
      .ok (2, [ch 'a', ch 'b']) := by
  have hread : Readable (vprintfBochs Empty (bytesAt 0x100 [ch 'a', ch '%', 0, ch 'b']))
      (fun _ => []) 0x100 [[ch 'a', ch '%'], [ch 'b']] (fun _ => 0) [] :=
    readable_const (vprintfBochs_mem _) ⟨by decide, by decide, trivial⟩ (texts_nil _)
  have hchain : Chained [[ch 'a', ch '%'], [ch 'b']] := by
    rw [Chained, if_pos (by decide), Chained, if_neg (by decide)]
  have htext : chainText (fun _ => []) [[ch 'a', ch '%'], [ch 'b']] (fun _ => 0) = [ch 'a', ch 'b'] := by
    decide
  have h := doPrintf_prints hread hchain
  rwa [htext, feed_vprintfBochs] at h

end Printf

end Printf
end Frod
