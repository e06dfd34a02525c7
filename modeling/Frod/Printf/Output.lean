import Frod.Vga.Text
import Frod.Printf.Items

/-!
# Frod.Printf.Output

Where the text of a format goes.

`sprintf` writes it to memory, from which the format and the strings are read while it does so. If
they are apart from the part of the buffer that is written, the buffer holds the text and a 0, and
nothing else has changed (`vsprintf_writes`). `kprintf` writes it to the console, which then shows
it (`kprintf_shows`), or to the port of the emulator, or nowhere if the level is below `DEBUG`.
-/

namespace Frod
namespace Printf

/-! ## Characters -/

/-- A piece whose characters are no terminators. -/
def Piece.Wf : Piece → Prop
  | .lit c => c ≠ 0
  | .arg d => match d.conv with
    | .number radix _ _ => 1 < radix ∧ radix ≤ 16
    | _ => True

theorem finish_wf (lj lz : Bool) (n : Nat) (c : Byte) : ∀ p ∈ (finish lj lz n c).2, p.Wf := by
  intro p hp
  rw [finish] at hp
  split at hp
  · cases hp
  · rw [Option.mem_toList, Option.map_eq_some_iff] at hp
    obtain ⟨v, hv, rfl⟩ := hp
    cases v with
    | number radix ca sg =>
      obtain ⟨hr, hr16⟩ := conversion_radix hv
      exact ⟨by omega, hr16⟩
    | char => trivial
    | string => trivial

theorem field_wf (lj lz : Bool) (n : Nat) (c : Byte) : ∀ p ∈ (field lj lz n c).2, p.Wf := by
  rw [field]
  split
  · intro p hp
    cases hp
  · exact finish_wf lj lz n c

theorem step_wf {c : Byte} (hc : c ≠ 0) (q : Scan) : ∀ p ∈ (q.step c).2, p.Wf := by
  have hlit : ∀ p ∈ [Piece.lit c], p.Wf := by
    intro p hp
    rw [List.mem_singleton.mp hp]
    exact hc
  have hnone : ∀ p ∈ ([] : List Piece), p.Wf := fun p hp => absurd hp List.not_mem_nil
  cases q with
  | text =>
    rw [Scan.step]
    split
    · exact hnone
    · exact hlit
  | percent =>
    rw [Scan.step]
    split
    · exact hlit
    · split
      · exact hnone
      · split
        · exact hnone
        · exact field_wf _ _ _ c
  | dash =>
    rw [Scan.step]
    split
    · exact hlit
    · split
      · exact hnone
      · split
        · exact hnone
        · exact field_wf _ _ _ c
  | zero lj => exact field_wf _ _ _ c
  | width lj lz n => exact field_wf _ _ _ c
  | modifier lj lz n => exact finish_wf _ _ _ c

theorem pieces_wf : ∀ {fs : List Byte} {q : Scan}, (∀ c ∈ fs, c ≠ 0) → ∀ p ∈ q.pieces fs, p.Wf := by
  intro fs
  induction fs with
  | nil => intro q _ p hp; cases hp
  | cons c fs ih =>
    intro q h p hp
    obtain ⟨hc, hfs⟩ := List.forall_mem_cons.mp h
    obtain hp | hp := List.mem_append.mp hp
    · exact step_wf hc q p hp
    · exact ih hfs p hp

/-- Padding and sign add no terminator. -/
theorem fill_ne_zero {b : Body} {lj lz : Bool} {width : Nat} (h : ∀ c ∈ b.text, c ≠ 0) :
    ∀ c ∈ b.fill lj lz width, c ≠ 0 := by
  have hpad : ∀ (k : Nat) (x : Byte), x ≠ 0 → ∀ c ∈ List.replicate k x, c ≠ 0 := by
    intro k x hx c hc
    rw [List.eq_of_mem_replicate hc]
    exact hx
  have hsign : ∀ c ∈ signText b.sign, c ≠ 0 := by
    cases b.sign <;> simp [signText, ch]
  intro c hc
  rw [Body.fill] at hc
  cases lj <;> cases lz <;>
    simp only [Bool.false_eq_true, if_false, if_true, List.mem_append] at hc
  all_goals
    rcases hc with (hc | hc) | hc
    all_goals first
      | exact h c hc
      | exact hsign c hc
      | exact hpad _ _ (by decide) c hc

theorem show_ne_zero {str : Word → List Byte} {d : Directive} {w : Word} (hd : (Piece.arg d).Wf)
    (hs : d.conv = .string → ∀ c ∈ str w, c ≠ 0) : ∀ c ∈ d.show str w, c ≠ 0 := by
  refine fill_ne_zero ?_
  rw [Piece.Wf] at hd
  cases hv : d.conv with
  | number radix ca sg =>
    rw [hv] at hd
    intro c hc
    obtain ⟨x, hx, rfl⟩ := List.mem_map.mp hc
    exact digit_ne_zero ca (Nat.lt_of_lt_of_le (digitsOf_lt hd.1 _ x hx) hd.2)
  | char =>
    intro c hc
    rw [Conv.body] at hc
    dsimp only at hc
    split at hc
    · cases hc
    · rename_i h0
      rw [List.mem_singleton.mp hc]
      exact h0
  | string => exact hs hv

theorem render_ne_zero {str : Word → List Byte} : ∀ {ps : List Piece} {args : Nat → Word},
    (∀ p ∈ ps, p.Wf) → (∀ p ∈ pointers ps args, ∀ c ∈ str p, c ≠ 0) →
    ∀ c ∈ render str ps args, c ≠ 0 := by
  intro ps
  induction ps with
  | nil => intro args _ _ c hc; cases hc
  | cons p ps ih =>
    intro args hw hs
    obtain ⟨hp, hps⟩ := List.forall_mem_cons.mp hw
    cases p with
    | lit c => exact List.forall_mem_cons.mpr ⟨hp, ih hps hs⟩
    | arg d =>
      intro c hc
      obtain hc | hc := List.mem_append.mp hc
      · refine show_ne_zero hp (fun hv => hs _ ?_) c hc
        rw [pointers, if_pos hv]
        exact List.mem_cons_self
      · exact ih hps (fun p hp => hs p (List.mem_append_right _ hp)) c hc

theorem isStr_ne_zero {m : Mem} {a : Nat} {t : List Byte} (h : Str.IsStr m a t) : ∀ c ∈ t, c ≠ 0 := by
  rintro c hc rfl
  exact h.zero_notMem hc

/-- The text of a format holds no terminator. -/
theorem format_ne_zero {str : Word → List Byte} {fs : List Byte} {args : Nat → Word} {m : Mem}
    {fmt : Nat} (hfs : Str.IsStr m fmt fs) (ht : Texts str (pointers (Scan.text.pieces fs) args) m) :
    ∀ c ∈ format str fs args, c ≠ 0 :=
  render_ne_zero (pieces_wf (isStr_ne_zero hfs)) fun p hp => isStr_ne_zero (ht p hp)

/-! ## Memory -/

/-- Memory with a text stored at `p`. -/
def storeText (m : Mem) : Nat → List Byte → Mem
  | _, [] => m
  | p, c :: t => storeText (Function.update m (p % 2 ^ 32) c) (p + 1) t

theorem feed_vsprintfHelp : ∀ (t : List Byte) (m : Mem) (p : Nat),
    vsprintfHelp.feed t (m, p) = .ok (storeText m p t, p + t.length) := by
  intro t
  induction t with
  | nil => intro m p; rfl
  | cons c t ih =>
    intro m p
    rw [Sink.feed, vsprintfHelp]
    refine (ih _ (p + 1)).trans ?_
    rw [List.length_cons, Nat.add_assoc, Nat.add_comm 1]
    rfl

theorem storeText_other {x : Nat} : ∀ {t : List Byte} {m : Mem} {p : Nat},
    (∀ j < t.length, x ≠ (p + j) % 2 ^ 32) → storeText m p t x = m x := by
  intro t
  induction t with
  | nil => intro m p _; rfl
  | cons c t ih =>
    intro m p h
    have h0 : x ≠ p % 2 ^ 32 := h 0 (Nat.succ_pos _)
    rw [storeText, ih, Function.update_of_ne h0]
    intro j hj
    rw [Nat.add_assoc, Nat.add_comm 1]
    exact h (j + 1) (Nat.succ_lt_succ hj)

/-- Texts of less than 2^32 characters do not run over themselves. -/
theorem isStr_storeText : ∀ {t : List Byte} {m : Mem} {p : Nat}, t.length < 2 ^ 32 →
    (∀ c ∈ t, c ≠ 0) → Str.IsStr
      (Function.update (storeText m p t) ((p + t.length) % 2 ^ 32) 0) p t := by
  intro t
  induction t with
  | nil => intro m p _ _; exact Function.update_self _ _ _
  | cons c t ih =>
    intro m p hlen hne
    obtain ⟨hc, ht⟩ := List.forall_mem_cons.mp hne
    rw [List.length_cons] at hlen
    have hlast : (p + (c :: t).length) % 2 ^ 32 = (p + 1 + t.length) % 2 ^ 32 := by
      rw [List.length_cons]
      congr 1
      omega
    refine ⟨?_, hc, ?_⟩
    · rw [Function.update_of_ne (by rw [List.length_cons]; omega), storeText,
        storeText_other (by intro j hj; omega), Function.update_self]
    · rw [hlast]
      exact ih (by omega) ht

theorem isStr_congr {m m' : Mem} : ∀ {t : List Byte} {a : Nat},
    (∀ i ≤ t.length, m' ((a + i) % 2 ^ 32) = m ((a + i) % 2 ^ 32)) → Str.IsStr m a t →
    Str.IsStr m' a t := by
  intro t
  induction t with
  | nil => intro a h ht; exact (h 0 (Nat.le_refl 0)).trans ht
  | cons c t ih =>
    intro a h ht
    refine ⟨(h 0 (Nat.zero_le _)).trans ht.1, ht.2.1, ih (fun i hi => ?_) ht.2.2⟩
    rw [Nat.add_assoc, Nat.add_comm 1]
    exact h (i + 1) (Nat.succ_le_succ hi)

/-- No byte of the string at `a` is among the `n` bytes at `buf`. -/
def Apart (buf n a : Nat) (t : List Byte) : Prop :=
  ∀ i ≤ t.length, ∀ j < n, (a + i) % 2 ^ 32 ≠ (buf + j) % 2 ^ 32

section Sprintf

variable {str : Word → List Byte} {fs : List Byte} {args : Nat → Word} {m : Mem} {fmt buf : Nat}

theorem readable_vsprintf (hfs : Str.IsStr m fmt fs)
    (ht : Texts str (pointers (Scan.text.pieces fs) args) m)
    (hfmt : Apart buf (format str fs args).length fmt fs)
    (hstr : ∀ p ∈ pointers (Scan.text.pieces fs) args,
      Apart buf (format str fs args).length p.toNat (str p)) :
    Readable vsprintfHelp str fmt [fs] args (m, buf) := by
  intro u v huv o ho
  rw [chainText_one] at huv
  rw [feed_vsprintfHelp] at ho
  cases ho
  have hkeep : ∀ {a : Nat} {t : List Byte}, Apart buf (format str fs args).length a t →
      Str.IsStr m a t → Str.IsStr (storeText m buf u) a t := by
    intro a t hapart
    refine isStr_congr fun i hi => storeText_other fun j hj => hapart i hi j ?_
    rw [huv, List.length_append]
    omega
  refine ⟨⟨hkeep hfmt hfs, trivial⟩, fun p hp => ?_⟩
  rw [chainPointers, chainPointers, List.append_nil] at hp
  exact hkeep (hstr p hp) (ht p hp)

/-- **`sprintf` writes the text and a terminator.** If the format and the strings are apart from the
bytes the text is written to, the buffer holds the text of the format, and memory is unchanged
outside it. -/
theorem vsprintf_writes (hfs : Str.IsStr m fmt fs)
    (ht : Texts str (pointers (Scan.text.pieces fs) args) m)
    (ho : (Scan.text.last fs).overruns = false) (hlen : (format str fs args).length < 2 ^ 32)
    (hfmt : Apart buf (format str fs args).length fmt fs)
    (hstr : ∀ p ∈ pointers (Scan.text.pieces fs) args,
      Apart buf (format str fs args).length p.toNat (str p)) :
    ∃ m', (∃ n, ∀ fuel, n ≤ fuel → vsprintf fuel m buf fmt args =
        .ok (BitVec.ofNat 32 (format str fs args).length, m')) ∧
      Str.IsStr m' buf (format str fs args) ∧
      ∀ x, (∀ j ≤ (format str fs args).length, x ≠ (buf + j) % 2 ^ 32) → m' x = m x := by
  obtain ⟨n, hn⟩ := doPrintf_eq (readable_vsprintf hfs ht hfmt hstr) ho
  refine ⟨Function.update (storeText m buf (format str fs args))
      ((buf + (format str fs args).length) % 2 ^ 32) 0, ⟨n, fun fuel hf => ?_⟩,
    isStr_storeText hlen (format_ne_zero hfs ht), fun x hx => ?_⟩
  · rw [vsprintf, hn fuel hf, feed_vsprintfHelp]
    show Except.ok (_, Function.update _ ((buf + (BitVec.ofNat 32 _).toNat) % 2 ^ 32) 0) = _
    rw [BitVec.toNat_ofNat, Nat.mod_eq_of_lt hlen]
  · rw [Function.update_of_ne (hx _ (Nat.le_refl _))]
    exact storeText_other fun j hj => hx j (Nat.le_of_lt hj)

/-- `%u` with 7. -/
theorem vsprintf_writes_seven : ∃ m', (∃ n, ∀ fuel, n ≤ fuel →
      vsprintf fuel (bytesAt 0x100 [ch '%', ch 'u']) 0x200 0x100 (fun _ => 7) = .ok (1, m')) ∧
    Str.IsStr m' 0x200 [ch '7'] ∧
    ∀ x, (∀ j ≤ 1, x ≠ (0x200 + j) % 2 ^ 32) → m' x = bytesAt 0x100 [ch '%', ch 'u'] x := by
  have htext : format (fun _ => []) [ch '%', ch 'u'] (fun _ => 7) = [ch '7'] := by
    simp [format, Scan.pieces, Scan.step, field, finish, isDigit, isModifier, conversion, render,
      Directive.show, Conv.body, Conv.isNumber, Body.fill, signText, numeral, digitsOf, digit, ch]
  have hapart : Apart 0x200 (format (fun _ => []) [ch '%', ch 'u'] (fun _ => 7)).length 0x100
      [ch '%', ch 'u'] := by
    rw [htext, Apart]
    decide
  have hfs : Str.IsStr (bytesAt 0x100 [ch '%', ch 'u']) 0x100 [ch '%', ch 'u'] := by decide
  have h := vsprintf_writes hfs (texts_nil _) (by decide) (by rw [htext]; decide) hapart
    (fun p hp => absurd hp List.not_mem_nil)
  rwa [htext] at h

end Sprintf

/-! ## The console -/

/-- `KM_Level`. -/
inductive KMLevel where
  | bochsOut | debug | lowInfo | highInfo | warning | error | user | fatal
  deriving DecidableEq

def KMLevel.value : KMLevel → Nat
  | .bochsOut => 0
  | .debug => 1
  | .lowInfo => 2
  | .highInfo => 3
  | .warning => 4
  | .error => 5
  | .user => 6
  | .fatal => 7

/-- The screen and the port of the emulator. -/
structure Consoles where
  screen : Vga.Screen
  port : List Byte

/-- `vprintf_help`. -/
def vprintfHelp (m : Mem) : Sink Vga.Screen Vga.Fault where
  mem _ := m
  fn c s := s.vgaPutc c

/-- `kprintf`, compiled with `DEBUG = level`. -/
def kprintf (level fuel : Nat) (m : Mem) (kl : KMLevel) (fmt : Nat) (args : Nat → Word)
    (s : Consoles) : Except (Halt Vga.Fault) (Word × Consoles) :=
  if kl.value ≥ level then
    if kl = .bochsOut then do
      let (rv, port) ← doPrintf (vprintfBochs Vga.Fault m) fuel fmt args s.port
      return (rv, { s with port := port })
    else do
      let (rv, screen) ← doPrintf (vprintfHelp m) fuel fmt args s.screen
      return (rv, { s with screen := screen })
  else .ok (0, s)

theorem feed_vprintfHelp (m : Mem) : ∀ {t : List Byte} {s : Vga.Screen}, (∀ c ∈ t, c ≠ 0) →
    (vprintfHelp m).feed t s = s.vgaWrite t := by
  intro t
  induction t with
  | nil => intro s _; rfl
  | cons c t ih =>
    intro s h
    obtain ⟨hc, ht⟩ := List.forall_mem_cons.mp h
    rw [Sink.feed, Vga.Screen.vgaWrite, if_neg hc]
    have hfn : (vprintfHelp m).fn c s = s.vgaPutc c := rfl
    rw [hfn]
    cases s.vgaPutc c with
    | ok s' => exact ih ht
    | error e => rfl

/-- A call of `kprintf`. -/
structure Call where
  kl : KMLevel
  fmt : Nat
  fs : List Byte
  args : Nat → Word

section Kprintf

variable (level : Nat) {m : Mem} {str : Word → List Byte}

def Call.text (str : Word → List Byte) (c : Call) : List Byte := format str c.fs c.args

/-- The format and its strings are in memory, the format does not run on, and its text is
printable. -/
structure Call.Fine (m : Mem) (str : Word → List Byte) (c : Call) : Prop where
  fs : Str.IsStr m c.fmt c.fs
  texts : Texts str (pointers (Scan.text.pieces c.fs) c.args) m
  ends : (Scan.text.last c.fs).overruns = false
  plain : ∀ b ∈ c.text str, Vga.Plain b

/-- The text that the screen is given, and the text that the port is given. -/
def Call.onScreen (level : Nat) (str : Word → List Byte) (c : Call) : List Byte :=
  if level ≤ c.kl.value ∧ c.kl ≠ .bochsOut then c.text str else []

def Call.onPort (level : Nat) (str : Word → List Byte) (c : Call) : List Byte :=
  if level ≤ c.kl.value ∧ c.kl = .bochsOut then c.text str else []

theorem Call.Fine.readable {σ ε : Type} {K : Sink σ ε} {c : Call} (h : c.Fine m str)
    (hK : ∀ o, K.mem o = m) (out : σ) : Readable K str c.fmt [c.fs] c.args out := by
  refine readable_const hK ⟨h.fs, trivial⟩ ?_
  rw [chainPointers, chainPointers, List.append_nil]
  exact h.texts

theorem vgaWrite_inScreen : ∀ {t : List Byte} {s s' : Vga.Screen}, s.InScreen →
    s.vgaWrite t = .ok s' → s'.InScreen := by
  intro t
  induction t with
  | nil => intro s s' hin h; cases h; exact hin
  | cons c t ih =>
    intro s s' hin h
    obtain ⟨s₁, h₁, hin₁⟩ := Vga.Screen.vgaPutc_inScreen hin c
    rw [Vga.Screen.vgaWrite, h₁] at h
    split at h
    · cases h
      exact hin
    · exact ih hin₁ h

/-- One call of `kprintf`. -/
theorem kprintf_step {c : Call} (hc : c.Fine m str) {s : Consoles} {t : Vga.Text}
    (hs : Vga.Shows s.screen t) (hin : s.screen.InScreen) :
    ∃ s', Vga.Shows s'.screen ((c.onScreen level str).foldl Vga.Text.type t) ∧ s'.screen.InScreen ∧
      s'.port = s.port ++ c.onPort level str ∧
      ∃ n, ∀ fuel, n ≤ fuel → kprintf level fuel m c.kl c.fmt c.args s =
        .ok (if level ≤ c.kl.value then BitVec.ofNat 32 (c.text str).length else 0, s') := by
  rw [Call.onScreen, Call.onPort]
  by_cases hl : level ≤ c.kl.value
  · by_cases hb : c.kl = .bochsOut
    · obtain ⟨n, hn⟩ := doPrintf_eq (hc.readable (K := vprintfBochs Vga.Fault m) (fun _ => rfl) s.port)
        hc.ends
      refine ⟨{ s with port := s.port ++ c.text str }, ?_, hin, ?_, n, fun fuel hf => ?_⟩
      · rw [if_neg fun h => h.2 hb]
        exact hs
      · rw [if_pos ⟨hl, hb⟩]
      · rw [kprintf, if_pos hl, if_pos hb, hn fuel hf, feed_vprintfBochs, if_pos hl]
        rfl
    · obtain ⟨n, hn⟩ := doPrintf_eq (hc.readable (K := vprintfHelp m) (fun _ => rfl) s.screen) hc.ends
      obtain ⟨s', h', hshow, -⟩ := Vga.vgaWrite_shows hs hin hc.plain
      refine ⟨{ s with screen := s' }, ?_, vgaWrite_inScreen hin h', ?_, n, fun fuel hf => ?_⟩
      · rw [if_pos ⟨hl, hb⟩]
        exact hshow
      · rw [if_neg fun h => hb h.2, List.append_nil]
      · have hfeed : (vprintfHelp m).feed (format str c.fs c.args) s.screen = .ok s' :=
          (feed_vprintfHelp m (format_ne_zero hc.fs hc.texts)).trans h'
        rw [kprintf, if_pos hl, if_neg hb, hn fuel hf, hfeed, if_pos hl]
        rfl
  · refine ⟨s, ?_, hin, ?_, 0, fun fuel _ => ?_⟩
    · rw [if_neg fun h => hl h.1]
      exact hs
    · rw [if_neg fun h => hl h.1, List.append_nil]
    · rw [kprintf, if_neg hl, if_neg hl]

/-- The calls one after the other, with what they return. -/
def kprintfAll (level fuel : Nat) (m : Mem) : List Call → Consoles →
    Except (Halt Vga.Fault) (List Word × Consoles) :=
  fun cs s => Machine.runAll (fun s (c : Call) => kprintf level fuel m c.kl c.fmt c.args s) s cs

/-- **Everything that is printed appears in order.** Whatever calls are made, the screen shows the
texts of those whose level is high enough, one behind the other, the port has been given the texts
of the calls to the emulator, and each call returns the length of its text, or 0. -/
theorem kprintf_shows : ∀ {cs : List Call} {s : Consoles} {t : Vga.Text}, (∀ c ∈ cs, c.Fine m str) →
    Vga.Shows s.screen t → s.screen.InScreen →
    ∃ s', Vga.Shows s'.screen ((cs.flatMap (Call.onScreen level str)).foldl Vga.Text.type t) ∧
      s'.port = s.port ++ cs.flatMap (Call.onPort level str) ∧
      ∃ n, ∀ fuel, n ≤ fuel → kprintfAll level fuel m cs s =
        .ok (cs.map fun c => if level ≤ c.kl.value then BitVec.ofNat 32 (c.text str).length else 0,
          s') := by
  intro cs
  induction cs with
  | nil =>
    intro s t _ hs _
    exact ⟨s, hs, (List.append_nil _).symm, 0, fun _ _ => rfl⟩
  | cons c cs ih =>
    intro s t h hs hin
    obtain ⟨hc, hcs⟩ := List.forall_mem_cons.mp h
    obtain ⟨s₁, hs₁, hin₁, hport₁, n₁, hn₁⟩ := kprintf_step level hc hs hin
    obtain ⟨s₂, hs₂, hport₂, n₂, hn₂⟩ := ih hcs hs₁ hin₁
    refine ⟨s₂, ?_, ?_, max n₁ n₂, fun fuel hf => ?_⟩
    · rw [List.flatMap_cons, List.foldl_append]
      exact hs₂
    · rw [hport₂, hport₁, List.flatMap_cons, List.append_assoc]
    · exact Machine.runAll_cons_of (hn₁ fuel (by omega)) (hn₂ fuel (by omega))

/-- A call that prints `hi`, and an empty screen. -/
def sampleCall (kl : KMLevel) : Call := ⟨kl, 0x100, [ch 'h', ch 'i'], fun _ => 0⟩
def sampleConsoles : Consoles := ⟨⟨0, 0, 0, 4, fun _ => Vga.paint 0 0x20, (0, 0)⟩, []⟩

/-- A warning and a debug message with `DEBUG = 3`, and a warning and a message to the emulator with
`DEBUG = 0`. -/
theorem kprintf_shows_warning :
    (∃ s' : Consoles, Vga.Shows s'.screen ⟨[], [ch 'h', ch 'i']⟩ ∧ s'.port = [] ∧
      ∃ n, ∀ fuel, n ≤ fuel → kprintfAll 3 fuel (bytesAt 0x100 [ch 'h', ch 'i'])
        [sampleCall .warning, sampleCall .debug] sampleConsoles = .ok ([2, 0], s')) ∧
    ∃ s' : Consoles, Vga.Shows s'.screen ⟨[], [ch 'h', ch 'i']⟩ ∧ s'.port = [ch 'h', ch 'i'] ∧
      ∃ n, ∀ fuel, n ≤ fuel → kprintfAll 0 fuel (bytesAt 0x100 [ch 'h', ch 'i'])
        [sampleCall .warning, sampleCall .bochsOut] sampleConsoles = .ok ([2, 2], s') := by
  have hfine : ∀ kl, (sampleCall kl).Fine (bytesAt 0x100 [ch 'h', ch 'i']) (fun _ => []) := by
    have hstr : Str.IsStr (bytesAt 0x100 [ch 'h', ch 'i']) 0x100 [ch 'h', ch 'i'] := by decide
    refine fun kl => ⟨hstr, texts_nil _, rfl, ?_⟩
    show ∀ b ∈ [ch 'h', ch 'i'], Vga.Plain b
    simp [Vga.Plain, ch]
  have hcalls : ∀ kl kl', ∀ c ∈ [sampleCall kl, sampleCall kl'],
      c.Fine (bytesAt 0x100 [ch 'h', ch 'i']) (fun _ => []) := by
    intro kl kl' c hc
    rcases List.mem_pair.mp hc with rfl | rfl
    · exact hfine kl
    · exact hfine kl'
  have hin : sampleConsoles.screen.InScreen := ⟨Nat.succ_pos 79, Nat.succ_pos 24, rfl⟩
  have hblank : Vga.Shows sampleConsoles.screen ⟨[], []⟩ := Vga.shows_blank rfl rfl fun _ _ => rfl
  exact ⟨kprintf_shows 3 (hcalls .warning .debug) hblank hin,
    kprintf_shows 0 (hcalls .warning .bochsOut) hblank hin⟩

end Kprintf

end Printf
end Frod
