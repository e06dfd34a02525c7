import Mathlib.Data.List.DropRight
import Mathlib.Data.List.GetD
import Frod.Vga.Model

/-!
# Frod.Vga.Text

What the console shows.

`Text` is the text printed so far, cut into lines of at most 80 characters as it comes. `Shows` says
that the screen holds its last 25 lines, with blanks where a line is shorter, and that the cursor
stands behind the last one. Nothing is ever written behind the cursor, so a tab may skip cells
instead of blanking them. `vgaPutc_shows` is the step, `vgaWrite_renders` the result for strings.
-/

namespace Frod
namespace Vga

/-- The lines that are complete, oldest first, and the line that is being written. -/
structure Text where
  lines : List (List Byte)
  line : List Byte

namespace Text

/-- A new line. -/
def feed (t : Text) : Text := ⟨t.lines ++ [t.line], []⟩

/-- More characters on the current line. -/
def add (t : Text) (cs : List Byte) : Text := ⟨t.lines, t.line ++ cs⟩

/-- A line that is full is complete. -/
def wrap (t : Text) : Text := if t.line.length < 80 then t else t.feed

/-- One character of the text. -/
def type (t : Text) (ch : Byte) : Text :=
  if ch = 0x0A then t.feed
  else if ch = 0x09 then (t.add (List.replicate (4 - t.line.length % 4) 0x20)).wrap
  else (t.add [ch]).wrap

/-- The text of a string. -/
def render (str : List Byte) : Text := str.foldl type ⟨[], []⟩

/-- The last 25 lines. -/
def rows (t : Text) : List (List Byte) := (t.lines ++ [t.line]).rtake 25

/-- The character at row `r` and column `c`, or a blank. -/
def charAt (t : Text) (r c : Nat) : Byte := ((t.rows[r]?).bind fun row => row[c]?).getD 0x20

end Text

/-- Printable characters, tabs and newlines. -/
def Plain (ch : Byte) : Prop := (0x20 ≤ ch.toNat ∧ ch.toNat ≤ 0x7E) ∨ ch = 0x09 ∨ ch = 0x0A

/-- The screen shows the text `t` in its current colour. -/
structure Shows (s : Screen) (t : Text) : Prop where
  x : s.x = t.line.length
  y : s.y + 1 = t.rows.length
  cells : ∀ r c, r < 25 → c < 80 → s.mem (80 * r + c) = paint s.color (t.charAt r c)

/-! ## Rows -/

namespace Text

theorem rows_eq (t : Text) : t.rows = t.lines.rtake 24 ++ [t.line] :=
  List.rtake_concat_succ t.lines 24 t.line

theorem rows_length (t : Text) : t.rows.length = min t.lines.length 24 + 1 := by
  rw [rows_eq, List.length_append, List.rtake, List.length_drop, List.length_singleton]
  omega

/-- A new line pushes out the first of 25. -/
theorem rows_feed (t : Text) :
    t.feed.rows = (if t.rows.length < 25 then t.rows else t.rows.drop 1) ++ [[]] := by
  have hlen := t.rows_length
  have hall : (t.lines ++ [t.line]).length = t.lines.length + 1 := by
    rw [List.length_append, List.length_singleton]
  rw [rows_eq, feed, hlen, rows, List.rtake, List.rtake, hall]
  split
  · rw [show t.lines.length + 1 - 24 = t.lines.length + 1 - 25 by omega]
  · rw [List.drop_drop, show t.lines.length + 1 - 24 = t.lines.length + 1 - 25 + 1 by omega]

/-- What is above the current line does not change with it. -/
theorem charAt_eq (t : Text) (r c : Nat) :
    t.charAt r c = if r + 1 = t.rows.length then t.line.getD c 0x20
      else (((t.lines.rtake 24)[r]?).bind fun row => row[c]?).getD 0x20 := by
  rw [charAt, rows_eq, List.length_append, List.length_singleton, List.getElem?_append]
  by_cases hr : r < (t.lines.rtake 24).length
  · rw [if_pos hr, if_neg (by omega)]
  · rw [if_neg hr]
    by_cases heq : r = (t.lines.rtake 24).length
    · rw [if_pos (by omega), heq, Nat.sub_self]
      simp [List.getD_eq_getElem?_getD]
    · rw [if_neg (by omega), List.getElem?_eq_none (by simp; omega),
        List.getElem?_eq_none (by omega)]

theorem charAt_line (t : Text) (l : List Byte) (r c : Nat) :
    charAt ⟨t.lines, l⟩ r c = if r + 1 = t.rows.length then l.getD c 0x20 else t.charAt r c := by
  rw [charAt_eq, charAt_eq t, rows_length, rows_length]
  by_cases hr : r + 1 = min t.lines.length 24 + 1
  · rw [if_pos hr, if_pos hr]
  · rw [if_neg hr, if_neg hr, if_neg hr]

theorem charAt_feed (t : Text) (r c : Nat) :
    t.feed.charAt r c = if t.rows.length < 25 then t.charAt r c else t.charAt (r + 1) c := by
  have hlast : ∀ (l : List (List Byte)) (r : Nat),
      (((l ++ [[]])[r]?).bind fun row => row[c]?).getD 0x20 =
        ((l[r]?).bind fun row => row[c]?).getD 0x20 := by
    intro l r
    rw [List.getElem?_append]
    split
    · rfl
    · rename_i hr
      rw [List.getElem?_eq_none (Nat.le_of_not_lt hr)]
      cases hk : r - l.length with
      | zero => simp
      | succ k => simp
  rw [charAt, rows_feed, hlast]
  split
  · rfl
  · rw [List.getElem?_drop, Nat.add_comm 1 r]
    rfl

end Text

/-! ## Steps -/

section Steps

variable {s : Screen} {t : Text}

theorem Shows.line (h : Shows s t) {cs : List Byte} {s' : Screen} (hx : s'.x = s.x + cs.length)
    (hy : s'.y = s.y) (hcolor : s'.color = s.color)
    (hline : ∀ c, c < 80 → s'.mem (80 * s.y + c) = paint s.color ((t.line ++ cs).getD c 0x20))
    (hother : ∀ r c, r ≠ s.y → c < 80 → s'.mem (80 * r + c) = s.mem (80 * r + c)) :
    Shows s' (t.add cs) := by
  refine ⟨?_, ?_, fun r c hr hc => ?_⟩
  · rw [hx, h.x, Text.add, List.length_append]
  · rw [hy, h.y, Text.rows_length, Text.rows_length, Text.add]
  · rw [Text.add, Text.charAt_line, ← h.y, hcolor]
    by_cases hrow : r = s.y
    · rw [hrow, if_pos rfl]
      exact hline c hc
    · rw [if_neg (by omega), hother r c hrow hc]
      exact h.cells r c hr hc

theorem Shows.current (h : Shows s t) (hy : s.y < 25) {c : Nat} (hc : c < 80) :
    s.mem (80 * s.y + c) = paint s.color (t.line.getD c 0x20) := by
  rw [h.cells s.y c hy hc, Text.charAt_eq, if_pos h.y]

/-- A tab moves over cells that are blank. -/
theorem Shows.skip (h : Shows s t) (hy : s.y < 25) (k : Nat) :
    Shows { s with x := s.x + k } (t.add (List.replicate k 0x20)) := by
  refine h.line (by rw [List.length_replicate]) rfl rfl (fun c hc => ?_) fun _ _ _ _ => rfl
  have hblank : (t.line ++ List.replicate k 0x20).getD c 0x20 = t.line.getD c 0x20 := by
    by_cases hlt : c < t.line.length
    · exact List.getD_append _ _ _ _ hlt
    · rw [List.getD_append_right _ _ _ _ (Nat.le_of_not_lt hlt), List.getD_eq_getElem?_getD,
        List.getElem?_getD_replicate_default_eq, List.getD_eq_default _ _ (Nat.le_of_not_lt hlt)]
  rw [hblank]
  exact h.current hy hc

theorem Shows.write (h : Shows s t) (hx : s.x < 80) (hy : s.y < 25) (ch : Byte) :
    Shows { s with mem := Function.update s.mem (80 * s.y + s.x) (paint s.color ch), x := s.x + 1 }
      (t.add [ch]) := by
  refine h.line rfl rfl rfl (fun c hc => ?_) fun r c hr hc => ?_
  · dsimp only
    by_cases hlt : c < s.x
    · rw [Function.update_of_ne (by omega), List.getD_append _ _ _ _ (by rw [← h.x]; exact hlt)]
      exact h.current hy hc
    · rw [List.getD_append_right _ _ _ _ (by rw [← h.x]; omega), ← h.x]
      by_cases heq : c = s.x
      · rw [heq, Function.update_self, Nat.sub_self]
        rfl
      · -- the cells behind the cursor are blank
        rw [Function.update_of_ne (by omega), List.getD_eq_default _ _ (by simp; omega),
          h.current hy hc, List.getD_eq_default _ _ (by rw [← h.x]; omega)]
  · exact Function.update_of_ne (by omega) _ _

theorem Shows.nextLine (h : Shows s t) (hy : s.y < 25) : Shows s.nextLine t.feed := by
  have hrows := h.y
  rw [Screen.nextLine]
  by_cases hlt : s.y < 24
  · rw [if_pos hlt]
    refine ⟨rfl, ?_, fun r c hr hc => ?_⟩
    · rw [Text.rows_feed, if_pos (by omega), List.length_append, ← hrows]
      rfl
    · rw [Text.charAt_feed, if_pos (by omega)]
      exact h.cells r c hr hc
  · rw [if_neg hlt]
    refine ⟨rfl, ?_, fun r c hr hc => ?_⟩
    · rw [Text.rows_feed, if_neg (by omega), List.length_append, List.length_drop, ← hrows]
      rfl
    · rw [Text.charAt_feed, if_neg (by omega)]
      show s.scrolled (80 * r + c) = _
      rw [Screen.scrolled]
      by_cases hlast : 80 * r + c < 1920
      · rw [if_pos hlast, show 80 * r + c + 80 = 80 * (r + 1) + c by omega]
        exact h.cells (r + 1) c (by omega) hc
      · -- the last row is behind the text
        rw [if_neg hlast, if_pos (by omega), Text.charAt, List.getElem?_eq_none (by omega)]
        rfl

/-- The end of a character: a full line is complete. -/
theorem Shows.settled (h : Shows s t) (hy : s.y < 25) : Shows s.settled t.wrap := by
  have hcursor : ∀ {s : Screen} {t : Text}, Shows s t → Shows s.vgaUpdateCursor t :=
    fun h => ⟨h.x, h.y, h.cells⟩
  rw [Screen.settled, Text.wrap, ← h.x]
  split
  · exact hcursor h
  · exact hcursor (h.nextLine hy)

/-- What `vga_putc` does with the characters of a text, the cursor being on the screen. -/
theorem vgaPutc_printable (hin : s.InScreen) {ch : Byte} (hlo : 0x20 ≤ ch.toNat)
    (hhi : ch.toNat ≤ 0x7E) : s.vgaPutc ch = .ok (Screen.settled { s with
      mem := Function.update s.mem (80 * s.y + s.x) (paint s.color ch), x := s.x + 1 }) := by
  obtain ⟨hx, hy, _⟩ := hin
  have hne : ∀ b : Byte, b.toNat < 0x20 → ch ≠ b := by
    rintro b hb rfl
    omega
  have hint : ch.toInt = ch.toNat := BitVec.toInt_eq_toNat_of_lt (by omega)
  have hmod : (s.x + 1) % 2 ^ 8 = s.x + 1 := Nat.mod_eq_of_lt (by omega)
  rw [Screen.vgaPutc, if_neg fun hc => hne _ (by decide) hc.1, if_neg (hne _ (by decide)),
    if_neg (hne _ (by decide)), if_neg (hne _ (by decide)), if_pos (by rw [hint]; omega),
    Screen.vgaWriteMem_eq hx hy, Machine.ok_bind, hmod]
  exact Screen.putcEnd_eq hy

theorem vgaPutc_tab (hin : s.InScreen) :
    s.vgaPutc 0x09 = .ok (Screen.settled { s with x := s.x + (4 - s.x % 4) }) := by
  obtain ⟨hx, hy, ht⟩ := hin
  have h8 : ¬ ((0x09 : Byte) = 0x08 ∧ s.x > 0) := fun hc => absurd hc.1 (by decide)
  rw [Screen.vgaPutc, if_neg h8, if_pos rfl, ht, Screen.tab_eq hx]
  exact Screen.putcEnd_eq hy

theorem vgaPutc_newline (hin : s.InScreen) : s.vgaPutc 0x0A = .ok s.nextLine.vgaUpdateCursor := by
  obtain ⟨hx, hy, ht⟩ := hin
  obtain ⟨hx', hy', _⟩ := Screen.nextLine_inScreen hy ht
  have h8 : ¬ ((0x0A : Byte) = 0x08 ∧ s.x > 0) := fun hc => absurd hc.1 (by decide)
  rw [Screen.vgaPutc, if_neg h8, if_neg (by decide), if_neg (by decide), if_pos rfl,
    Screen.newLine_eq hy, Machine.ok_bind, Screen.putcEnd_eq hy', Screen.settled, if_pos hx']

theorem vgaPutc_shows (h : Shows s t) (hin : s.InScreen) {ch : Byte} (hch : Plain ch) :
    ∃ s', s.vgaPutc ch = .ok s' ∧ Shows s' (t.type ch) ∧ s'.color = s.color := by
  have hx := hin.x
  have hy := hin.y
  rcases hch with ⟨hlo, hhi⟩ | rfl | rfl
  · have hne : ∀ b : Byte, b.toNat < 0x20 → ch ≠ b := by
      rintro b hb rfl
      omega
    refine ⟨_, vgaPutc_printable hin hlo hhi, ?_, Screen.settled_color _⟩
    rw [Text.type, if_neg (hne _ (by decide)), if_neg (hne _ (by decide))]
    exact (h.write hx hy ch).settled hy
  · refine ⟨_, vgaPutc_tab hin, ?_, Screen.settled_color _⟩
    rw [Text.type, if_neg (by decide), if_pos rfl, ← h.x]
    exact (h.skip hy _).settled hy
  · refine ⟨_, vgaPutc_newline hin, ?_, s.nextLine_color⟩
    obtain ⟨h1, h2, h3⟩ := h.nextLine hy
    rw [Text.type, if_pos rfl]
    exact ⟨h1, h2, h3⟩

theorem Plain.ne_zero {ch : Byte} (h : Plain ch) : ch ≠ 0 := by
  rintro rfl
  rcases h with ⟨hlo, _⟩ | hc | hc
  · exact absurd hlo (by decide)
  · cases hc
  · cases hc

/-- A string on the screen, after the text `t`. -/
theorem vgaWrite_shows : ∀ {str : List Byte} {s : Screen} {t : Text}, Shows s t → s.InScreen →
    (∀ ch ∈ str, Plain ch) →
    ∃ s', s.vgaWrite str = .ok s' ∧ Shows s' (str.foldl Text.type t) ∧ s'.color = s.color := by
  intro str
  induction str with
  | nil => intro s t h _ _; exact ⟨s, rfl, h, rfl⟩
  | cons ch str ih =>
    intro s t h hin hplain
    obtain ⟨hch, hstr⟩ := List.forall_mem_cons.mp hplain
    obtain ⟨s₁, h₁, hshow, hcolor⟩ := vgaPutc_shows h hin hch
    obtain ⟨s₁', h₁', hin₁⟩ := Screen.vgaPutc_inScreen hin ch
    rw [h₁] at h₁'
    cases h₁'
    obtain ⟨s₂, h₂, hshow₂, hcolor₂⟩ := ih hshow hin₁ hstr
    refine ⟨s₂, ?_, hshow₂, hcolor₂.trans hcolor⟩
    rw [Screen.vgaWrite, if_neg hch.ne_zero, h₁, Machine.ok_bind, h₂]

end Steps

theorem shows_blank {s : Screen} (hx : s.x = 0) (hy : s.y = 0)
    (hmem : ∀ j, j < 2000 → s.mem j = paint s.color 0x20) : Shows s ⟨[], []⟩ := by
  refine ⟨hx, ?_, fun r c hr hc => ?_⟩
  · rw [hy]
    rfl
  · rw [hmem _ (by omega), Text.charAt_eq]
    simp

/-- **The console shows the end of the text.** A string of printable characters, tabs and newlines
leaves its last 25 lines on the screen, in the colour of `vga_init`, and the cursor behind them. -/
theorem vgaWrite_renders (s : Screen) (fg bg : Color) {str : List Byte} (h : ∀ ch ∈ str, Plain ch) :
    ∃ s', (s.vgaInit fg bg >>= fun s => s.vgaWrite str) = .ok s' ∧
      s'.color = (bg.value <<< 4) + fg.value ∧ Shows s' (Text.render str) := by
  obtain ⟨s₀, h₀, hin, hx, hy, hcolor, hmem⟩ := s.vgaInit_eq fg bg
  rw [← hcolor] at hmem
  obtain ⟨s', h', hshow, hcolor'⟩ := vgaWrite_shows (shows_blank hx hy hmem) hin h
  refine ⟨s', ?_, hcolor'.trans hcolor, hshow⟩
  rw [h₀]
  exact h'

/-- A letter, a tab and a letter in black on white. -/
theorem vgaWrite_renders_tab : ∃ s',
    (Screen.vgaInit ⟨0, 0, 0, 0, fun _ => 0, (0, 0)⟩ .black .white >>=
      fun s => s.vgaWrite [0x41, 0x09, 0x42]) = .ok s' ∧
    s'.x = 5 ∧ s'.y = 0 ∧ s'.mem 0 = 0xF041 ∧ s'.mem 1 = 0xF020 ∧ s'.mem 4 = 0xF042 := by
  have hplain : ∀ ch ∈ ([0x41, 0x09, 0x42] : List Byte), Plain ch := by
    simp [Plain]
  obtain ⟨s', hret, hcolor, hx, hy, hcells⟩ :=
    vgaWrite_renders ⟨0, 0, 0, 0, fun _ => 0, (0, 0)⟩ .black .white hplain
  refine ⟨s', hret, hx, Nat.succ.inj hy, ?_, ?_, ?_⟩
  · exact (hcells 0 0 (by omega) (by omega)).trans (by rw [hcolor]; rfl)
  · exact (hcells 0 1 (by omega) (by omega)).trans (by rw [hcolor]; rfl)
  · exact (hcells 0 4 (by omega) (by omega)).trans (by rw [hcolor]; rfl)

end Vga
end Frod
