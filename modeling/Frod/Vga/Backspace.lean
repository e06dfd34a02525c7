import Frod.Vga.Text

/-!
# Frod.Vga.Backspace

Backspace after a printed character.

`vga_putc` blanks the cell under the cursor before it moves the cursor back, so the cell to the right
of the character is blanked, without a colour, and the character stays. `undoes_iff` says when
nobody sees that.
-/

namespace Frod
namespace Vga

/-- Printing `ch` and then backspace leaves the cursor and the cells as they were. -/
def Undoes (s : Screen) (ch : Byte) : Prop :=
  ∃ s', (s.vgaPutc ch >>= fun s => s.vgaPutc 0x08) = .ok s' ∧ s'.x = s.x ∧ s'.y = s.y ∧
    ∀ j, j < 2000 → s'.mem j = s.mem j

variable {s : Screen}

theorem putcEnd_of_lt (hx : s.x < 80) (hy : s.y < 25) : s.putcEnd = .ok s.vgaUpdateCursor := by
  rw [Screen.putcEnd_eq hy, Screen.settled, if_pos hx]

theorem vgaPutc_backspace (hin : s.InScreen) (hpos : 0 < s.x) :
    s.vgaPutc 0x08 = .ok (Screen.vgaUpdateCursor { s with
      mem := Function.update s.mem (80 * s.y + s.x) 0x20, x := s.x - 1 }) := by
  have hx := hin.x
  rw [Screen.vgaPutc, if_pos ⟨rfl, hpos⟩, Screen.vgaWriteMem_eq hx hin.y, Machine.ok_bind]
  exact putcEnd_of_lt (show s.x - 1 < 80 by omega) hin.y

/-- What a character and a backspace leave in the cells. -/
def erased (s : Screen) (ch : Byte) : Nat → Cell :=
  Function.update (Function.update s.mem (80 * s.y + s.x) (paint s.color ch)) (80 * s.y + s.x + 1) 0x20

theorem erased_cursor (s : Screen) (ch : Byte) : erased s ch (80 * s.y + s.x) = paint s.color ch := by
  rw [erased, Function.update_of_ne (by omega), Function.update_self]

theorem erased_right (s : Screen) (ch : Byte) : erased s ch (80 * s.y + s.x + 1) = 0x20 :=
  Function.update_self _ _ _

/-- Away from the end of the row the cursor goes forth and back, and two cells are written. -/
theorem putc_backspace (hin : s.InScreen) (hx : s.x < 79) {ch : Byte} (hlo : 0x20 ≤ ch.toNat)
    (hhi : ch.toNat ≤ 0x7E) : (s.vgaPutc ch >>= fun s => s.vgaPutc 0x08) =
      .ok (Screen.vgaUpdateCursor { s with mem := erased s ch }) := by
  have hmoved : s.vgaPutc ch = .ok (Screen.vgaUpdateCursor { s with
      mem := Function.update s.mem (80 * s.y + s.x) (paint s.color ch), x := s.x + 1 }) := by
    rw [vgaPutc_printable hin hlo hhi, Screen.settled, if_pos (show s.x + 1 < 80 by omega)]
  have hin' : Screen.InScreen (Screen.vgaUpdateCursor { s with
      mem := Function.update s.mem (80 * s.y + s.x) (paint s.color ch), x := s.x + 1 }) :=
    ⟨show s.x + 1 < 80 by omega, hin.y, hin.tab⟩
  rw [hmoved, Machine.ok_bind, vgaPutc_backspace hin' (Nat.succ_pos s.x)]
  rfl

theorem paint_inj {color ch ch' : Byte} : paint color ch = paint color ch' ↔ ch = ch' := by
  rw [paint, paint, BitVec.add_left_inj]
  constructor
  · intro h
    have hint := congrArg BitVec.toInt h
    rw [BitVec.toInt_signExtend_of_le (by decide), BitVec.toInt_signExtend_of_le (by decide)] at hint
    exact BitVec.eq_of_toInt_eq hint
  · rintro rfl
    rfl

/-- Backspace undoes a character exactly when the character is a blank and the cell to the right of
the cursor is a blank without a colour already. -/
theorem undoes_iff {s₀ : Screen} {fg bg : Color} {str : List Byte} {ch : Byte}
    (hreach : (s₀.vgaInit fg bg >>= fun s => str.foldlM Screen.vgaPutc s) = .ok s) (hx : s.x < 79)
    (hblank : s.mem (80 * s.y + s.x) = paint s.color 0x20) (hlo : 0x20 ≤ ch.toInt)
    (hhi : ch.toInt ≤ 0x7E) : Undoes s ch ↔ ch = 0x20 ∧ s.mem (80 * s.y + s.x + 1) = 0x20 := by
  have hin : s.InScreen := by
    obtain ⟨s₁, h₁, hin₁, _⟩ := s₀.vgaInit_eq fg bg
    obtain ⟨s₂, h₂, hin₂⟩ := Screen.vgaPuts_inScreen str hin₁
    rw [h₁, Machine.ok_bind, h₂] at hreach
    cases hreach
    exact hin₂
  have hy := hin.y
  have hnat : 0x20 ≤ ch.toNat ∧ ch.toNat ≤ 0x7E := by
    have hlt := ch.isLt
    rw [BitVec.toInt_eq_toNat_cond] at hlo hhi
    split at hlo <;> omega
  rw [Undoes, putc_backspace hin hx hnat.1 hnat.2]
  constructor
  · rintro ⟨s', hs', _, _, hmem⟩
    obtain rfl := Except.ok.inj hs'
    constructor
    · have hcell : erased s ch (80 * s.y + s.x) = _ := hmem (80 * s.y + s.x) (by omega)
      rw [hblank, erased_cursor] at hcell
      exact paint_inj.mp hcell
    · have hcell : erased s ch (80 * s.y + s.x + 1) = _ := hmem (80 * s.y + s.x + 1) (by omega)
      rw [erased_right] at hcell
      exact hcell.symm
  · rintro ⟨rfl, hright⟩
    have hsame : erased s 0x20 = s.mem := by
      rw [erased, ← hblank, Function.update_eq_self, ← hright, Function.update_eq_self]
    exact ⟨_, rfl, rfl, rfl, fun j _ => congrFun hsame j⟩

/-- A screen in white on black. -/
def whiteOnBlack : Except Fault Screen := Screen.vgaInit ⟨0, 0, 0, 0, fun _ => 0, (0, 0)⟩ .white .black

theorem whiteOnBlack_eq : ∃ s, whiteOnBlack = .ok s ∧ s.InScreen ∧ s.x = 0 ∧ s.y = 0 ∧ s.color = 0x0F ∧
    ∀ j, j < 2000 → s.mem j = 0x0F20 := by
  obtain ⟨s, hs, hin, hx, hy, hcolor, hmem⟩ :=
    Screen.vgaInit_eq ⟨0, 0, 0, 0, fun _ => 0, (0, 0)⟩ .white .black
  exact ⟨s, hs, hin, hx, hy, hcolor.trans (by decide), fun j hj => (hmem j hj).trans (by decide)⟩

/-- After a blank and a backspace the cell on the right has lost its colour, and a second time nothing
changes. -/
theorem undoes_iff_again : ∃ s, (whiteOnBlack >>= fun s => [0x20, 0x08].foldlM Screen.vgaPutc s) = .ok s ∧
    Undoes s 0x20 := by
  obtain ⟨s, hs, hin, hx, hy, hcolor, hmem⟩ := whiteOnBlack_eq
  have hrun : (whiteOnBlack >>= fun s => [0x20, 0x08].foldlM Screen.vgaPutc s) =
      .ok (Screen.vgaUpdateCursor { s with mem := erased s 0x20 }) := by
    rw [hs, Machine.ok_bind]
    simp only [List.foldlM_cons, List.foldlM_nil, bind_pure]
    exact putc_backspace hin (by omega) (by decide) (by decide)
  refine ⟨_, hrun, (undoes_iff hrun ?_ ?_ (by decide) (by decide)).mpr ⟨rfl, erased_right s 0x20⟩⟩
  · change s.x < 79
    omega
  · exact erased_cursor s 0x20

/-- The first character on a new screen stays. -/
theorem not_undoes_first : ∃ s, whiteOnBlack = .ok s ∧ s.x < 79 ∧
    s.mem (80 * s.y + s.x) = paint s.color 0x20 ∧ ¬ Undoes s 0x41 := by
  obtain ⟨s, hs, hin, hx, hy, hcolor, hmem⟩ := whiteOnBlack_eq
  refine ⟨s, hs, by omega, ?_, ?_⟩
  · rw [hx, hy, hcolor, hmem _ (by omega)]
    decide
  · rintro ⟨s', hs', _, _, hcells⟩
    rw [putc_backspace hin (by omega) (by decide) (by decide)] at hs'
    obtain rfl := Except.ok.inj hs'
    have hcell : erased s 0x41 (80 * s.y + s.x) = _ := hcells (80 * s.y + s.x) (by omega)
    rw [erased_cursor, hmem _ (by omega), hcolor] at hcell
    exact absurd hcell (by decide)

end Vga
end Frod
