import Mathlib.Logic.Function.Basic
import Frod.Lib.BitArray
import Frod.Lib.Machine

/-!
# Frod.Vga.Model

The text console of `drv/vga.c`.

The screen is an array of 2000 cells, a character and its colour each. An access to any other index
is a fault, so a call that returns has kept to the screen. The cursor is a pair of `uint8_t`, here
`Nat` reduced modulo `2^8` where the source adds to it. `char` is signed.

The loops that move and fill cells have one lemma each (`copyLoop_eq`, `fillLoop_eq`), which says
what every cell holds afterwards. The lock is left out.
-/

namespace Frod
namespace Vga

/-- `vga_color`. -/
inductive Color where
  | black | blue | green | cyan | red | pink | brown | lightGray
  | darkGray | lightBlue | lightGreen | lightCyan | lightRed | lightPink | yellow | white
  deriving DecidableEq

def Color.value : Color → Byte
  | .black => 0
  | .blue => 1
  | .green => 2
  | .cyan => 3
  | .red => 4
  | .pink => 5
  | .brown => 6
  | .lightGray => 7
  | .darkGray => 8
  | .lightBlue => 9
  | .lightGreen => 10
  | .lightCyan => 11
  | .lightRed => 12
  | .lightPink => 13
  | .yellow => 14
  | .white => 15

/-- `SCREEN_LENGTH`, `SCREEN_HEIGHT`. -/
def screenLength : Nat := 80
def screenHeight : Nat := 25

/-- A cell of the screen. -/
abbrev Cell := BitVec 16

/-- An access outside the screen. -/
inductive Fault where
  | outside (i : Nat)
  deriving DecidableEq

/-- `vga_screen` with the cells `mem` points to and the two cursor registers of the controller. -/
structure Screen where
  color : Byte
  x : Nat
  y : Nat
  tabSz : Nat
  mem : Nat → Cell
  cursor : Byte × Byte

/-- `(uint16_t)ch + ((uint16_t)color << 8)`. -/
def paint (color ch : Byte) : Cell := ch.signExtend 16 + (color.setWidth 16 <<< 8)

namespace Screen

/-- `screen.mem[i]`, read and written. -/
def get (s : Screen) (i : Nat) : Except Fault Cell :=
  if i < screenHeight * screenLength then .ok (s.mem i) else .error (.outside i)

def set (s : Screen) (i : Nat) (v : Cell) : Except Fault Screen :=
  if i < screenHeight * screenLength then .ok { s with mem := Function.update s.mem i v }
  else .error (.outside i)

/-- `vga_write_mem`. -/
def vgaWriteMem (s : Screen) (x y : Nat) (val : Cell) : Except Fault Screen :=
  s.set (y * screenLength + x) val

/-- `for(; ...; i++) screen.mem[i] = v`, with `n` iterations left. -/
def fillLoop (v : Cell) : Nat → Nat → Screen → Except Fault Screen
  | 0, _, s => .ok s
  | n + 1, i, s => do
    let s ← s.set i v
    fillLoop v n (i + 1) s

/-- `for(; ...; i++) screen.mem[i] = screen.mem[i+SCREEN_LENGTH]`, with `n` iterations left. -/
def copyLoop : Nat → Nat → Screen → Except Fault Screen
  | 0, _, s => .ok s
  | n + 1, i, s => do
    let v ← s.get (i + screenLength)
    let s ← s.set i v
    copyLoop n (i + 1) s

/-- `vga_clear`. -/
def vgaClear (s : Screen) : Except Fault Screen :=
  fillLoop (paint s.color 0x20) (screenLength * screenHeight) 0 s

/-- `vga_init`. -/
def vgaInit (s : Screen) (fg bg : Color) : Except Fault Screen :=
  vgaClear { s with x := 0, y := 0, tabSz := 4, color := (bg.value <<< 4) + fg.value }

/-- `vga_scroll`. -/
def vgaScroll (s : Screen) : Except Fault Screen :=
  if s.y ≥ screenHeight then do
    let s ← copyLoop ((screenHeight - 1) * screenLength) 0 s
    let s ← fillLoop (paint s.color 0x20) screenLength ((screenHeight - 1) * screenLength) s
    return { s with y := s.y - 1 }
  else return s

/-- `vga_update_cursor`. -/
def vgaUpdateCursor (s : Screen) : Screen :=
  let loc := BitVec.ofNat 16 (s.y * screenLength + s.x)
  { s with cursor := ((loc >>> 8).setWidth 8, loc.setWidth 8) }

/-- The start of a new line, which stands twice in `vga_putc`. -/
def newLine (s : Screen) : Except Fault Screen :=
  let s := { s with x := 0, y := (s.y + 1) % 2 ^ 8 }
  if s.y ≥ screenHeight then vgaScroll s else .ok s

/-- The end of `vga_putc`. -/
def putcEnd (s : Screen) : Except Fault Screen := do
  let s ← (if s.x ≥ screenLength then s.newLine else .ok s)
  return s.vgaUpdateCursor

/-- `vga_putc`. -/
def vgaPutc (s : Screen) (ch : Byte) : Except Fault Screen :=
  let write := paint s.color ch
  if ch = 0x08 ∧ s.x > 0 then do
    -- `write_blank` leaves out the colour
    let s ← s.vgaWriteMem s.x s.y 0x20
    putcEnd { s with x := s.x - 1 }
  else if ch = 0x09 then
    putcEnd { s with x := (s.x + (s.tabSz - (s.x + s.tabSz) % s.tabSz)) % 2 ^ 8 }
  else if ch = 0x0D then
    putcEnd { s with x := 0 }
  else if ch = 0x0A then do
    let s ← s.newLine
    s.putcEnd
  else if 0x20 ≤ ch.toInt ∧ ch.toInt ≤ 0x7E then do
    let s ← s.vgaWriteMem s.x s.y write
    putcEnd { s with x := (s.x + 1) % 2 ^ 8 }
  else .ok s

/-- `vga_write`; the end of the list is the terminating 0. -/
def vgaWrite (s : Screen) : List Byte → Except Fault Screen
  | [] => .ok s
  | ch :: str =>
    if ch = 0 then .ok s
    else do
      let s ← s.vgaPutc ch
      s.vgaWrite str

/-! ## The loops -/

theorem set_ok {s : Screen} {i : Nat} (hi : i < 2000) (v : Cell) :
    s.set i v = .ok { s with mem := Function.update s.mem i v } := if_pos hi

theorem get_ok {s : Screen} {i : Nat} (hi : i < 2000) : s.get i = .ok (s.mem i) := if_pos hi

/-- A loop that writes `g` upwards, one cell after the first. -/
theorem ite_range_succ {β : Type} (f g : Nat → β) (i n j : Nat) :
    (if i + 1 ≤ j ∧ j < i + 1 + n then g j else Function.update f i (g i) j) =
      if i ≤ j ∧ j < i + (n + 1) then g j else f j := by
  by_cases hj : j = i
  · subst hj
    rw [if_neg (by omega), if_pos (by omega), Function.update_self]
  · rw [Function.update_of_ne hj]
    exact if_congr (by omega) rfl rfl

theorem fillLoop_eq (v : Cell) : ∀ {n i : Nat} (s : Screen), i + n ≤ 2000 →
    fillLoop v n i s =
      .ok { s with mem := fun j => if i ≤ j ∧ j < i + n then v else s.mem j } := by
  intro n
  induction n with
  | zero =>
    intro i s _
    have hmem : (fun j => if i ≤ j ∧ j < i + 0 then v else s.mem j) = s.mem := by
      funext j
      exact if_neg (by omega)
    rw [fillLoop, hmem]
  | succ n ih =>
    intro i s hi
    rw [fillLoop, set_ok (by omega), Machine.ok_bind, ih _ (by omega)]
    congr 2
    funext j
    exact ite_range_succ s.mem (fun _ => v) i n j

/-- The copy runs upwards, so each cell is read before it is written. -/
theorem copyLoop_eq : ∀ {n i : Nat} (s : Screen), i + n ≤ 1920 →
    copyLoop n i s =
      .ok { s with mem := fun j => if i ≤ j ∧ j < i + n then s.mem (j + 80) else s.mem j } := by
  intro n
  induction n with
  | zero =>
    intro i s _
    have hmem : (fun j => if i ≤ j ∧ j < i + 0 then s.mem (j + 80) else s.mem j) = s.mem := by
      funext j
      exact if_neg (by omega)
    rw [copyLoop, hmem]
  | succ n ih =>
    intro i s hi
    rw [copyLoop, get_ok (by unfold screenLength; omega), Machine.ok_bind, set_ok (by omega),
      Machine.ok_bind, ih _ (by omega)]
    congr 2
    funext j
    rw [← ite_range_succ s.mem (fun j => s.mem (j + 80)) i n j]
    refine ite_congr rfl (fun hj => ?_) fun _ => rfl
    exact Function.update_of_ne (by omega) _ _

/-! ## Cursor movements -/

/-- The cursor is on the screen. -/
structure InScreen (s : Screen) : Prop where
  x : s.x < 80
  y : s.y < 25
  tab : s.tabSz = 4

/-- What `vga_scroll` leaves in the cells: every row moves up, and the last one is blank. -/
def scrolled (s : Screen) (j : Nat) : Cell :=
  if j < 1920 then s.mem (j + 80) else if j < 2000 then paint s.color 0x20 else s.mem j

/-- A new line below the others, or below the 24 last ones. -/
def nextLine (s : Screen) : Screen :=
  if s.y < 24 then { s with x := 0, y := s.y + 1 } else { s with x := 0, mem := s.scrolled }

theorem vgaScroll_eq {s : Screen} (hy : s.y = 25) :
    s.vgaScroll = .ok { s with y := 24, mem := s.scrolled } := by
  have hge : s.y ≥ screenHeight := Nat.le_of_eq hy.symm
  have hmem : (fun j => if 1920 ≤ j ∧ j < 1920 + 80 then paint s.color 0x20
      else if 0 ≤ j ∧ j < 0 + 1920 then s.mem (j + 80) else s.mem j) = s.scrolled := by
    funext j
    rw [scrolled]
    by_cases h1 : j < 1920
    · rw [if_neg (by omega), if_pos (by omega), if_pos h1]
    · by_cases h2 : j < 2000
      · rw [if_pos (by omega), if_neg h1, if_pos h2]
      · rw [if_neg (by omega), if_neg (by omega), if_neg h1, if_neg h2]
  have hcopy := copyLoop_eq (n := 1920) (i := 0) s (Nat.le_refl _)
  have hrows : (screenHeight - 1) * screenLength = 1920 := rfl
  have hrow : screenLength = 80 := rfl
  rw [vgaScroll, if_pos hge, hrows, hrow, hcopy, Machine.ok_bind, fillLoop_eq _ _ (by omega),
    Machine.ok_bind]
  dsimp only
  rw [hmem, hy]
  rfl

theorem newLine_eq {s : Screen} (hy : s.y < 25) : s.newLine = .ok s.nextLine := by
  have hmod : (s.y + 1) % 2 ^ 8 = s.y + 1 := Nat.mod_eq_of_lt (by omega)
  rw [newLine, nextLine]
  dsimp only
  rw [hmod]
  by_cases hlt : s.y < 24
  · rw [if_neg (by unfold screenHeight; omega), if_pos hlt]
  · obtain h24 : s.y = 24 := by omega
    rw [if_pos (by unfold screenHeight; omega), if_neg hlt, vgaScroll_eq (by rw [h24])]
    rw [← h24]
    rfl

theorem nextLine_inScreen {s : Screen} (hy : s.y < 25) (ht : s.tabSz = 4) : InScreen s.nextLine := by
  rw [nextLine]
  split
  · exact ⟨by simp, by simp; omega, ht⟩
  · exact ⟨by simp, hy, ht⟩

/-- The end of `vga_putc` from a cursor that may have left its row. -/
def settled (s : Screen) : Screen :=
  vgaUpdateCursor (if s.x < 80 then s else s.nextLine)

theorem putcEnd_eq {s : Screen} (hy : s.y < 25) : s.putcEnd = .ok s.settled := by
  rw [putcEnd, settled]
  by_cases hx : s.x < 80
  · rw [if_neg (by unfold screenLength; omega), if_pos hx]
    rfl
  · rw [if_pos (by unfold screenLength; omega), if_neg hx, newLine_eq hy]
    rfl

theorem settled_inScreen {s : Screen} (hy : s.y < 25) (ht : s.tabSz = 4) : InScreen s.settled := by
  rw [settled]
  split
  · rename_i hx
    exact ⟨hx, hy, ht⟩
  · obtain ⟨h1, h2, h3⟩ := nextLine_inScreen hy ht
    exact ⟨h1, h2, h3⟩

theorem nextLine_color (s : Screen) : s.nextLine.color = s.color := by
  rw [nextLine]
  split <;> rfl

theorem settled_color (s : Screen) : s.settled.color = s.color := by
  rw [settled]
  split
  · rfl
  · exact s.nextLine_color

theorem vgaWriteMem_eq {s : Screen} {x y : Nat} (hx : x < 80) (hy : y < 25) (v : Cell) :
    s.vgaWriteMem x y v = .ok { s with mem := Function.update s.mem (80 * y + x) v } := by
  rw [vgaWriteMem, show y * screenLength + x = 80 * y + x by unfold screenLength; omega]
  exact set_ok (by omega) v

/-- The next tab stop, which may be the end of the row. -/
theorem tab_eq {x : Nat} (hx : x < 80) : (x + (4 - (x + 4) % 4)) % 2 ^ 8 = x + (4 - x % 4) := by
  omega

/-! ## `vga_putc` -/

/-- Every byte keeps the cursor on the screen, and all accesses stay inside it. -/
theorem vgaPutc_inScreen {s : Screen} (h : InScreen s) (ch : Byte) :
    ∃ s', s.vgaPutc ch = .ok s' ∧ InScreen s' := by
  obtain ⟨hx, hy, ht⟩ := h
  have hend : ∀ s : Screen, s.y < 25 → s.tabSz = 4 → ∃ s', s.putcEnd = .ok s' ∧ InScreen s' :=
    fun s hy ht => ⟨_, putcEnd_eq hy, settled_inScreen hy ht⟩
  rw [vgaPutc]
  split
  · rw [vgaWriteMem_eq hx hy, Machine.ok_bind]
    exact hend _ hy ht
  split
  · exact hend _ hy ht
  split
  · exact hend _ hy ht
  split
  · obtain ⟨_, hy', ht'⟩ := nextLine_inScreen hy ht
    rw [newLine_eq hy, Machine.ok_bind]
    exact hend _ hy' ht'
  split
  · rw [vgaWriteMem_eq hx hy, Machine.ok_bind]
    exact hend _ hy ht
  · exact ⟨s, rfl, hx, hy, ht⟩

theorem vgaInit_eq (s : Screen) (fg bg : Color) :
    ∃ s', s.vgaInit fg bg = .ok s' ∧ InScreen s' ∧ s'.x = 0 ∧ s'.y = 0 ∧
      s'.color = (bg.value <<< 4) + fg.value ∧
      ∀ j, j < 2000 → s'.mem j = paint ((bg.value <<< 4) + fg.value) 0x20 := by
  refine ⟨_, fillLoop_eq _ _ (by decide), ⟨by simp, by simp, rfl⟩, rfl, rfl, rfl, fun j hj => ?_⟩
  exact if_pos ⟨Nat.zero_le _, by unfold screenLength screenHeight; omega⟩

/-- So does every string. -/
theorem vgaPuts_inScreen : ∀ (str : List Byte) {s : Screen}, InScreen s →
    ∃ s', str.foldlM vgaPutc s = .ok s' ∧ InScreen s' := by
  intro str
  induction str with
  | nil => intro s h; exact ⟨s, rfl, h⟩
  | cons ch str ih =>
    intro s h
    obtain ⟨s₁, h₁, hin⟩ := vgaPutc_inScreen h ch
    obtain ⟨s₂, h₂, hin₂⟩ := ih hin
    refine ⟨s₂, ?_, hin₂⟩
    rw [List.foldlM_cons, h₁]
    exact h₂

/-- **The console stays on the screen.** For every string of bytes after `vga_init`, every access to
the cells is inside the screen, and the cursor is on it after the last call. -/
theorem console_inScreen (s : Screen) (fg bg : Color) (str : List Byte) :
    ∃ s', (s.vgaInit fg bg >>= fun s => str.foldlM vgaPutc s) = .ok s' ∧ s'.x < 80 ∧ s'.y < 25 := by
  obtain ⟨s₀, h₀, hin, _⟩ := s.vgaInit_eq fg bg
  obtain ⟨s', h', hin'⟩ := vgaPuts_inScreen str hin
  refine ⟨s', ?_, hin'.x, hin'.y⟩
  rw [h₀]
  exact h'

end Screen
end Vga
end Frod
