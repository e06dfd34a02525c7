import Frod.Kbd.Complete
import Frod.Printf.Output
import Frod.Ps2.Model

/-!
# Frod.Kbd.Console

From the keyboard to the screen.

An interrupt of the PS/2 controller reads one byte and gives it to the function that is registered
for its channel. `ps2kbd_init` registers `kbd_add_scancode` for the first channel, which prints the
key code when its state machine reports one. `typed_shown` is about whole runs of interrupts of both
channels: what the sequences of a represented table are read from the first channel shows their key
codes on the screen, one after the other.
-/

namespace Frod
namespace Kbd

/-- The globals of the PS/2 driver and of the keyboard driver, and what is printed on. -/
structure Keys where
  ps2 : Ps2.Driver
  kbd : State
  out : Printf.Consoles

/-- `inb(PS2_PORT_READ_DATA)`. -/
def Keys.inbData (c : Ps2.Ctrl) (k : Keys) : Byte × Keys :=
  ((k.ps2.conn.inbData c).1, { k with ps2 := { k.ps2 with conn := (k.ps2.conn.inbData c).2 } })

/-- The functions at the addresses that `ps2_register` is given. -/
abbrev Handlers := Nat → Byte → Keys → Except (Printf.Halt Vga.Fault) Keys

section Source

variable (level fuel : Nat) (m : Mem) (fmt : Nat) (c : Ps2.Ctrl) (handlers : Handlers)

/-- `kbd_add_scancode`, compiled with `DEBUG = level`, with its format at `fmt`. -/
def kbdAddScancodePrint (sc : Byte) (k : Keys) : Except (Printf.Halt Vga.Fault) Keys :=
  match kbdAddScancode m k.kbd sc with
  | (none, s) => .ok { k with kbd := s }
  | (some code, s) => do
    let (_, out) ← Printf.kprintf level fuel m .highInfo fmt (fun _ => code.setWidth 32) k.out
    return { k with kbd := s, out := out }

/-- `ps2_handle_interrupt_1st`, `ps2_handle_interrupt_2nd`, for the channel `i`. -/
def ps2HandleInterrupt (k : Keys) (i : Fin 2) : Except (Printf.Halt Vga.Fault) (Word × Keys) :=
  match k.inbData c with
  | (data, k) =>
    if (k.ps2.registered i).active = true then do
      let k ← handlers (k.ps2.registered i).callback data k
      return (0, k)
    else .ok (0, k)

end Source

/-- "PS/2 Keyboard Driver". -/
def driverName : List Byte :=
  ['P', 'S', '/', '2', ' ', 'K', 'e', 'y', 'b', 'o', 'a', 'r', 'd', ' ', 'D', 'r', 'i', 'v', 'e', 'r'].map
    Printf.ch

/-- `ps2kbd_init`, with `kbd_add_scancode` at the address `handler`. -/
def ps2kbdInit (handler : Nat) (d : Ps2.Driver) : Word × Ps2.Driver :=
  (0, (Ps2.ps2Register handler driverName 1 d).2)

/-! ## What the state machine reports -/

theorem mask_eq : kbdFlagMaskPendMore = 0x80 := by decide

/-- The state machine follows the blocks as `lookup` does. -/
theorem feed_lookup {m : Mem} {keymap : Nat} {data : List Block}
    (hload : Loaded m keymap (writeBinaryFile data)) {e : Elem} (he : pending e = false) :
    ∀ {s : List Byte} {n : Nat}, lookup data n s = some e →
      feed m (atBlock keymap n) s =
        (List.replicate (s.length - 1) none ++ [some e.1], kbdInit keymap) := by
  intro s
  induction s with
  | nil => intro n h; cases h
  | cons x s ih =>
    intro n h
    cases s with
    | nil =>
      obtain ⟨B, hB, rfl⟩ := Option.map_eq_some_iff.mp h
      have hflag : (B x).2 &&& kbdFlagMaskPendMore = 0 := by
        rw [mask_eq]
        simpa [pending] using he
      rw [feed, kbdAddScancode_key hload hB hflag]
      rfl
    | cons y s =>
      rw [lookup] at h
      cases hB : data[n]? with
      | none => rw [hB] at h; cases h
      | some B =>
        rw [hB] at h
        dsimp only at h
        split at h
        · rename_i hp
          obtain ⟨hkc, hflag⟩ := elem_loaded hload hB x
          have hstep : kbdAddScancode m (atBlock keymap n) x =
              (none, atBlock keymap (B x).1.toNat) := by
            rw [kbdAddScancode, hkc, hflag, mask_eq, if_pos (by simpa [pending] using hp), atBlock,
              atBlock, Nat.mul_assoc, Nat.mul_comm (B x).1.toNat]
          rw [feed, hstep]
          dsimp only
          rw [ih h]
          rfl
        · cases h

/-- The codes among what the bytes reported. -/
def codes (os : List (Option Byte)) : List Byte := os.filterMap id

theorem codes_append (os os' : List (Option Byte)) : codes (os ++ os') = codes os ++ codes os' :=
  List.filterMap_append

/-- Sequences of a represented table leave the state machine where it was, and report their key
codes. -/
theorem feed_strokes {m : Mem} {keymap : Nat} (hk : keymap < 2 ^ 32) {data : List Block}
    (hload : Loaded m keymap (writeBinaryFile data)) : ∀ {strokes : List Item},
    (∀ l ∈ strokes, lookup data 0 l.scancode = some l.elem) →
      codes (feed m (kbdInit keymap) (strokes.flatMap Item.scancode)).1 =
          strokes.map Item.keycode ∧
        (feed m (kbdInit keymap) (strokes.flatMap Item.scancode)).2 = kbdInit keymap := by
  intro strokes
  induction strokes with
  | nil => intro _; exact ⟨rfl, rfl⟩
  | cons l strokes ih =>
    intro h
    obtain ⟨hl, hstrokes⟩ := List.forall_mem_cons.mp h
    obtain ⟨hcodes, hstate⟩ := ih hstrokes
    have hone := feed_lookup hload (pending_elem l) hl
    rw [← kbdInit_eq hk] at hone
    rw [List.flatMap_cons, feed_append, hone]
    refine ⟨?_, hstate⟩
    rw [codes_append, codes_append, hcodes, codes, List.filterMap_replicate_of_none rfl]
    rfl

/-! ## What the screen shows -/

/-- The text of a key code: "%x " prints it when messages of its level are compiled in. -/
def codeText (level : Nat) (code : Byte) : List Byte :=
  if level ≤ 3 then Printf.numeral 16 false code.toNat ++ [0x20] else []

/-- "%x ". -/
def codeFormat : List Byte := [Printf.ch '%', Printf.ch 'x', Printf.ch ' ']

theorem format_code (code : Byte) :
    Printf.format (fun _ => []) codeFormat (fun _ => code.setWidth 32) =
      Printf.numeral 16 false code.toNat ++ [0x20] := by
  simp [Printf.format, codeFormat, Printf.Scan.pieces, Printf.Scan.step, Printf.field, Printf.finish,
    Printf.isDigit, Printf.isModifier, Printf.conversion, Printf.render, Printf.Directive.show,
    Printf.Conv.body, Printf.Conv.isNumber, Printf.Body.fill, Printf.signText, Printf.ch]
  rw [Nat.mod_eq_of_lt (by have := code.isLt; omega)]

theorem plain_digit : ∀ {d : Nat}, d < 16 → Vga.Plain (Printf.digit false d) := by
  simp only [Vga.Plain]
  decide

/-- The call of `kprintf`. -/
def codeCall (fmt : Nat) (code : Byte) : Printf.Call :=
  ⟨.highInfo, fmt, codeFormat, fun _ => code.setWidth 32⟩

theorem codeCall_onScreen (level fmt : Nat) (code : Byte) :
    (codeCall fmt code).onScreen level (fun _ => []) = codeText level code := by
  have htext : (codeCall fmt code).text (fun _ => []) = Printf.numeral 16 false code.toNat ++ [0x20] :=
    format_code code
  rw [Printf.Call.onScreen, htext, codeText]
  simp [codeCall, Printf.KMLevel.value]

theorem codeCall_fine {m : Mem} {fmt : Nat} (hfmt : Str.IsStr m fmt codeFormat) (code : Byte) :
    (codeCall fmt code).Fine m (fun _ => []) := by
  refine ⟨hfmt, fun p hp => ?_, rfl, fun b hb => ?_⟩
  · simp [codeCall, codeFormat, Printf.Scan.pieces, Printf.Scan.step, Printf.field, Printf.finish,
      Printf.isDigit, Printf.isModifier, Printf.conversion, Printf.pointers, Printf.ch] at hp
  · rw [Printf.Call.text, codeCall, format_code] at hb
    obtain hb | hb := List.mem_append.mp hb
    · obtain ⟨d, hd, rfl⟩ := List.mem_map.mp hb
      exact plain_digit (Printf.digitsOf_lt (by omega) _ d hd)
    · rw [List.mem_singleton.mp hb]
      exact .inl ⟨by decide, by decide⟩

section Run

variable (level : Nat) {m : Mem} {fmt : Nat} (hfmt : Str.IsStr m fmt codeFormat)
include hfmt

/-- One byte given to `kbd_add_scancode`. -/
theorem print_shown {k : Keys} {t : Vga.Text} (hs : Vga.Shows k.out.screen t)
    (hin : k.out.screen.InScreen) (sc : Byte) :
    ∃ k', k'.ps2 = k.ps2 ∧ k'.kbd = (kbdAddScancode m k.kbd sc).2 ∧
      Vga.Shows k'.out.screen (((codes [(kbdAddScancode m k.kbd sc).1]).flatMap
        (codeText level)).foldl Vga.Text.type t) ∧ k'.out.screen.InScreen ∧
      k'.out.port = k.out.port ∧
      ∃ n, ∀ fuel, n ≤ fuel → kbdAddScancodePrint level fuel m fmt sc k = .ok k' := by
  cases h : kbdAddScancode m k.kbd sc with
  | mk o s =>
    cases o with
    | none =>
      refine ⟨{ k with kbd := s }, rfl, rfl, hs, hin, rfl, 0, fun fuel _ => ?_⟩
      rw [kbdAddScancodePrint, h]
    | some code =>
      obtain ⟨out, hshow, hin', hport, n, hn⟩ :=
        Printf.kprintf_step level (codeCall_fine hfmt code) hs hin
      rw [codeCall_onScreen] at hshow
      refine ⟨{ k with kbd := s, out := out }, rfl, rfl, ?_, hin', ?_, n, fun fuel hf => ?_⟩
      · have hone : codes [some code] = [code] := rfl
        rw [hone, List.flatMap_singleton]
        exact hshow
      · exact hport.trans (by simp [Printf.Call.onPort, codeCall])
      · have hcall := hn fuel hf
        rw [codeCall] at hcall
        rw [kbdAddScancodePrint, h]
        dsimp only
        rw [hcall]
        rfl

omit hfmt in
theorem ps2HandleInterrupt_eq (c : Ps2.Ctrl) (handlers : Handlers) (k : Keys) (i : Fin 2) :
    ps2HandleInterrupt c handlers k i =
      if (k.ps2.registered i).active = true then
        handlers (k.ps2.registered i).callback (c.data k.ps2.conn.reads) (k.inbData c).2 >>=
          fun k => .ok (0, k)
      else .ok (0, (k.inbData c).2) := rfl

/-- The bytes that the interrupts of the first channel read, from the byte `n` on. -/
def keyBytes (c : Ps2.Ctrl) : Nat → List (Fin 2) → List Byte
  | _, [] => []
  | n, i :: irqs => (if i = 0 then [c.data n] else []) ++ keyBytes c (n + 1) irqs

/-- What is at the addresses of the functions: `kbd_add_scancode` at `handler`. -/
def handlersAt (level fuel : Nat) (m : Mem) (fmt handler : Nat) (others : Handlers) : Handlers :=
  Function.update others handler (kbdAddScancodePrint level fuel m fmt)

/-- Runs of interrupts: the bytes of the first channel go through the state machine, those of the
second are dropped. -/
theorem interrupts_shown (c : Ps2.Ctrl) (others : Handlers) {handler : Nat} {name : List Byte} :
    ∀ (irqs : List (Fin 2)) {k : Keys} {t : Vga.Text},
      k.ps2.registered 0 = ⟨handler, name, true⟩ → (k.ps2.registered 1).active = false →
      Vga.Shows k.out.screen t → k.out.screen.InScreen →
      ∃ k', k'.kbd = (feed m k.kbd (keyBytes c k.ps2.conn.reads irqs)).2 ∧
        Vga.Shows k'.out.screen (((codes (feed m k.kbd (keyBytes c k.ps2.conn.reads irqs)).1).flatMap
          (codeText level)).foldl Vga.Text.type t) ∧ k'.out.port = k.out.port ∧
        ∃ n, ∀ fuel, n ≤ fuel →
          Machine.runAll (ps2HandleInterrupt c (handlersAt level fuel m fmt handler others)) k irqs =
            .ok (List.replicate irqs.length 0, k') := by
  intro irqs
  induction irqs with
  | nil =>
    intro k t _ _ hs _
    exact ⟨k, rfl, hs, rfl, 0, fun _ _ => rfl⟩
  | cons i irqs ih =>
    intro k t h0 h1 hs hin
    by_cases hi : i = 0
    · subst hi
      obtain ⟨k₂, hps2, hkbd, hs₂, hin₂, hport₂, n₁, hn₁⟩ :=
        print_shown level hfmt (k := (k.inbData c).2) hs hin (c.data k.ps2.conn.reads)
      obtain ⟨k', hk', hs', hport', n₂, hn₂⟩ := ih (k := k₂) (by rw [hps2]; exact h0)
        (by rw [hps2]; exact h1) hs₂ hin₂
      have hreads : k₂.ps2.conn.reads = k.ps2.conn.reads + 1 := by rw [hps2]; rfl
      have hbytes : keyBytes c k.ps2.conn.reads (0 :: irqs) =
          [c.data k.ps2.conn.reads] ++ keyBytes c (k.ps2.conn.reads + 1) irqs := rfl
      rw [hreads, hkbd] at hk' hs'
      rw [hbytes, feed_append]
      refine ⟨k', hk', ?_, hport'.trans hport₂, max n₁ n₂, fun fuel hf => ?_⟩
      · rw [codes_append, List.flatMap_append, List.foldl_append]
        exact hs'
      · refine Machine.runAll_cons_of ?_ (hn₂ fuel (by omega))
        rw [ps2HandleInterrupt_eq, h0, if_pos rfl, handlersAt, Function.update_self,
          hn₁ fuel (by omega)]
        rfl
    · obtain rfl : i = 1 := by omega
      obtain ⟨k', hk', hs', hport', n, hn⟩ := ih (k := (k.inbData c).2) h0 h1 hs hin
      refine ⟨k', hk', hs', hport', n, fun fuel hf => ?_⟩
      refine Machine.runAll_cons_of ?_ (hn fuel hf)
      rw [ps2HandleInterrupt_eq, h1, if_neg Bool.false_ne_true]

end Run

/-! ## Registering -/

theorem runSteps_registered : ∀ {fs : List (Ps2.Driver → Option (BitVec 16) × Ps2.Driver)}
    {d : Ps2.Driver}, (∀ f ∈ fs, ∀ d, (f d).2.registered = d.registered) →
    (Ps2.Driver.runSteps d fs).2.registered = d.registered := by
  intro fs
  induction fs with
  | nil => intro d _; rfl
  | cons f fs ih =>
    intro d h
    obtain ⟨hf, hfs⟩ := List.forall_mem_cons.mp h
    rw [Ps2.Driver.runSteps]
    split
    · rename_i r d' heq
      rw [← hf d, heq]
    · rename_i d' heq
      rw [ih hfs, ← hf d, heq]

/-- `ps2_init` leaves no function registered. -/
theorem ps2Init_registered (c : Ps2.Ctrl) (d : Ps2.Driver) :
    (Ps2.ps2Init c d).2.registered = fun _ => ⟨0, [], false⟩ := by
  rw [Ps2.ps2Init, runSteps_registered]
  simp only [List.forall_mem_cons]
  refine ⟨fun d => rfl, fun d => ?_, fun d => ?_, fun d => ?_, fun d => ?_, fun d => ?_, fun d => ?_,
    fun d => ?_, fun d => ?_, fun f hf => absurd hf List.not_mem_nil⟩
  · rw [Ps2.Driver.configure]
    dsimp only
    split <;> rfl
  · rw [Ps2.Driver.selfTest]
    dsimp only
    split
    · rfl
    · split <;> rfl
  · rw [Ps2.Driver.checkSecond]
    dsimp only
    split
    · rfl
    · split <;> rfl
  · rw [Ps2.Driver.testFirst]
    dsimp only
    split <;> rfl
  · rw [Ps2.Driver.testSecond]
    dsimp only
    split <;> split <;> (try split) <;> rfl
  · rw [Ps2.Driver.enable]
    dsimp only
    split
    · rfl
    · split <;> split <;> rfl
  · rw [Ps2.Driver.resetFirst]
    split
    · dsimp only
      split <;> rfl
    · rfl
  · rw [Ps2.Driver.resetSecond]
    split
    · dsimp only
      split <;> rfl
    · rfl

/-- What `ps2kbd_init` does when the first channel is in order and free. -/
theorem ps2kbdInit_eq {d : Ps2.Driver} (hfirst : d.channelStatus &&& 0xFF = 0)
    (hfree : (d.registered 0).active = false) (handler : Nat) :
    ps2kbdInit handler d =
      (0, { d with registered := Function.update d.registered 0 ⟨handler, driverName, true⟩ }) := by
  have hname : (driverName.takeWhile (· ≠ 0)).take (Ps2.maxNameSz - 1) = driverName := by decide
  rw [ps2kbdInit, Ps2.ps2Register, if_neg (by decide), if_neg fun h => h.2 hfirst,
    if_neg fun h => absurd h.1 (by decide)]
  dsimp only
  rw [if_pos rfl, hfree, if_neg Bool.false_ne_true, hname]

/-- **What is typed is shown.** The image that the generator makes of a table it drops no key of is
at `keymap`, `ps2_init` has found the first channel in order, and `ps2kbd_init` has been called.
Then, in whatever order the interrupts of the two channels come: if the bytes read from the first
are sequences of the table, the screen shows the key codes of their rows, one after the other, and
the state machine is where it was. The bytes read from the second channel change nothing. -/
theorem typed_shown {level : Nat} {m : Mem} {fmt : Nat} (hfmt : Str.IsStr m fmt codeFormat)
    {rows : List Row} {head : List (List Byte)} {data : List Block}
    (hok : getAllBlocks (transformList rows) head = .ok data)
    (hcomplete : Complete (transformList rows) head) {keymap : Nat} (hk : keymap < 2 ^ 32)
    (hload : Loaded m keymap (writeBinaryFile data)) (c : Ps2.Ctrl) (d : Ps2.Driver)
    (hfirst : (Ps2.ps2Init c d).2.channelStatus &&& 0xFF = 0) (handler : Nat) (others : Handlers)
    {out : Printf.Consoles} {t : Vga.Text} (hs : Vga.Shows out.screen t) (hin : out.screen.InScreen)
    {strokes : List Item} (hstrokes : ∀ l ∈ strokes, l ∈ transformList rows) {irqs : List (Fin 2)}
    (hbytes : keyBytes c (Ps2.ps2Init c d).2.conn.reads irqs = strokes.flatMap Item.scancode) :
    ∃ k', k'.kbd = kbdInit keymap ∧
      Vga.Shows k'.out.screen
        ((strokes.flatMap fun l => codeText level l.keycode).foldl Vga.Text.type t) ∧
      k'.out.port = out.port ∧
      ∃ n, ∀ fuel, n ≤ fuel →
        Machine.runAll (ps2HandleInterrupt c (handlersAt level fuel m fmt handler others))
          ⟨(ps2kbdInit handler (Ps2.ps2Init c d).2).2, kbdInit keymap, out⟩ irqs =
            .ok (List.replicate irqs.length 0, k') := by
  have hfree : ∀ i, ((Ps2.ps2Init c d).2.registered i).active = false := by
    intro i
    rw [ps2Init_registered]
  obtain ⟨hcodes, hstate⟩ := feed_strokes hk hload fun l hl =>
    lookup_of_complete hok hcomplete (hstrokes l hl)
  rw [ps2kbdInit_eq hfirst (hfree 0)]
  have h0 : Function.update (Ps2.ps2Init c d).2.registered 0 ⟨handler, driverName, true⟩ 0 =
      ⟨handler, driverName, true⟩ := Function.update_self ..
  have h1 : (Function.update (Ps2.ps2Init c d).2.registered 0 ⟨handler, driverName, true⟩ 1).active =
      false := by
    rw [Function.update_of_ne (by decide)]
    exact hfree 1
  obtain ⟨k', hk', hs', hport, hn⟩ := interrupts_shown level hfmt c others irqs
    (k := ⟨{ (Ps2.ps2Init c d).2 with
      registered := Function.update (Ps2.ps2Init c d).2.registered 0 ⟨handler, driverName, true⟩ },
        kbdInit keymap, out⟩) h0 h1 hs hin
  dsimp only at hk' hs' hport
  rw [hbytes, hstate] at hk'
  rw [hbytes, hcodes, List.flatMap_map] at hs'
  exact ⟨k', hk', hs', hport, hn⟩

/-! ## The up arrow -/

/-- A controller with a keyboard on its first channel, on which the up arrow is pressed, and a byte
of the second channel between the two of its sequence. -/
def upArrowCtrl : Ps2.Ctrl :=
  ⟨fun _ => 1, fun n => [0, 0, 0x55, 0x20, 0, 0, 0xFA, 0xE0, 0x08, 0x75].getD n 0⟩

/-- The format at 0x100, and an image at 0x100000. -/
def imageMem (image : List Byte) : Mem := fun a =>
  if a < 0x100000 then Printf.bytesAt 0x100 codeFormat a else image.getD (a - 0x100000) 0

theorem imageMem_format (image : List Byte) : Str.IsStr (imageMem image) 0x100 codeFormat := by
  have hbytes : Str.IsStr (Printf.bytesAt 0x100 codeFormat) 0x100 codeFormat := by decide
  refine Printf.isStr_congr (fun i hi => ?_) hbytes
  have hi3 : i ≤ 3 := hi
  exact if_pos (by omega)

theorem imageMem_loaded {data : List Block} (h : data.length ≤ 256) :
    Loaded (imageMem (writeBinaryFile data)) 0x100000 (writeBinaryFile data) := by
  intro k b hb
  have hlt := (List.getElem?_eq_some_iff.mp hb).1
  rw [length_writeBinaryFile] at hlt
  have hk : (0x100000 + k) % 2 ^ 32 - 0x100000 = k := by omega
  rw [imageMem, if_neg (by omega), hk, List.getD_eq_getElem?_getD, hb]
  rfl

theorem complete_arrowUp : Complete (transformList [arrowUp]) shippedHead := by
  rw [transformList_arrowUp]
  refine ⟨by decide, fun l hl => ?_⟩
  simp only [List.mem_cons, List.not_mem_nil, or_false] at hl
  rcases hl with rfl | rfl
  · exact ⟨by decide, by decide⟩
  · exact ⟨by decide, [0xE0, 0xF0], by decide, .inl rfl⟩

/-- Its key code is 0x48. -/
theorem typed_shown_upArrow : ∃ data k',
    getAllBlocks (transformList [arrowUp]) shippedHead = .ok data ∧
    k'.kbd = kbdInit 0x100000 ∧
    Vga.Shows k'.out.screen ⟨[], [Printf.ch '4', Printf.ch '8', Printf.ch ' ']⟩ ∧
    k'.out.port = [] ∧
    ∃ n, ∀ fuel, n ≤ fuel →
      Machine.runAll (ps2HandleInterrupt upArrowCtrl
          (handlersAt 3 fuel (imageMem (writeBinaryFile data)) 0x100 0x2000 fun _ _ k => .ok k))
        ⟨(ps2kbdInit 0x2000 (Ps2.ps2Init upArrowCtrl Ps2.Driver.start).2).2, kbdInit 0x100000,
          ⟨⟨0, 0, 0, 4, fun _ => Vga.paint 0 0x20, (0, 0)⟩, []⟩⟩ [0, 1, 0] = .ok ([0, 0, 0], k') := by
  obtain ⟨data, hok⟩ := getAllBlocks_arrowUp
  have hlen : ∀ h ∈ shippedHead, h.length = 1 ∨ h.length = 2 := by decide
  obtain ⟨_, _, _, _, _, t⟩ := getAllBlocks_trie hlen (by decide) hok
  have hin : (⟨0, 0, 0, 4, fun _ => Vga.paint 0 0x20, (0, 0)⟩ : Vga.Screen).InScreen :=
    ⟨Nat.succ_pos 79, Nat.succ_pos 24, rfl⟩
  have hblank : Vga.Shows
      (⟨⟨0, 0, 0, 4, fun _ => Vga.paint 0 0x20, (0, 0)⟩, []⟩ : Printf.Consoles).screen ⟨[], []⟩ :=
    Vga.shows_blank rfl rfl fun _ _ => rfl
  have hbytes : keyBytes upArrowCtrl (Ps2.ps2Init upArrowCtrl Ps2.Driver.start).2.conn.reads
      [0, 1, 0] = [(⟨[0xE0, 0x75], 0x48, false⟩ : Item)].flatMap Item.scancode := by decide
  have hmem : ∀ l ∈ [(⟨[0xE0, 0x75], 0x48, false⟩ : Item)], l ∈ transformList [arrowUp] := by
    rw [transformList_arrowUp]
    decide
  have htext : codeText 3 0x48 = [Printf.ch '4', Printf.ch '8', Printf.ch ' '] := by
    simp [codeText, Printf.numeral, Printf.digitsOf, Printf.digit, Printf.ch]
  obtain ⟨k', hkbd, hshow, hport, hn⟩ := typed_shown (imageMem_format _) hok complete_arrowUp
    (by decide) (imageMem_loaded (t.length ▸ t.small)) upArrowCtrl Ps2.Driver.start (by decide)
    0x2000 (fun _ _ k => .ok k) hblank hin hmem hbytes
  refine ⟨data, k', hok, hkbd, ?_, hport, hn⟩
  rw [List.flatMap_singleton, htext] at hshow
  exact hshow

end Kbd
end Frod
