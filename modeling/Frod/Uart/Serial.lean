import Frod.Lib.BitArray
import Frod.Lib.Machine

/-!
# Frod.Uart.Serial

The serial port of `drv/uart.c`.

The chip shows its divisor latch in place of the data and the interrupt enable register while the
bit DLAB of its line control register is set. What the successive reads of its line status register
and of its receive buffer return is arbitrary (`Line`). `int8_t` results are given as `int16_t`. Registering the interrupt handler and
opening its line is in `Frod.Irq.Drivers`.

`uart_transfers`: whatever the registers were before `uart_init`, and whatever calls follow, bytes go
out and come in only as the calls report, each right after a status read that allowed it.
-/

namespace Frod
namespace Uart

/-- The registers by their offset: 0, 1, 2, 3, 4 and 5. -/
inductive Reg where
  | data | ier | fcr | lcr | mcr | lsr
  deriving DecidableEq

/-- What the reads of the line status register and of the receive buffer return, one after the other,
and what the interrupt identification register holds. -/
structure Line where
  status : Nat → Byte
  received : Nat → Byte
  iir : Byte

inductive Event where
  | status (b : Byte)
  | send (b : Byte)
  | receive (b : Byte)
  deriving DecidableEq

/-- The registers, the number of reads, and the accesses to the line. -/
structure Port where
  ier : Byte
  fcr : Byte
  lcr : Byte
  mcr : Byte
  dll : Byte
  dlh : Byte
  polls : Nat
  reads : Nat
  trace : List Event

/-- `LCR_MASK_DLAB`, `LCR_MASK_WORD_LEN8`, `LSR_MASK_EMPTY_THR`, `LSR_MASK_DATA_RDY`,
`LSR_MASK_NO_UART`. -/
def lcrMaskDlab : Byte := 0x80
def lcrMaskWordLen8 : Byte := 3
def lsrMaskEmptyThr : Byte := 0x20
def lsrMaskDataRdy : Byte := 1
def lsrMaskNoUart : Byte := 0xFF

namespace Port

def dlab (p : Port) : Bool := p.lcr &&& lcrMaskDlab ≠ 0

/-- `outb`; the line status register is read-only. -/
def outb (p : Port) (r : Reg) (v : Byte) : Port :=
  match r with
  | .data => if p.dlab then { p with dll := v } else { p with trace := p.trace ++ [.send v] }
  | .ier => if p.dlab then { p with dlh := v } else { p with ier := v }
  | .fcr => { p with fcr := v }
  | .lcr => { p with lcr := v }
  | .mcr => { p with mcr := v }
  | .lsr => p

/-- `inb`; offset 2 is the interrupt identification register when it is read. -/
def inb (c : Line) (p : Port) (r : Reg) : Byte × Port :=
  match r with
  | .data =>
    if p.dlab then (p.dll, p)
    else (c.received p.reads,
      { p with reads := p.reads + 1, trace := p.trace ++ [.receive (c.received p.reads)] })
  | .ier => if p.dlab then (p.dlh, p) else (p.ier, p)
  | .fcr => (c.iir, p)
  | .lcr => (p.lcr, p)
  | .mcr => (p.mcr, p)
  | .lsr =>
    (c.status p.polls,
      { p with polls := p.polls + 1, trace := p.trace ++ [.status (c.status p.polls)] })

theorem outb_data {p : Port} (h : p.dlab = false) (v : Byte) :
    p.outb .data v = { p with trace := p.trace ++ [.send v] } :=
  if_neg (Bool.eq_false_iff.mp h)

theorem outb_ier {p : Port} (h : p.dlab = false) (v : Byte) : p.outb .ier v = { p with ier := v } :=
  if_neg (Bool.eq_false_iff.mp h)

/-- The divisor latch. -/
theorem outb_latch {p : Port} (h : p.dlab = true) (v : Byte) :
    p.outb .data v = { p with dll := v } ∧ p.outb .ier v = { p with dlh := v } :=
  ⟨if_pos h, if_pos h⟩

theorem inb_data {p : Port} (h : p.dlab = false) (c : Line) :
    p.inb c .data = (c.received p.reads,
      { p with reads := p.reads + 1, trace := p.trace ++ [.receive (c.received p.reads)] }) :=
  if_neg (Bool.eq_false_iff.mp h)

end Port

/-- `uart_present` and the port. -/
structure State where
  present : Bool
  port : Port

/-- `UART_SUCCESS`, `UART_ERR_NOT_PRESENT`, `UART_ERR_PUTC_NOT_READY`, `UART_ERR_GETC_NOT_READY`. -/
def success : BitVec 16 := 0
def errNotPresent : BitVec 16 := -1
def errNotReady : BitVec 16 := -2

/-- `UART_BAUD_RATE`. -/
def uartBaudRate : Nat := 9600

/-- `uart_set_baud_rate`. -/
def uartSetBaudRate (c : Line) (baudRate : Nat) (p : Port) : Port :=
  let dlv := BitVec.ofNat 16 (115200 / baudRate)
  let (b, p) := p.inb c .lcr
  let p := p.outb .lcr (b ||| lcrMaskDlab)
  let p := p.outb .data ((dlv &&& 0xFF).setWidth 8)
  let p := p.outb .ier (((dlv &&& 0xFF00) >>> 8).setWidth 8)
  let (b, p) := p.inb c .lcr
  p.outb .lcr (b &&& ~~~lcrMaskDlab)

/-- The writes of `uart_init` before it looks for a port. -/
def program (c : Line) (p : Port) : Port :=
  let p := uartSetBaudRate c uartBaudRate (p.outb .ier 0)
  let p := p.outb .fcr (1 ||| 2 ||| 4 ||| 0xC0)
  let p := p.outb .mcr (1 ||| 2 ||| 8)
  p.outb .ier 1

/-- The rest of it when there is one. -/
def accept (c : Line) (p : Port) : Port :=
  let (lcr, p) := p.inb c .lcr
  let p := p.outb .lcr (lcr ||| lcrMaskWordLen8)
  let (_, p) := p.inb c .fcr
  let (_, p) := p.inb c .data
  p

/-- `uart_init`. -/
def uartInit (c : Line) (u : State) : BitVec 16 × State :=
  match (program c u.port).inb c .lsr with
  | (b, p) =>
    if b = lsrMaskNoUart then (errNotPresent, ⟨false, p⟩)
    else (success, ⟨true, accept c p⟩)

/-- The loop of `uart_putc`, with the number of rounds left. -/
def waitLoop (c : Line) : Nat → Port → Port
  | 0, p => p
  | n + 1, p =>
    match p.inb c .lsr with
    | (b, p) => if b &&& lsrMaskEmptyThr ≠ 0 then p else waitLoop c n p

/-- `uart_putc`. -/
def uartPutc (c : Line) (u : State) (ch : Byte) : BitVec 16 × State :=
  if u.present = false then (errNotPresent, u)
  else
    match (waitLoop c (1024 * 16) u.port).inb c .lsr with
    | (b, p) =>
      if b &&& lsrMaskEmptyThr ≠ 0 then (success, { u with port := p.outb .data ch })
      else (errNotReady, { u with port := p })

/-- `uart_getc`. -/
def uartGetc (c : Line) (u : State) : BitVec 16 × State :=
  if u.present = false then (errNotPresent, u)
  else
    match u.port.inb c .lsr with
    | (b, p) =>
      if b &&& lsrMaskDataRdy ≠ 0 then
        match p.inb c .data with
        | (d, p) => (d.setWidth 16, { u with port := p })
      else (errNotReady, { u with port := p })

inductive Call where
  | putc (ch : Byte)
  | getc

def step (c : Line) (u : State) : Call → BitVec 16 × State
  | .putc ch => uartPutc c u ch
  | .getc => uartGetc c u

/-! ## What the calls do to the line -/

def Event.sent : Event → Option Byte
  | .send b => some b
  | .status _ => none
  | .receive _ => none

def Event.got : Event → Option Byte
  | .receive b => some b
  | .status _ => none
  | .send _ => none

/-- The bytes that go out, and those that come in. -/
def sends (es : List Event) : List Byte := es.filterMap Event.sent
def receives (es : List Event) : List Byte := es.filterMap Event.got

/-- Every byte that goes out or comes in follows a status read that says the line is ready for it.
`s` is the last status that was read. -/
def Asked : Byte → List Event → Prop
  | _, [] => True
  | _, .status b :: es => Asked b es
  | s, .send _ :: es => s &&& lsrMaskEmptyThr ≠ 0 ∧ Asked 0 es
  | s, .receive _ :: es => s &&& lsrMaskDataRdy ≠ 0 ∧ Asked 0 es

theorem Asked.append {fs : List Event} (hf : ∀ s, Asked s fs) : ∀ {es : List Event} {s : Byte},
    Asked s es → Asked s (es ++ fs) := by
  intro es
  induction es with
  | nil => intro s _; exact hf s
  | cons e es ih =>
    intro s h
    cases e with
    | status b => exact ih (s := b) h
    | send b => exact ⟨h.1, ih h.2⟩
    | receive b => exact ⟨h.1, ih h.2⟩

theorem asked_statuses {fs : List Event} (hf : ∀ s, Asked s fs) : ∀ (bs : List Byte) (s : Byte),
    Asked s (bs.map .status ++ fs) := by
  intro bs
  induction bs with
  | nil => exact hf
  | cons b bs ih => exact fun _ => ih b

theorem sends_statuses (bs : List Byte) : sends (bs.map .status) = [] := by
  rw [sends, List.filterMap_map]
  exact List.filterMap_eq_nil_iff.mpr fun _ _ => rfl

theorem receives_statuses (bs : List Byte) : receives (bs.map .status) = [] := by
  rw [receives, List.filterMap_map]
  exact List.filterMap_eq_nil_iff.mpr fun _ _ => rfl

theorem sends_append (es fs : List Event) : sends (es ++ fs) = sends es ++ sends fs :=
  List.filterMap_append

theorem receives_append (es fs : List Event) : receives (es ++ fs) = receives es ++ receives fs :=
  List.filterMap_append

/-- What a call that returns `r` says it has put on the line, and taken from it. -/
def Call.sent : Call → BitVec 16 → List Byte
  | .putc ch, r => if r = success then [ch] else []
  | .getc, _ => []

def Call.got : Call → BitVec 16 → List Byte
  | .putc _, _ => []
  | .getc, r => if r = errNotReady then [] else [r.setWidth 8]

/-- The calls have taken the port from `p` to `p'`, with the accesses `new`: only the line has been
used, each byte when it was ready for it, exactly the bytes that the calls report, those that came
in without a gap, and with a bounded number of status reads. -/
structure Moves (c : Line) (calls : List Call) (rs : List (BitVec 16)) (p p' : Port)
    (new : List Event) : Prop where
  port : p' = { p with
    polls := p'.polls, reads := p.reads + (receives new).length, trace := p.trace ++ new }
  asked : ∀ s, Asked s new
  sent : sends new = (List.zipWith Call.sent calls rs).flatten
  got : receives new = (List.zipWith Call.got calls rs).flatten
  inOrder : receives new = (List.range' p.reads (receives new).length).map c.received
  short : new.length ≤ 16386 * calls.length

theorem Moves.nil (c : Line) (p : Port) : Moves c [] [] p p [] :=
  ⟨by rw [List.append_nil]; rfl, fun _ => trivial, rfl, rfl, rfl, Nat.le_refl 0⟩

theorem Moves.cons {c : Line} {call : Call} {calls : List Call} {r : BitVec 16}
    {rs : List (BitVec 16)} {p p₁ p' : Port} {es fs : List Event} (h : Moves c [call] [r] p p₁ es)
    (h' : Moves c calls rs p₁ p' fs) : Moves c (call :: calls) (r :: rs) p p' (es ++ fs) := by
  have hreads : p₁.reads = p.reads + (receives es).length := by rw [h.port]
  refine ⟨?_, fun s => (h.asked s).append h'.asked, ?_, ?_, ?_, ?_⟩
  · rw [h'.port, h.port, receives_append, List.length_append, ← Nat.add_assoc, ← List.append_assoc]
  · rw [sends_append, h.sent, h'.sent]
    simp
  · rw [receives_append, h.got, h'.got]
    simp
  · rw [receives_append, List.length_append, ← List.range'_append_1, List.map_append, ← h.inOrder,
      ← hreads, ← h'.inOrder]
  · have hes := h.short
    have hfs := h'.short
    rw [List.length_singleton] at hes
    rw [List.length_append, List.length_cons]
    omega

/-- The loop of `uart_putc` reads the status at most `n` times. -/
theorem waitLoop_eq (c : Line) : ∀ (n : Nat) (p : Port), ∃ bs : List Byte, bs.length ≤ n ∧
    waitLoop c n p =
      { p with polls := p.polls + bs.length, trace := p.trace ++ bs.map .status } := by
  intro n
  induction n with
  | zero =>
    intro p
    refine ⟨[], Nat.le_refl 0, ?_⟩
    rw [List.map_nil, List.append_nil]
    rfl
  | succ n ih =>
    intro p
    have hstep : waitLoop c (n + 1) p = if c.status p.polls &&& lsrMaskEmptyThr ≠ 0 then
        (p.inb c .lsr).2 else waitLoop c n (p.inb c .lsr).2 := rfl
    rw [hstep]
    split
    · exact ⟨[c.status p.polls], Nat.succ_le_succ (Nat.zero_le n), rfl⟩
    · obtain ⟨bs, hlen, heq⟩ := ih (p.inb c .lsr).2
      refine ⟨c.status p.polls :: bs, Nat.succ_le_succ hlen, ?_⟩
      rw [heq, List.map_cons, List.length_cons]
      simp only [Port.inb, List.append_assoc, List.singleton_append, Nat.add_assoc, Nat.add_comm 1]

/-- The status reads of `uart_putc`, of which the last one decides. -/
theorem poll_eq (c : Line) (n : Nat) (p : Port) : ∃ (bs : List Byte) (b : Byte) (k : Nat),
    bs.length ≤ n ∧ (waitLoop c n p).inb c .lsr =
      (b, { p with polls := k, trace := p.trace ++ (bs ++ [b]).map .status }) := by
  obtain ⟨bs, hlen, hwait⟩ := waitLoop_eq c n p
  refine ⟨bs, c.status (p.polls + bs.length), p.polls + bs.length + 1, hlen, ?_⟩
  rw [hwait, Port.inb, List.map_append, ← List.append_assoc]
  rfl

section Calls

variable {c : Line} {u : State} (hpresent : u.present = true) (hdlab : u.port.dlab = false)
include hpresent hdlab

theorem uartPutc_moves (ch : Byte) : ∃ r u' new, uartPutc c u ch = (r, u') ∧ u'.present = true ∧
    Moves c [.putc ch] [r] u.port u'.port new := by
  have hp : u.present ≠ false := by rw [hpresent]; decide
  obtain ⟨bs, b, k, hlen, hread⟩ := poll_eq c (1024 * 16) u.port
  have hstatuses : (bs ++ [b]).length ≤ 16385 := by
    rw [List.length_append]
    exact Nat.succ_le_succ hlen
  by_cases hready : b &&& lsrMaskEmptyThr ≠ 0
  · have hclear : ({ u.port with
        polls := k, trace := u.port.trace ++ (bs ++ [b]).map .status } : Port).dlab = false := hdlab
    refine ⟨success, { u with port := { u.port with
        polls := k, trace := u.port.trace ++ (bs ++ [b]).map .status ++ [.send ch] } },
      (bs ++ [b]).map .status ++ [.send ch], ?_, hpresent, ?_⟩
    · rw [uartPutc, if_neg hp, hread]
      dsimp only
      rw [if_pos hready, Port.outb_data hclear]
    · have hreceives : receives ((bs ++ [b]).map .status ++ [.send ch]) = [] := by
        rw [receives_append, receives_statuses]
        rfl
      have hasked : ∀ s, Asked s [.status b, .send ch] := fun _ => ⟨hready, trivial⟩
      refine ⟨?_, fun s => ?_, ?_, hreceives, ?_, ?_⟩
      · rw [hreceives, List.append_assoc]
        rfl
      · rw [List.map_append, List.append_assoc]
        exact asked_statuses hasked bs s
      · rw [sends_append, sends_statuses]
        rfl
      · rw [hreceives]
        rfl
      · rw [List.length_append, List.length_map]
        exact Nat.succ_le_succ hstatuses
  · refine ⟨errNotReady, { u with port := { u.port with
        polls := k, trace := u.port.trace ++ (bs ++ [b]).map .status } },
      (bs ++ [b]).map .status, ?_, hpresent, ?_⟩
    · rw [uartPutc, if_neg hp, hread]
      exact if_neg hready
    · have hreceives := receives_statuses (bs ++ [b])
      have hnone : ∀ s, Asked s [] := fun _ => trivial
      have hasked := asked_statuses hnone (bs ++ [b])
      rw [List.append_nil] at hasked
      refine ⟨?_, hasked, sends_statuses _, hreceives, ?_, ?_⟩
      · rw [hreceives]
        rfl
      · rw [hreceives]
        rfl
      · rw [List.length_map]
        exact Nat.le_succ_of_le hstatuses

theorem uartGetc_moves : ∃ r u' new, uartGetc c u = (r, u') ∧ u'.present = true ∧
    Moves c [.getc] [r] u.port u'.port new := by
  have hp : u.present ≠ false := by rw [hpresent]; decide
  by_cases hready : c.status u.port.polls &&& lsrMaskDataRdy ≠ 0
  · have hne : ∀ d : Byte, d.setWidth 16 ≠ errNotReady := by decide
    have hwidth : ∀ d : Byte, (d.setWidth 16).setWidth 8 = d := by decide
    refine ⟨(c.received u.port.reads).setWidth 16, { u with port := { u.port with
        polls := u.port.polls + 1
        reads := u.port.reads + 1
        trace := u.port.trace ++ [.status (c.status u.port.polls)] ++
          [.receive (c.received u.port.reads)] } },
      [.status (c.status u.port.polls), .receive (c.received u.port.reads)], ?_, hpresent, ?_⟩
    · have hdlab' : ({ u.port with
          polls := u.port.polls + 1
          trace := u.port.trace ++ [.status (c.status u.port.polls)] } : Port).dlab = false := hdlab
      rw [uartGetc, if_neg hp, Port.inb]
      dsimp only
      rw [if_pos hready, Port.inb_data hdlab']
    · refine ⟨?_, fun _ => ⟨hready, trivial⟩, rfl, ?_, rfl, ?_⟩
      · have hreceives : receives [.status (c.status u.port.polls),
            .receive (c.received u.port.reads)] = [c.received u.port.reads] := rfl
        rw [hreceives, List.append_assoc]
        rfl
      · show [c.received u.port.reads] = _
        simp [Call.got, hne, hwidth]
      · show 2 ≤ 16386
        decide
  · refine ⟨errNotReady, { u with port := (u.port.inb c .lsr).2 }, [.status (c.status u.port.polls)],
      ?_, hpresent, ?_⟩
    · rw [uartGetc, if_neg hp, Port.inb]
      exact if_neg hready
    · refine ⟨rfl, fun _ => trivial, rfl, rfl, rfl, ?_⟩
      show 1 ≤ 16386
      decide

end Calls

theorem step_moves {c : Line} {u : State} (hpresent : u.present = true)
    (hdlab : u.port.dlab = false) (call : Call) : ∃ r u' new, step c u call = (r, u') ∧
      u'.present = true ∧ Moves c [call] [r] u.port u'.port new := by
  cases call with
  | putc ch => exact uartPutc_moves hpresent hdlab ch
  | getc => exact uartGetc_moves hpresent hdlab

/-- Runs of calls on a port that is there. -/
theorem calls_move (c : Line) : ∀ (calls : List Call) {u : State}, u.present = true →
    u.port.dlab = false → ∃ new, Moves c calls (Machine.specAll (step c) u calls).1 u.port
      (Machine.specAll (step c) u calls).2.port new := by
  intro calls
  induction calls with
  | nil => exact fun {u} _ _ => ⟨[], .nil c u.port⟩
  | cons call calls ih =>
    intro u hpresent hdlab
    obtain ⟨r, u₁, es, hstep, hpresent₁, hmoves⟩ := step_moves (c := c) hpresent hdlab call
    have hdlab₁ : u₁.port.dlab = false := by
      rw [Port.dlab, hmoves.port]
      exact hdlab
    obtain ⟨fs, hmoves'⟩ := ih hpresent₁ hdlab₁
    rw [Machine.specAll, hstep]
    exact ⟨es ++ fs, hmoves.cons hmoves'⟩

/-- Without a port the calls do nothing. -/
theorem calls_absent (c : Line) {u : State} (h : u.present = false) : ∀ calls : List Call,
    Machine.specAll (step c) u calls = (List.replicate calls.length errNotPresent, u) := by
  intro calls
  induction calls with
  | nil => rfl
  | cons call calls ih =>
    have hstep : step c u call = (errNotPresent, u) := by
      cases call with
      | putc ch => exact if_pos h
      | getc => exact if_pos h
    rw [Machine.specAll, hstep, ih]
    rfl

/-! ## What `uart_init` does to the registers -/

theorem dlab_set : ∀ b : Byte, (b ||| lcrMaskDlab) &&& lcrMaskDlab ≠ 0 := by decide

theorem dlab_clear : ∀ b : Byte, b &&& ~~~lcrMaskDlab &&& lcrMaskDlab = 0 := by decide

theorem dlab_wordLen : ∀ b : Byte, b &&& lcrMaskDlab = 0 →
    (b ||| lcrMaskWordLen8) &&& lcrMaskDlab = 0 := by decide

theorem wordLen_set : ∀ b : Byte, (b ||| lcrMaskWordLen8) &&& lcrMaskWordLen8 = lcrMaskWordLen8 := by
  decide

theorem uartSetBaudRate_eq (c : Line) (baudRate : Nat) (p : Port) : uartSetBaudRate c baudRate p =
    { p with
      dll := (BitVec.ofNat 16 (115200 / baudRate) &&& 0xFF).setWidth 8
      dlh := ((BitVec.ofNat 16 (115200 / baudRate) &&& 0xFF00) >>> 8).setWidth 8
      lcr := (p.lcr ||| lcrMaskDlab) &&& ~~~lcrMaskDlab } := by
  have hset : ({ p with lcr := p.lcr ||| lcrMaskDlab } : Port).dlab = true :=
    decide_eq_true (dlab_set p.lcr)
  have hset' : ∀ v, ({ p with lcr := p.lcr ||| lcrMaskDlab, dll := v } : Port).dlab = true :=
    fun _ => hset
  rw [uartSetBaudRate]
  simp only [Port.inb]
  have hlcr : p.outb .lcr (p.lcr ||| lcrMaskDlab) = { p with lcr := p.lcr ||| lcrMaskDlab } := rfl
  rw [hlcr, (Port.outb_latch hset _).1, (Port.outb_latch (hset' _) _).2]
  rfl

/-- Whatever the registers were: the divisor latch is set, and hidden again. -/
theorem program_eq (c : Line) (p : Port) : program c p =
    { p with
      ier := 1, fcr := 0xC7, mcr := 0x0B, dll := 12, dlh := 0
      lcr := (p.lcr ||| lcrMaskDlab) &&& ~~~lcrMaskDlab } := by
  obtain ⟨i, h, hfirst⟩ : ∃ i h, p.outb .ier 0 = { p with ier := i, dlh := h } := by
    rw [Port.outb]
    split
    · exact ⟨p.ier, 0, rfl⟩
    · exact ⟨0, p.dlh, rfl⟩
  have hclear : Port.dlab { p with
      ier := i, fcr := 0xC7, mcr := 0x0B, dll := 12, dlh := 0
      lcr := (p.lcr ||| lcrMaskDlab) &&& ~~~lcrMaskDlab } = false :=
    decide_eq_false (not_not.mpr (dlab_clear _))
  rw [program, hfirst, uartSetBaudRate_eq]
  exact Port.outb_ier hclear 1

theorem accept_eq (c : Line) {p : Port} (h : p.dlab = false) : accept c p =
    { p with
      lcr := p.lcr ||| lcrMaskWordLen8, reads := p.reads + 1
      trace := p.trace ++ [.receive (c.received p.reads)] } := by
  have hclear : p.lcr &&& lcrMaskDlab = 0 := not_not.mp (of_decide_eq_false h)
  have hword : ({ p with lcr := p.lcr ||| lcrMaskWordLen8 } : Port).dlab = false :=
    decide_eq_false (not_not.mpr (dlab_wordLen _ hclear))
  show (Port.inb c { p with lcr := p.lcr ||| lcrMaskWordLen8 } .data).2 = _
  rw [Port.inb_data hword]

/-- The port as `uart_init` leaves it: 12 for 9600 baud, words of 8 bits, and interrupts for bytes
that come in. -/
structure Programmed (p : Port) : Prop where
  dlab : p.dlab = false
  divisor : p.dll = 12 ∧ p.dlh = 0
  wordLen : p.lcr &&& lcrMaskWordLen8 = lcrMaskWordLen8
  ier : p.ier = 1

theorem Programmed.moves {c : Line} {calls : List Call} {rs : List (BitVec 16)} {p p' : Port}
    {new : List Event} (h : Programmed p) (hm : Moves c calls rs p p' new) : Programmed p' := by
  rw [hm.port]
  exact ⟨h.dlab, h.divisor, h.wordLen, h.ier⟩

/-- With a port the registers are programmed, one byte has been taken from the line, and none sent;
without one only its status has been read. -/
theorem uartInit_eq (c : Line) (u : State) :
    (∃ p, uartInit c u = (success, ⟨true, p⟩) ∧ Programmed p ∧
      sends p.trace = sends u.port.trace) ∨
    ∃ p, uartInit c u = (errNotPresent, ⟨false, p⟩) := by
  have hclear : ((program c u.port).inb c .lsr).2.dlab = false := by
    rw [program_eq]
    exact decide_eq_false (not_not.mpr (dlab_clear _))
  have hinit : uartInit c u = if (program c u.port |>.inb c .lsr).1 = lsrMaskNoUart then
      (errNotPresent, ⟨false, (program c u.port |>.inb c .lsr).2⟩)
      else (success, ⟨true, accept c (program c u.port |>.inb c .lsr).2⟩) := rfl
  rw [hinit]
  split
  · exact .inr ⟨_, rfl⟩
  · refine .inl ⟨_, rfl, ?_, ?_⟩
    · rw [accept_eq c hclear, program_eq]
      exact ⟨decide_eq_false (not_not.mpr (dlab_wordLen _ (dlab_clear _))), ⟨rfl, rfl⟩,
        wordLen_set _, rfl⟩
    · rw [accept_eq c hclear, program_eq]
      show sends (u.port.trace ++ [.status _] ++ [.receive _]) = _
      rw [sends_append, sends_append]
      exact (List.append_nil _).trans (List.append_nil _)

/-- **The serial port transfers what its calls report.** Whatever the registers and the globals were
before `uart_init`, whatever the line does, and whatever calls follow: if `uart_init` finds a port,
then in every run of `uart_putc` and `uart_getc` it stays programmed, and the bytes that go out and
come in are the ones that the calls report, in their order, each after a status read that allowed
it, those that come in without a gap. If it finds none, all calls say so and do nothing. -/
theorem uart_transfers (c : Line) (u : State) (calls : List Call) :
    ((uartInit c u).1 = success ∧
      sends (uartInit c u).2.port.trace = sends u.port.trace ∧
      ∃ new, Moves c calls (Machine.specAll (step c) (uartInit c u).2 calls).1 (uartInit c u).2.port
          (Machine.specAll (step c) (uartInit c u).2 calls).2.port new ∧
        Programmed (Machine.specAll (step c) (uartInit c u).2 calls).2.port) ∨
    ((uartInit c u).1 = errNotPresent ∧ Machine.specAll (step c) (uartInit c u).2 calls =
      (List.replicate calls.length errNotPresent, (uartInit c u).2)) := by
  obtain ⟨p, hinit, hprog, hsent⟩ | ⟨p, hinit⟩ := uartInit_eq c u
  · rw [hinit]
    obtain ⟨new, hmoves⟩ := calls_move c calls (u := ⟨true, p⟩) rfl hprog.dlab
    exact .inl ⟨rfl, hsent, new, hmoves, hprog.moves hmoves⟩
  · rw [hinit]
    exact .inr ⟨rfl, calls_absent c rfl calls⟩

end Uart
end Frod
