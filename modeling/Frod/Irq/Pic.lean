import Frod.Layout

/-!
# Frod.Irq.Pic

The two interrupt controllers (8259) of a PC, and `pic.c` that programs them.

A chip takes its bytes in two ways: `outb` to the command port starts the initialisation or ends an
interrupt, `outb` to the data port is the next initialisation word or, afterwards, the mask. Line 2
of the master is the output of the slave. What `pic.c` leaves alone is left out: special masks and
priorities, polling, automatic ends of interrupts.
-/

namespace Frod
namespace Irq
namespace Pic

/-- `PIC_PORT_MASTER_CMD`, `PIC_PORT_MASTER_DATA`, `PIC_PORT_SLAVE_CMD`, `PIC_PORT_SLAVE_DATA`. -/
inductive Port where
  | masterCmd
  | masterData
  | slaveCmd
  | slaveData
  deriving DecidableEq

/-- What a chip takes a data byte for. The first word says whether there is a slave, and whether a
fourth word follows. -/
inductive Init where
  | ready
  | icw2 (single icw4 : Bool)
  | icw3 (icw4 : Bool)
  | icw4
  deriving DecidableEq

structure Chip where
  mask : BitVec 8
  offset : BitVec 8
  /-- The interrupts that have been delivered and not ended. -/
  inService : BitVec 8
  /-- The lines that have been raised since. -/
  request : BitVec 8
  init : Init
  deriving DecidableEq

namespace Chip

def outCmd (v : BitVec 8) (c : Chip) : Chip :=
  if v.getLsbD 4 then
    { c with
      mask := 0, inService := 0, request := 0
      init := .icw2 (v.getLsbD 1) (v.getLsbD 0) }
  else if v >>> 3 = 4 then { c with inService := c.inService &&& (c.inService - 1) }
  else c

def outData (v : BitVec 8) (c : Chip) : Chip :=
  match c.init with
  | .ready => { c with mask := v }
  | .icw2 single icw4 =>
    { c with
      offset := v &&& 0xF8
      init := if single then (if icw4 then .icw4 else .ready) else .icw3 icw4 }
  | .icw3 icw4 => { c with init := if icw4 then .icw4 else .ready }
  | .icw4 => { c with init := .ready }

/-- Line `l` has to wait for an interrupt of the same or a higher priority. -/
def blocked (c : Chip) (l : Nat) : Bool := (List.range (l + 1)).any c.inService.getLsbD

/-- The line that is served next, of those in `request`. -/
def pick (c : Chip) (request : BitVec 8) : Option Nat :=
  (List.range 8).find? fun l => request.getLsbD l && !c.mask.getLsbD l && !c.blocked l

def raise (l : Nat) (c : Chip) : Chip := { c with request := c.request ||| BitVec.twoPow 8 l }

def serve (l : Nat) (c : Chip) : Chip :=
  { c with
    inService := c.inService ||| BitVec.twoPow 8 l
    request := c.request &&& ~~~BitVec.twoPow 8 l }

end Chip

structure Pics where
  master : Chip
  slave : Chip
  deriving DecidableEq

namespace Pics

def outb (p : Pics) (port : Port) (v : BitVec 8) : Pics :=
  match port with
  | .masterCmd => { p with master := p.master.outCmd v }
  | .masterData => { p with master := p.master.outData v }
  | .slaveCmd => { p with slave := p.slave.outCmd v }
  | .slaveData => { p with slave := p.slave.outData v }

/-- The data ports read the masks; the command ports, the requests. -/
def inb (p : Pics) : Port → BitVec 8
  | .masterCmd => p.master.request
  | .masterData => p.master.mask
  | .slaveCmd => p.slave.request
  | .slaveData => p.slave.mask

/-- A device raises line `l`; line 2 is not connected to one. -/
def raise (p : Pics) (l : Nat) : Pics :=
  if l < 8 then { p with master := p.master.raise l } else { p with slave := p.slave.raise (l - 8) }

/-- The lines of the master. -/
def masterRequest (p : Pics) : BitVec 8 :=
  let lines := p.master.request &&& ~~~BitVec.twoPow 8 2
  if (p.slave.pick p.slave.request).isSome then lines ||| BitVec.twoPow 8 2 else lines

/-- The processor asks for an interrupt: its vector, when there is one. -/
def acknowledge (p : Pics) : Option (BitVec 8 × Pics) :=
  match p.master.pick p.masterRequest with
  | none => none
  | some l =>
    if l = 2 then
      match p.slave.pick p.slave.request with
      | none => none
      | some j => some (p.slave.offset + BitVec.ofNat 8 j, ⟨p.master.serve l, p.slave.serve j⟩)
    else some (p.master.offset + BitVec.ofNat 8 l, { p with master := p.master.serve l })

end Pics

/-! ## pic.c -/

/-- `PIC_ICW1_ICW4`, `PIC_ICW1_INIT`, `PIC_IVW4_8086`. -/
def picIcw1Icw4 : BitVec 8 := 0x01
def picIcw1Init : BitVec 8 := 0x10
def picIvw48086 : BitVec 8 := 0x01

/-- `PIC_MASTER_VECTOR_OFFSET`, `PIC_SLAVE_VECTOR_OFFSET`. -/
def picMasterVectorOffset : BitVec 8 := 32
def picSlaveVectorOffset : BitVec 8 := picMasterVectorOffset + 8

/-- `PIC_ENABLE_MASK_MASTER`, `PIC_ENABLE_MASK_SLAVE`. -/
def picEnableMaskMaster : BitVec 8 := 0xFF &&& ~~~((1 : BitVec 8) <<< 2)
def picEnableMaskSlave : BitVec 8 := 0xFF

def picDisable (p : Pics) : Pics :=
  p.outb .masterData picEnableMaskMaster |>.outb .slaveData picEnableMaskSlave

def picRemap (p : Pics) : Pics :=
  let m1 := p.inb .masterData
  let m2 := p.inb .slaveData
  p.outb .masterCmd (picIcw1Init + picIcw1Icw4) |>.outb .slaveCmd (picIcw1Init + picIcw1Icw4)
    |>.outb .masterData picMasterVectorOffset |>.outb .slaveData picSlaveVectorOffset
    |>.outb .masterData 4 |>.outb .slaveData 2
    |>.outb .masterData picIvw48086 |>.outb .slaveData picIvw48086
    |>.outb .masterData m1 |>.outb .slaveData m2

def picInit (p : Pics) : Pics := picRemap (picDisable p)

/-- `pic_enable_irq` and `pic_disable_irq`: the byte that `f` makes of the mask and `1 << irq`, in
`int`, is written back. -/
def changeMask (f : Word → Word → Word) (irq : Nat) (p : Pics) : Pics :=
  let m1 := p.inb .masterData
  let m2 := p.inb .slaveData
  if irq < 8 then p.outb .masterData ((f (m1.setWidth 32) ((1 : Word) <<< irq)).setWidth 8)
  else
    let irq := irq - 8
    p.outb .slaveData ((f (m2.setWidth 32) ((1 : Word) <<< irq)).setWidth 8)

def picEnableIrq (irq : Nat) (p : Pics) : Pics := changeMask (fun m bit => m &&& ~~~bit) irq p

def picDisableIrq (irq : Nat) (p : Pics) : Pics := changeMask (fun m bit => m ||| bit) irq p

/-- `PIC_DATA_EOI`, and what `irq_handler` sends before it calls the handler. -/
def picDataEoi : BitVec 8 := 0x20

def endOfInterrupt (intNo : Word) (p : Pics) : Pics :=
  let p := if 40 ≤ intNo.toNat then p.outb .slaveCmd picDataEoi else p
  p.outb .masterCmd picDataEoi

/-! ## What the chips do -/

/-- Both chips are initialised. -/
def Ready (p : Pics) : Prop := p.master.init = .ready ∧ p.slave.init = .ready

/-- Whatever the firmware has left: the vectors are moved to 32, and only line 2 is open. -/
theorem picInit_eq {p : Pics} (h : Ready p) :
    picInit p = ⟨⟨picEnableMaskMaster, picMasterVectorOffset, 0, 0, .ready⟩,
      ⟨picEnableMaskSlave, picSlaveVectorOffset, 0, 0, .ready⟩⟩ := by
  obtain ⟨⟨_, _, _, _, init⟩, ⟨_, _, _, _, init'⟩⟩ := p
  obtain ⟨hm, hs⟩ := h
  dsimp only at hm hs
  subst hm hs
  rfl

theorem changeMask_eq {p : Pics} (h : Ready p) (f : Word → Word → Word) (irq : Nat) :
    changeMask f irq p =
      if irq < 8 then
        { p with master := { p.master with
            mask := (f (p.master.mask.setWidth 32) ((1 : Word) <<< irq)).setWidth 8 } }
      else
        { p with slave := { p.slave with
            mask := (f (p.slave.mask.setWidth 32) ((1 : Word) <<< (irq - 8))).setWidth 8 } } := by
  obtain ⟨hm, hs⟩ := h
  simp only [changeMask, Pics.outb, Pics.inb, Chip.outData, hm, hs]

theorem getLsbD_one_shiftLeft {irq j : Nat} (hj : j < 32) :
    ((1 : Word) <<< irq).getLsbD j = decide (j = irq) := by
  have hpow : (1 : Word) <<< irq = BitVec.twoPow 32 irq := (BitVec.twoPow_eq 32 irq).symm
  rw [hpow, BitVec.getLsbD_twoPow]
  by_cases hij : j = irq
  · subst hij
    simp [hj]
  · simp [hij, Ne.symm hij]

/-- Of the eight lines of a chip only the one that is meant is opened, and none beyond them. -/
theorem getLsbD_open {m : BitVec 8} {irq j : Nat} (hj : j < 8) :
    ((m.setWidth 32 &&& ~~~((1 : Word) <<< irq) : Word).setWidth 8).getLsbD j =
      (m.getLsbD j && !decide (j = irq)) := by
  have hj32 : j < 32 := by omega
  simp only [BitVec.getLsbD_setWidth, BitVec.getLsbD_and, BitVec.getLsbD_not,
    getLsbD_one_shiftLeft hj32, hj, hj32, decide_true, Bool.true_and]

theorem getLsbD_close {m : BitVec 8} {irq j : Nat} (hj : j < 8) :
    ((m.setWidth 32 ||| (1 : Word) <<< irq : Word).setWidth 8).getLsbD j =
      (m.getLsbD j || decide (j = irq)) := by
  have hj32 : j < 32 := by omega
  simp only [BitVec.getLsbD_setWidth, BitVec.getLsbD_or, getLsbD_one_shiftLeft hj32, hj, hj32,
    decide_true, Bool.true_and]

theorem getLsbD_raise (c : Chip) {l j : Nat} (hj : j < 8) :
    (c.raise l).request.getLsbD j = (c.request.getLsbD j || decide (j = l)) := by
  have hcomm : decide (l = j) = decide (j = l) := decide_eq_decide.mpr eq_comm
  by_cases hl : l < 8
  · simp [Chip.raise, BitVec.getLsbD_or, BitVec.getLsbD_twoPow, hl, hcomm]
  · have hne : j ≠ l := by omega
    simp [Chip.raise, BitVec.getLsbD_or, BitVec.getLsbD_twoPow, hl, hne]

theorem getLsbD_serve (c : Chip) {l j : Nat} (hj : j < 8) :
    (c.serve l).request.getLsbD j = (c.request.getLsbD j && !decide (j = l)) := by
  have hcomm : decide (l = j) = decide (j = l) := decide_eq_decide.mpr eq_comm
  by_cases hl : l < 8
  · rw [Chip.serve, BitVec.getLsbD_and, BitVec.getLsbD_not, BitVec.getLsbD_twoPow, hcomm]
    simp only [hj, hl, decide_true, Bool.true_and]
  · have hne : j ≠ l := by omega
    rw [Chip.serve, BitVec.getLsbD_and, BitVec.getLsbD_not, BitVec.getLsbD_twoPow]
    simp only [hj, hl, hne, decide_true, decide_false, Bool.true_and, Bool.false_and]

/-- With nothing in service the first line that is raised and open is served. -/
theorem pick_idle {c : Chip} (h : c.inService = 0) (request : BitVec 8) :
    c.pick request = (List.range 8).find? fun l => request.getLsbD l && !c.mask.getLsbD l := by
  have hblocked : ∀ l, c.blocked l = false := by
    intro l
    simp [Chip.blocked, h]
  simp only [Chip.pick, hblocked, Bool.not_false, Bool.and_true]

/-- One end of interrupt is enough for one interrupt. -/
theorem twoPow_ended {l : Nat} : (BitVec.twoPow 8 l) &&& (BitVec.twoPow 8 l - 1) = 0 := by
  by_cases hl : l < 8
  · revert hl
    revert l
    decide
  · have hz : BitVec.twoPow 8 l = 0 := by
      apply BitVec.eq_of_toNat_eq
      rw [BitVec.toNat_twoPow_of_le (by omega)]
      rfl
    rw [hz]
    rfl

theorem outCmd_eoi (c : Chip) :
    c.outCmd picDataEoi = { c with inService := c.inService &&& (c.inService - 1) } := by
  rw [Chip.outCmd, if_neg (by decide), if_pos (by decide)]

end Pic
end Irq
end Frod
