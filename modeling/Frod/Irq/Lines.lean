import Mathlib.Data.List.Find
import Frod.Irq.Idt

/-!
# Frod.Irq.Lines

What the interrupts of the kernel amount to: sixteen lines, each open or closed and pending or not,
and a handler for each vector. `Lines` is that view, without chips, gates and stubs. The machine made
of the two controllers, the table, the stubs and `isr.c` does the same, call by call (`runs_agree`):
no interrupt is lost behind one that was not ended, none is served twice, and each goes to the
handler that was registered last, in the order of the lines.
-/

namespace Frod
namespace Irq

open Intr Pic

/-- What the kernel, a device and the processor do: the calls of `register_interrupt_handler`,
`pic_enable_irq` and `pic_disable_irq`; a line that is raised; an interrupt that code `c` takes, if
there is one; and an exception or `int` in it. -/
inductive Event (H : Type) where
  | register (n : BitVec 8) (handler : Option (Isr H))
  | enable (irq : Nat)
  | disable (irq : Nat)
  | raise (line : Nat)
  | interrupt (esp0 : Word) (c : Cpu)
  | trap (v : BitVec 8) (errCode esp0 : Word) (c : Cpu)

variable {H : Type}

def step (img : Image) (s : Irqs H) : Event H → Except Stop (Option (Call H) × Irqs H)
  | .register n handler =>
    .ok (none, { s with handlers := registerInterruptHandler n handler s.handlers })
  | .enable irq => .ok (none, { s with pics := picEnableIrq irq s.pics })
  | .disable irq => .ok (none, { s with pics := picDisableIrq irq s.pics })
  | .raise line => .ok (none, { s with pics := s.pics.raise line })
  | .interrupt esp0 c =>
    match s.pics.acknowledge with
    | none => .ok (none, s)
    | some (v, pics) => vector img v 0 esp0 c { s with pics := pics }
  | .trap v errCode esp0 c => vector img v errCode esp0 c s

/-- After `pic_init`, `idt_install` and `isr_install`. -/
def boot (img : Image) (p : Pics) (handlers : Handlers H) : Irqs H :=
  ⟨picInit p, idtInstall img, isrInstall handlers⟩

/-! ## The lines -/

structure Lines (H : Type) where
  opened : Nat → Bool
  pending : Nat → Bool
  handlers : Handlers H

/-- The lines that devices are connected to, the first one first: those of the second controller come
in the place of line 2. -/
def priority : List Nat := [0, 1] ++ ((List.range 8).map (8 + ·) ++ [3, 4, 5, 6, 7])

namespace Lines

/-- The line that is served next. A line of the second controller needs line 2, too. -/
def next (a : Lines H) : Option Nat :=
  priority.find? fun l => a.pending l && a.opened l && (decide (l < 8) || a.opened 2)

/-- What vector `v` leads to. -/
def serve (a : Lines H) (v : BitVec 8) : Except Stop (Option (Call H)) :=
  if v.toNat < 32 ∨ v = 128 then
    match a.handlers v.toNat with
    | some i => i.call (v.signExtend 32)
    | none => .error (.panic "Unhandled\n")
  else if v.toNat < 48 then
    match a.handlers v.toNat with
    | some i => i.call (v.signExtend 32)
    | none => .ok none
  else if v = 63 ∨ v = 64 then .ok (some (.switchTask (v.signExtend 32)))
  else .error (.panic "Unahandled IDT\n")

def step (a : Lines H) : Event H → Except Stop (Option (Call H) × Lines H)
  | .register n handler => .ok (none, { a with handlers := Function.update a.handlers n.toNat handler })
  | .enable irq => .ok (none, { a with opened := Function.update a.opened irq true })
  | .disable irq => .ok (none, { a with opened := Function.update a.opened irq false })
  | .raise line => .ok (none, { a with pending := Function.update a.pending line true })
  | .interrupt _ _ =>
    match a.next with
    | none => .ok (none, a)
    | some l => do
      let r ← a.serve (BitVec.ofNat 8 (32 + l))
      .ok (r, { a with pending := Function.update a.pending l false })
  | .trap v _ _ _ => do
    let r ← a.serve v
    .ok (r, a)

/-- Line 2 is open, nothing is pending, and every vector has the dummy handler but one. -/
def boot : Lines H where
  opened l := decide (l = 2)
  pending _ := false
  handlers := isrInstall fun _ => none

end Lines

/-- The lines that exist, and the shifts that are defined. -/
def Event.Valid : Event H → Prop
  | .enable irq => irq < 40
  | .disable irq => irq < 40
  | .raise line => line ∈ priority
  | _ => True

/-! ## The two agree -/

structure Agree (img : Image) (s : Irqs H) (a : Lines H) : Prop where
  ready : Ready s.pics
  masterOffset : s.pics.master.offset = picMasterVectorOffset
  slaveOffset : s.pics.slave.offset = picSlaveVectorOffset
  masterIdle : s.pics.master.inService = 0
  slaveIdle : s.pics.slave.inService = 0
  idt : s.idt = idtInstall img
  handlers : ∀ n, n < 256 → s.handlers n = a.handlers n
  masterMask : ∀ l, l < 8 → s.pics.master.mask.getLsbD l = !a.opened l
  slaveMask : ∀ l, l < 8 → s.pics.slave.mask.getLsbD l = !a.opened (8 + l)
  masterRequest : ∀ l, l < 8 → l ≠ 2 → s.pics.master.request.getLsbD l = a.pending l
  slaveRequest : ∀ l, l < 8 → s.pics.slave.request.getLsbD l = a.pending (8 + l)

theorem agree_boot {img : Image} {p : Pics} (h : Ready p) (handlers : Handlers H) :
    Agree img (boot img p handlers) Lines.boot := by
  have hmaster : ∀ l, l < 8 → picEnableMaskMaster.getLsbD l = !decide (l = 2) := by decide
  have hslave : ∀ l, l < 8 → picEnableMaskSlave.getLsbD l = true := by decide
  rw [boot, picInit_eq h]
  refine ⟨⟨rfl, rfl⟩, rfl, rfl, rfl, rfl, rfl, fun n hn => ?_, hmaster, fun l hl => ?_,
    fun l _ _ => BitVec.getLsbD_zero, fun l _ => BitVec.getLsbD_zero⟩
  · exact (isrInstall_eq handlers hn).trans (isrInstall_eq _ hn).symm
  · have hne : 8 + l ≠ 2 := by omega
    rw [hslave l hl]
    simp only [Lines.boot, hne, decide_false, Bool.not_false]

section Step

variable {img : Image} {s : Irqs H} {a : Lines H}

/-- What the second controller asks for. -/
theorem Agree.slavePick (h : Agree img s a) :
    s.pics.slave.pick s.pics.slave.request =
      (List.range 8).find? fun l => a.pending (8 + l) && a.opened (8 + l) := by
  rw [pick_idle h.slaveIdle]
  refine List.find?_congr fun l hl => ?_
  have hlt := List.mem_range.mp hl
  rw [h.slaveMask l hlt, h.slaveRequest l hlt, Bool.not_not]

/-- What the first one asks for; line 2 is the second one. -/
theorem Agree.masterPick (h : Agree img s a) :
    s.pics.master.pick s.pics.masterRequest =
      (List.range 8).find? fun l => (if l = 2 then (s.pics.slave.pick s.pics.slave.request).isSome
        else a.pending l) && a.opened l := by
  rw [pick_idle h.masterIdle]
  refine List.find?_congr fun l hl => ?_
  have hlt := List.mem_range.mp hl
  have hreq : s.pics.masterRequest.getLsbD l =
      if l = 2 then (s.pics.slave.pick s.pics.slave.request).isSome else a.pending l := by
    have htwo : (BitVec.twoPow 8 2).getLsbD l = decide (l = 2) := by
      rw [BitVec.getLsbD_twoPow]
      simp only [Nat.reduceLT, decide_true, Bool.true_and]
      exact decide_eq_decide.mpr eq_comm
    have hlines : (s.pics.master.request &&& ~~~BitVec.twoPow 8 2).getLsbD l =
        (s.pics.master.request.getLsbD l && !decide (l = 2)) := by
      rw [BitVec.getLsbD_and, BitVec.getLsbD_not, htwo]
      simp only [hlt, decide_true, Bool.true_and]
    rw [Pics.masterRequest]
    by_cases h2 : l = 2
    · rw [if_pos h2]
      cases (s.pics.slave.pick s.pics.slave.request).isSome with
      | true =>
        rw [if_pos rfl, BitVec.getLsbD_or, htwo, decide_eq_true h2, Bool.or_true]
      | false =>
        rw [if_neg Bool.false_ne_true, hlines]
        simp only [h2, decide_true, Bool.not_true, Bool.and_false]
    · rw [if_neg h2, ← h.masterRequest l hlt h2]
      split
      · rw [BitVec.getLsbD_or, hlines, htwo]
        simp only [h2, decide_false, Bool.not_false, Bool.and_true, Bool.or_false]
      · rw [hlines]
        simp only [h2, decide_false, Bool.not_false, Bool.and_true]
  rw [hreq, h.masterMask l hlt, Bool.not_not]

/-- The controllers when line `l` is in service. -/
def served (p : Pics) (l : Nat) : Pics :=
  if l < 8 then { p with master := p.master.serve l } else ⟨p.master.serve 2, p.slave.serve (l - 8)⟩

/-- An interrupt of the second controller, or of line `l` of the first one. -/
def answer (p : Pics) (l : Nat) : Option (BitVec 8 × Pics) :=
  if l = 2 then
    (p.slave.pick p.slave.request).map fun j =>
      (p.slave.offset + BitVec.ofNat 8 j, ⟨p.master.serve l, p.slave.serve j⟩)
  else some (p.master.offset + BitVec.ofNat 8 l, { p with master := p.master.serve l })

theorem acknowledge_eq (p : Pics) :
    p.acknowledge = (p.master.pick p.masterRequest).bind (answer p) := by
  rw [Pics.acknowledge]
  cases p.master.pick p.masterRequest with
  | none => rfl
  | some l =>
    rw [Option.bind_some, answer]
    dsimp only
    split
    · cases p.slave.pick p.slave.request <;> rfl
    · rfl

/-- Lines of the first controller but line 2. -/
theorem Agree.bind_answer (h : Agree img s a) {ls : List Nat} (hls : ∀ l ∈ ls, l < 8 ∧ l ≠ 2)
    (q : Nat → Bool) : (ls.find? q).bind (answer s.pics) =
      (ls.find? q).map fun l => (BitVec.ofNat 8 (32 + l), served s.pics l) := by
  cases hl : ls.find? q with
  | none => rfl
  | some l =>
    obtain ⟨hlt, h2⟩ := hls l (List.mem_of_find?_eq_some hl)
    rw [Option.bind_some, answer, if_neg h2, Option.map_some, served, if_pos hlt, h.masterOffset,
      BitVec.ofNat_add]
    rfl

/-- The first of the eight and eight lines is the first one of `priority`. -/
theorem Agree.acknowledge (h : Agree img s a) :
    s.pics.acknowledge = a.next.map fun l => (BitVec.ofNat 8 (32 + l), served s.pics l) := by
  have hsplit : List.range 8 = [0, 1] ++ ([2] ++ [3, 4, 5, 6, 7]) := rfl
  have hfirst : ∀ l ∈ [0, 1], l < 8 ∧ l ≠ 2 := by decide
  have hlast : ∀ l ∈ [3, 4, 5, 6, 7], l < 8 ∧ l ≠ 2 := by decide
  have hsame : ∀ {ls : List Nat}, (∀ l ∈ ls, l < 8 ∧ l ≠ 2) →
      (ls.find? fun l => (if l = 2 then (s.pics.slave.pick s.pics.slave.request).isSome
        else a.pending l) && a.opened l) =
      ls.find? fun l => a.pending l && a.opened l && (decide (l < 8) || a.opened 2) := by
    intro ls hls
    refine List.find?_congr fun l hl => ?_
    obtain ⟨hlt, h2⟩ := hls l hl
    rw [if_neg h2]
    simp only [hlt, decide_true, Bool.true_or, Bool.and_true]
  have hslave : (((List.range 8).map (8 + ·)).find? fun l =>
      a.pending l && a.opened l && (decide (l < 8) || a.opened 2)) =
      if a.opened 2 then (s.pics.slave.pick s.pics.slave.request).map (8 + ·) else none := by
    have hge : ∀ l, decide (8 + l < 8) = false := fun l => decide_eq_false (by omega)
    rw [List.find?_map, h.slavePick]
    cases a.opened 2 with
    | true => simp only [Function.comp_def, hge, Bool.false_or, Bool.and_true, if_true]
    | false => simp
  have htwo : [2].find? (fun l => (if l = 2 then (s.pics.slave.pick s.pics.slave.request).isSome
      else a.pending l) && a.opened l) =
      if (s.pics.slave.pick s.pics.slave.request).isSome ∧ a.opened 2 then some 2 else none := by
    rw [List.find?_cons, List.find?_nil, if_pos rfl]
    split <;> simp_all
  rw [acknowledge_eq, h.masterPick, hsplit, Lines.next, priority, List.find?_append,
    List.find?_append, List.find?_append, List.find?_append, hsame hfirst, hsame hlast, hslave, htwo]
  have h01 := h.bind_answer hfirst fun l =>
    a.pending l && a.opened l && (decide (l < 8) || a.opened 2)
  have h37 := h.bind_answer hlast fun l =>
    a.pending l && a.opened l && (decide (l < 8) || a.opened 2)
  cases hfind : [0, 1].find? fun l => a.pending l && a.opened l && (decide (l < 8) || a.opened 2) with
  | some l =>
    rw [hfind] at h01
    simpa only [Option.some_or] using h01
  | none =>
    rw [Option.none_or, Option.none_or]
    by_cases h2 : a.opened 2 = true
    · cases hj : s.pics.slave.pick s.pics.slave.request with
      | some j =>
        have hge : ¬ 8 + j < 8 := by omega
        rw [if_pos ⟨rfl, h2⟩, if_pos h2]
        simp only [Option.some_or, Option.bind_some, Option.map_some, answer, hj, if_true, served,
          hge, if_false, h.slaveOffset, Nat.add_sub_cancel_left, BitVec.ofNat_add]
        rw [← BitVec.add_assoc]
        rfl
      | none =>
        rw [if_neg (fun hno => Bool.false_ne_true hno.1), if_pos h2, Option.map_none, Option.none_or]
        exact h37
    · rw [if_neg (fun hno => h2 hno.2), if_neg h2, Option.none_or]
      exact h37

/-! ## A vector -/

/-- The controllers after vector `v`: only `irq_handler` ends an interrupt. -/
def afterVector (v : BitVec 8) (s : Irqs H) : Irqs H :=
  if 32 ≤ v.toNat ∧ v.toNat < 48 then
    { s with pics := endOfInterrupt (v.signExtend 32) s.pics }
  else s

theorem vector_serve (hidt : s.idt = idtInstall img)
    (hhandlers : ∀ n, n < 256 → s.handlers n = a.handlers n) (v : BitVec 8) (errCode esp0 : Word)
    (c : Cpu) :
    vector img v errCode esp0 c s = (a.serve v).map fun r => (r, afterVector v s) := by
  have hv := hhandlers v.toNat v.isLt
  rw [vector_installed hidt, Lines.serve, afterVector]
  by_cases hisr : v.toNat < 32 ∨ v = 128
  · have hno : ¬ (32 ≤ v.toNat ∧ v.toNat < 48) := by
      rintro ⟨h32, h48⟩
      rcases hisr with h | rfl
      · omega
      · exact absurd h48 (by decide)
    have hmem : v ∈ idtStubs := mem_idtStubs.mpr (by
      rcases hisr with h | h
      · exact .inl (by omega)
      · exact .inr (.inr (.inr h)))
    rw [if_pos hmem, if_pos hisr, if_neg hno, commonStub, if_pos hisr, isrHandler]
    simp only [signExtend_low, hv]
    cases a.handlers v.toNat with
    | none => rfl
    | some i => rfl
  · rw [if_neg hisr]
    by_cases hirq : v.toNat < 48
    · have h32 : 32 ≤ v.toNat ∧ v.toNat < 48 := ⟨by omega, hirq⟩
      have hnat : (v.signExtend 32 : Word).toNat = v.toNat := signExtend_toNat (by omega)
      rw [if_pos (mem_idtStubs.mpr (.inl hirq)), if_pos hirq, if_pos h32, commonStub, if_neg hisr,
        if_pos hirq, irqHandler]
      simp only [hnat, hv]
      cases a.handlers v.toNat with
      | none => rfl
      | some i => rfl
    · have hno : ¬ (32 ≤ v.toNat ∧ v.toNat < 48) := fun h => hirq h.2
      rw [if_neg hirq, if_neg hno]
      by_cases hintr : v = 63 ∨ v = 64
      · have hmem : v ∈ idtStubs := mem_idtStubs.mpr (by
          rcases hintr with h | h
          · exact .inr (.inl h)
          · exact .inr (.inr (.inl h)))
        rw [if_pos hmem, if_pos hintr, commonStub, if_neg hisr, if_neg hirq, intrHandler]
        rfl
      · have hmem : v ∉ idtStubs := fun h => by
          rcases mem_idtStubs.mp h with h | h | h | h
          · exact hirq h
          · exact hintr (.inl h)
          · exact hintr (.inr h)
          · exact hisr (.inr h)
        rw [if_neg hmem, if_neg hintr]
        rfl

/-! ## The end of an interrupt -/

theorem eoi_serve {c : Chip} (h : c.inService = 0) (l : Nat) :
    (c.serve l).outCmd picDataEoi = { c with request := (c.serve l).request } := by
  have hzero : (0 : BitVec 8) ||| BitVec.twoPow 8 l = BitVec.twoPow 8 l := BitVec.zero_or
  rw [outCmd_eoi, Chip.serve]
  simp only [h, hzero, twoPow_ended]

theorem eoi_idle {c : Chip} (h : c.inService = 0) : c.outCmd picDataEoi = c := by
  have hzero : (0 : BitVec 8) &&& (0 - 1) = 0 := rfl
  rw [outCmd_eoi, h, hzero, ← h]

theorem endOfInterrupt_idle (h : Agree img s a) (intNo : Word) : endOfInterrupt intNo s.pics = s.pics := by
  rw [endOfInterrupt]
  split
  · simp only [Pics.outb, eoi_idle h.slaveIdle, eoi_idle h.masterIdle]
  · simp only [Pics.outb, eoi_idle h.masterIdle]

theorem Agree.trapped (h : Agree img s a) (v : BitVec 8) : Agree img (afterVector v s) a := by
  rw [afterVector]
  split
  · rw [endOfInterrupt_idle h]
    exact h
  · exact h

/-- An interrupt leaves nothing in service: the next one is not held back. -/
theorem Agree.interrupted (h : Agree img s a) {l : Nat} (hl : l ∈ priority) :
    Agree img (afterVector (BitVec.ofNat 8 (32 + l)) { s with pics := served s.pics l })
      { a with pending := Function.update a.pending l false } := by
  have hrange : ∀ l ∈ priority, l < 16 ∧ l ≠ 2 := by decide
  obtain ⟨h16, h2⟩ := hrange l hl
  have hv : (BitVec.ofNat 8 (32 + l)).toNat = 32 + l := by
    rw [BitVec.toNat_ofNat]
    omega
  have hno : ((BitVec.ofNat 8 (32 + l)).signExtend 32 : Word).toNat = 32 + l := by
    rw [signExtend_toNat (by omega), hv]
  rw [afterVector, if_pos (by omega), endOfInterrupt, hno]
  by_cases h8 : l < 8
  · -- a line of the first controller
    have hpics : (if 40 ≤ 32 + l then (served s.pics l).outb .slaveCmd picDataEoi
        else served s.pics l).outb .masterCmd picDataEoi =
        { s.pics with master := { s.pics.master with request := (s.pics.master.serve l).request } } := by
      rw [if_neg (by omega), served, if_pos h8]
      simp only [Pics.outb, eoi_serve h.masterIdle]
    rw [hpics]
    refine ⟨h.ready, h.masterOffset, h.slaveOffset, h.masterIdle, h.slaveIdle, h.idt, h.handlers,
      h.masterMask, h.slaveMask, fun j hj hj2 => ?_, fun j hj => ?_⟩
    · simp only [getLsbD_serve _ hj, h.masterRequest j hj hj2, Function.update_apply]
      by_cases hjl : j = l <;> simp [hjl]
    · exact (h.slaveRequest j hj).trans (Function.update_of_ne (by omega) _ _).symm
  · have hpics : (if 40 ≤ 32 + l then (served s.pics l).outb .slaveCmd picDataEoi
        else served s.pics l).outb .masterCmd picDataEoi =
        ⟨{ s.pics.master with request := (s.pics.master.serve 2).request },
          { s.pics.slave with request := (s.pics.slave.serve (l - 8)).request }⟩ := by
      rw [if_pos (by omega), served, if_neg h8]
      simp only [Pics.outb, eoi_serve h.masterIdle, eoi_serve h.slaveIdle]
    rw [hpics]
    refine ⟨h.ready, h.masterOffset, h.slaveOffset, h.masterIdle, h.slaveIdle, h.idt, h.handlers,
      h.masterMask, h.slaveMask, fun j hj hj2 => ?_, fun j hj => ?_⟩
    · have hne : j ≠ l := by omega
      simp only [getLsbD_serve _ hj, hj2, decide_false, Bool.not_false, Bool.and_true,
        Function.update_of_ne hne]
      exact h.masterRequest j hj hj2
    · have hiff : j = l - 8 ↔ 8 + j = l := by omega
      simp only [getLsbD_serve _ hj, h.slaveRequest j hj, Function.update_apply, hiff]
      by_cases hjl : 8 + j = l <;> simp [hjl]

/-! ## Runs -/

/-- The line that a call opens (`b`) or closes. -/
theorem Agree.changeMask (h : Agree img s a) {f : Word → Word → Word} (irq : Nat) (b : Bool)
    (hf : ∀ (m : BitVec 8) (irq j : Nat), j < 8 →
      ((f (m.setWidth 32) ((1 : Word) <<< irq)).setWidth 8).getLsbD j =
        if j = irq then !b else m.getLsbD j) :
    Agree img { s with pics := changeMask f irq s.pics }
      { a with opened := Function.update a.opened irq b } := by
  rw [changeMask_eq h.ready]
  by_cases h8 : irq < 8
  · rw [if_pos h8]
    refine ⟨h.ready, h.masterOffset, h.slaveOffset, h.masterIdle, h.slaveIdle, h.idt, h.handlers,
      fun j hj => ?_, fun j hj => ?_, h.masterRequest, h.slaveRequest⟩
    · simp only [hf _ _ _ hj, Function.update_apply, h.masterMask j hj]
      split <;> rfl
    · refine (h.slaveMask j hj).trans ?_
      simp only [Function.update_of_ne (by omega : 8 + j ≠ irq)]
  · rw [if_neg h8]
    refine ⟨h.ready, h.masterOffset, h.slaveOffset, h.masterIdle, h.slaveIdle, h.idt, h.handlers,
      fun j hj => ?_, fun j hj => ?_, h.masterRequest, h.slaveRequest⟩
    · refine (h.masterMask j hj).trans ?_
      simp only [Function.update_of_ne (by omega : j ≠ irq)]
    · have hiff : j = irq - 8 ↔ 8 + j = irq := by omega
      simp only [hf _ _ _ hj, Function.update_apply, h.slaveMask j hj, hiff]
      split <;> rfl

theorem Agree.enable (h : Agree img s a) (irq : Nat) :
    Agree img { s with pics := picEnableIrq irq s.pics }
      { a with opened := Function.update a.opened irq true } := by
  refine h.changeMask irq true fun m irq j hj => ?_
  rw [getLsbD_open hj]
  by_cases hji : j = irq <;> simp [hji]

theorem Agree.disable (h : Agree img s a) (irq : Nat) :
    Agree img { s with pics := picDisableIrq irq s.pics }
      { a with opened := Function.update a.opened irq false } := by
  refine h.changeMask irq false fun m irq j hj => ?_
  rw [getLsbD_close hj]
  by_cases hji : j = irq <;> simp [hji]

theorem Agree.raise (h : Agree img s a) {l : Nat} (hl : l ∈ priority) :
    Agree img { s with pics := s.pics.raise l }
      { a with pending := Function.update a.pending l true } := by
  have hrange : ∀ l ∈ priority, l < 16 ∧ l ≠ 2 := by decide
  obtain ⟨h16, h2⟩ := hrange l hl
  rw [Pics.raise]
  by_cases h8 : l < 8
  · rw [if_pos h8]
    refine ⟨h.ready, h.masterOffset, h.slaveOffset, h.masterIdle, h.slaveIdle, h.idt, h.handlers,
      h.masterMask, h.slaveMask, fun j hj hj2 => ?_, fun j hj => ?_⟩
    · simp only [getLsbD_raise _ hj, h.masterRequest j hj hj2, Function.update_apply]
      by_cases hjl : j = l <;> simp [hjl]
    · exact (h.slaveRequest j hj).trans (Function.update_of_ne (by omega) _ _).symm
  · rw [if_neg h8]
    refine ⟨h.ready, h.masterOffset, h.slaveOffset, h.masterIdle, h.slaveIdle, h.idt, h.handlers,
      h.masterMask, h.slaveMask, fun j hj hj2 => ?_, fun j hj => ?_⟩
    · exact (h.masterRequest j hj hj2).trans (Function.update_of_ne (by omega) _ _).symm
    · have hiff : j = l - 8 ↔ 8 + j = l := by omega
      simp only [getLsbD_raise _ hj, h.slaveRequest j hj, Function.update_apply, hiff]
      by_cases hjl : 8 + j = l <;> simp [hjl]

theorem Agree.register (h : Agree img s a) (n : BitVec 8) (handler : Option (Isr H)) :
    Agree img { s with handlers := registerInterruptHandler n handler s.handlers }
      { a with handlers := Function.update a.handlers n.toNat handler } := by
  refine ⟨h.ready, h.masterOffset, h.slaveOffset, h.masterIdle, h.slaveIdle, h.idt, fun j hj => ?_,
    h.masterMask, h.slaveMask, h.masterRequest, h.slaveRequest⟩
  simp only [registerInterruptHandler, Function.update_apply, h.handlers j hj]

/-- Event by event the machine and the lines do the same. -/
theorem Agree.step (h : Agree img s a) (e : Event H) (hvalid : e.Valid) :
    (∃ r s' a', Irq.step img s e = .ok (r, s') ∧ a.step e = .ok (r, a') ∧ Agree img s' a') ∨
      ∃ e', Irq.step img s e = .error e' ∧ a.step e = .error e' := by
  cases e with
  | register n handler => exact .inl ⟨none, _, _, rfl, rfl, h.register n handler⟩
  | enable irq => exact .inl ⟨none, _, _, rfl, rfl, h.enable irq⟩
  | disable irq => exact .inl ⟨none, _, _, rfl, rfl, h.disable irq⟩
  | raise line => exact .inl ⟨none, _, _, rfl, rfl, h.raise hvalid⟩
  | interrupt esp0 c =>
    simp only [Irq.step, Lines.step, h.acknowledge]
    cases hnext : a.next with
    | none => exact .inl ⟨none, s, a, rfl, rfl, h⟩
    | some l =>
      have hl : l ∈ priority := List.mem_of_find?_eq_some hnext
      have hvec := vector_serve (a := a) (s := { s with pics := served s.pics l }) h.idt h.handlers
        (BitVec.ofNat 8 (32 + l)) 0 esp0 c
      simp only [Option.map_some, hvec]
      cases a.serve (BitVec.ofNat 8 (32 + l)) with
      | error e' => exact .inr ⟨e', rfl, rfl⟩
      | ok r => exact .inl ⟨r, _, _, rfl, rfl, h.interrupted hl⟩
  | trap v errCode esp0 c =>
    simp only [Irq.step, Lines.step, vector_serve h.idt h.handlers v errCode esp0 c]
    cases a.serve v with
    | error e' => exact .inr ⟨e', rfl, rfl⟩
    | ok r => exact .inl ⟨r, _, _, rfl, rfl, h.trapped v⟩

end Step

/-- From any state of the controllers and the array before it, a run of the kernel's interrupts makes
the calls that the lines make, and stops where they stop. -/
theorem runs_agree (img : Image) {p : Pics} (hp : Ready p) (handlers : Handlers H)
    {events : List (Event H)} (hvalid : ∀ e ∈ events, e.Valid) :
    (∃ rs s a, Machine.runAll (step img) (boot img p handlers) events = .ok (rs, s) ∧
      Machine.runAll Lines.step Lines.boot events = .ok (rs, a) ∧ Agree img s a) ∨
      ∃ e, Machine.runAll (step img) (boot img p handlers) events = .error e ∧
        Machine.runAll Lines.step Lines.boot events = .error e :=
  Machine.agreement (fun _ _ e h hv => Agree.step h e hv) events _ _ (agree_boot hp handlers) hvalid

/-- Code linked to the addresses of its vectors, and controllers as the firmware may leave them. -/
def sampleImage : Image where
  addr
    | .stub v => v.setWidth 32
    | .idtNone => 256
  codeAt w := some (if w = 256 then .idtNone else .stub (w.setWidth 8))
  codeAt_addr c := by
    cases c with
    | idtNone => rfl
    | stub v =>
      have hne : v.setWidth 32 ≠ (256 : Word) := fun h => by
        have hnat := congrArg BitVec.toNat h
        rw [BitVec.toNat_setWidth] at hnat
        have h256 : (256 : Word).toNat = 256 := rfl
        omega
      simp only [hne, if_false, BitVec.setWidth_setWidth_of_le _ (by decide : 8 ≤ 32),
        BitVec.setWidth_eq]

def samplePics : Pics := ⟨⟨0xB8, 8, 0, 1, .ready⟩, ⟨0x8F, 0x70, 0, 0, .ready⟩⟩

/-- A timer interrupt, and one of the keyboard that is not open yet. -/
def sampleEvents : List (Event Unit) :=
  [.register 32 (some (.driver ())), .enable 0, .raise 1, .raise 0, .interrupt 0 (sampleCpu 0x10)]

/-- The run returns: the timer is served, and the keyboard waits. -/
theorem runs_agree_timer : ∃ s a,
    Machine.runAll (step sampleImage) (boot sampleImage samplePics fun _ => none) sampleEvents =
      .ok ([none, none, none, none, some (.handler (.driver ()) 32)], s) ∧
    Machine.runAll Lines.step Lines.boot sampleEvents =
      .ok ([none, none, none, none, some (.handler (.driver ()) 32)], a) ∧
    a.pending 1 = true ∧ Agree sampleImage s a := by
  have hzero : (0 : Nat) < 40 := by decide
  have hpriority : 0 ∈ priority ∧ 1 ∈ priority := by decide
  obtain ⟨a, hlines, hkey⟩ : ∃ a, Machine.runAll Lines.step Lines.boot sampleEvents =
      .ok ([none, none, none, none, some (.handler (.driver ()) 32)], a) ∧ a.pending 1 = true :=
    ⟨_, rfl, rfl⟩
  have hvalid : ∀ e ∈ sampleEvents, e.Valid := by
    intro e he
    simp only [sampleEvents, List.mem_cons, List.not_mem_nil, or_false] at he
    rcases he with rfl | rfl | rfl | rfl | rfl
    · trivial
    · exact hzero
    · exact hpriority.2
    · exact hpriority.1
    · trivial
  rcases runs_agree sampleImage (p := samplePics) ⟨rfl, rfl⟩ (fun _ => none) hvalid with
    ⟨rs, s, a', hrun, hlines', hagree⟩ | ⟨e, _, hlines'⟩
  · rw [hlines] at hlines'
    obtain ⟨rfl, rfl⟩ := Prod.mk.inj (Except.ok.inj hlines')
    exact ⟨s, a, hrun, hlines, hkey, hagree⟩
  · rw [hlines] at hlines'
    cases hlines'

end Irq
end Frod
