import Frod.Intr.Switch
import Frod.Irq.Pic

/-!
# Frod.Irq.Idt

From a vector to its C handler: the table that `idt_install` writes, the handlers of `isr.c`, and an
interrupt from the gate over the code of `isr_asm.s` to the function that is called.

The texts that the handlers print are left out, and what the handlers of the drivers do. Functions
have addresses (`Image`), and a gate holds the halves of one.
-/

namespace Frod
namespace Irq

open Intr Pic

/-! ## idt.c -/

/-- `idt_entry`. -/
structure IdtEntry where
  baseLow : BitVec 16
  selector : BitVec 16
  zero : BitVec 8
  flags : BitVec 8
  baseHigh : BitVec 16
  deriving DecidableEq

/-- The functions a gate is set to: the code at a vector, and `idt_none`. -/
inductive Code where
  | stub (v : BitVec 8)
  | idtNone
  deriving DecidableEq

/-- Where the kernel is linked to. -/
structure Image where
  addr : Code → Word
  codeAt : Word → Option Code
  codeAt_addr : ∀ c, codeAt (addr c) = some c

abbrev Idt := BitVec 8 → IdtEntry

def idtSetGate (num : BitVec 8) (base : Word) (sel : BitVec 16) (flags : BitVec 8) (t : Idt) : Idt :=
  Function.update t num ⟨(base &&& 0xFFFF).setWidth 16, sel, 0, flags ||| 0x60,
    ((base >>> 16) &&& 0xFFFF).setWidth 16⟩

/-- The vectors that `idt_install` sets after all have been set to `idt_none`. -/
def idtStubs : List (BitVec 8) := (List.range 48).map (BitVec.ofNat 8) ++ [63, 64, 128]

def idtInstall (img : Image) : Idt :=
  let t : Idt := fun _ => ⟨0, 0, 0, 0, 0⟩
  let t := (List.range 256).foldl
    (fun t i => idtSetGate (BitVec.ofNat 8 i) (img.addr .idtNone) 0x08 0x8E t) t
  idtStubs.foldl (fun t v => idtSetGate v (img.addr (.stub v)) 0x08 0x8E t) t

/-- What the processor reads from a gate. -/
structure Gate where
  target : Word
  selector : BitVec 16
  present : Bool
  dpl : BitVec 2
  type : BitVec 5
  deriving DecidableEq

def IdtEntry.gate (e : IdtEntry) : Gate where
  target := e.baseHigh ++ e.baseLow
  selector := e.selector
  present := e.flags.getLsbD 7
  dpl := (e.flags >>> 5).setWidth 2
  type := e.flags.setWidth 5

/-- An interrupt gate for the kernel's code that every level may use. -/
def intrGate (target : Word) : Gate := ⟨target, 0x08, true, 3, 0x0E⟩

/-! ## isr.c -/

/-- A handler: `dummy_int_handler`, `irq_spurious` or one of a driver. -/
inductive Isr (H : Type) where
  | dummyIntHandler
  | irqSpurious
  | driver (h : H)
  deriving DecidableEq

/-- A call that an interrupt has led to, with the `int_no` of its `Registers`. -/
inductive Call (H : Type) where
  | handler (i : Isr H) (intNo : Word)
  | switchTask (intNo : Word)
  deriving DecidableEq

/-- The array `interrupt_handlers` with its NULL pointers. It has 256 entries, and memory goes on
after it. -/
abbrev Handlers (H : Type) := Nat → Option (Isr H)

/-- `IRQ_SPURIOUS`. -/
def irqSpuriousNo : Nat := 63

def isrInstall {H : Type} (handlers : Handlers H) : Handlers H :=
  let handlers := (List.range 256).foldl
    (fun (t : Handlers H) i => Function.update t i (some .dummyIntHandler)) handlers
  Function.update handlers irqSpuriousNo (some .irqSpurious)

def registerInterruptHandler {H : Type} (n : BitVec 8) (handler : Option (Isr H))
    (handlers : Handlers H) : Handlers H :=
  Function.update handlers n.toNat handler

/-- Calling a handler: `dummy_int_handler` panics. -/
def Isr.call {H : Type} (i : Isr H) (intNo : Word) : Except Stop (Option (Call H)) :=
  match i with
  | .dummyIntHandler => .error (.panic "Unhandled exception")
  | _ => .ok (some (.handler i intNo))

/-- The C side of interrupts. -/
structure Irqs (H : Type) where
  pics : Pics
  idt : Idt
  handlers : Handlers H

def isrHandler {H : Type} (s : Irqs H) (intNo : Word) : Except Stop (Option (Call H) × Irqs H) :=
  let no : BitVec 8 := (intNo &&& 0xFF).setWidth 8
  match s.handlers no.toNat with
  | some handler => do
    let r ← handler.call intNo
    .ok (r, s)
  | none => .error (.panic "Unhandled\n")

def irqHandler {H : Type} (s : Irqs H) (intNo : Word) : Except Stop (Option (Call H) × Irqs H) :=
  let s := { s with pics := endOfInterrupt intNo s.pics }
  match s.handlers intNo.toNat with
  | some handler => do
    let r ← handler.call intNo
    .ok (r, s)
  | none => .ok (none, s)

/-- `intr_handler` up to its call of `switch_task`; the end of interrupt goes to the local APIC. -/
def intrHandler {H : Type} (s : Irqs H) (intNo : Word) : Except Stop (Option (Call H) × Irqs H) :=
  .ok (some (.switchTask intNo), s)

/-- The C function that the code at a vector jumps to the stub of. -/
def commonStub {H : Type} (v : BitVec 8) :
    Irqs H → Word → Except Stop (Option (Call H) × Irqs H) :=
  if v.toNat < 32 ∨ v = 128 then isrHandler
  else if v.toNat < 48 then irqHandler
  else intrHandler

/-- An interrupt with vector `v`, up to the call of a handler. -/
def vector {H : Type} (img : Image) (v : BitVec 8) (errCode esp0 : Word) (c : Cpu) (s : Irqs H) :
    Except Stop (Option (Call H) × Irqs H) :=
  let gate := (s.idt v).gate
  if gate = intrGate gate.target then
    match img.codeAt gate.target with
    | none => .error (.pageFault gate.target.toNat)
    | some .idtNone => .error (.panic "Unahandled IDT\n")
    | some (.stub w) =>
      match vectorCode w.toNat with
      | none => .error (.pageFault gate.target.toNat)
      | some code => do
        let k ← execAll (deliver v.toNat errCode esp0 c) (code ++ stubSave)
        match regsOnStack k.stack.tail with
        | none => .error (.pageFault k.esp.toNat)
        | some regs => commonStub w s regs.intNo
  else .error (.pageFault gate.target.toNat)

/-! ## What is installed -/

/-- Entries set one after the other, where one value is meant for `a`. -/
theorem foldl_update {α β γ : Type} [DecidableEq α] (key : γ → α) (val : γ → β) {a : α} {b : β} :
    ∀ {l : List γ} {t : α → β}, (∀ c ∈ l, key c = a → val c = b) →
      l.foldl (fun t c => Function.update t (key c) (val c)) t a = if a ∈ l.map key then b else t a := by
  intro l
  induction l with
  | nil => intro t _; rfl
  | cons c l ih =>
    intro t h
    rw [List.foldl_cons, ih fun d hd => h d (List.mem_cons_of_mem c hd), List.map_cons]
    by_cases hc : key c = a
    · rw [if_pos (List.mem_cons.mpr (.inl hc.symm)), ← hc, Function.update_self,
        h c (List.mem_cons_self) hc, ite_self]
    · have hmem : a ∈ key c :: l.map key ↔ a ∈ l.map key := by
        rw [List.mem_cons]
        exact ⟨fun h => h.resolve_left (Ne.symm hc), .inr⟩
      rw [Function.update_of_ne (Ne.symm hc)]
      exact if_congr hmem.symm rfl rfl

theorem ofNat_toNat_self {w : Nat} (v : BitVec w) : BitVec.ofNat w v.toNat = v := by
  rw [BitVec.ofNat_toNat, BitVec.setWidth_eq]

theorem append_halves (base : Word) :
    ((base >>> 16 &&& 0xFFFF).setWidth 16 ++ (base &&& 0xFFFF).setWidth 16 : Word) = base := by
  have hmask : ∀ j, j < 16 → (0xFFFF : Word).getLsbD j = true := by decide
  apply BitVec.eq_of_getLsbD_eq
  intro j hj
  rw [BitVec.getLsbD_append]
  by_cases hlow : j < 16
  · rw [if_pos hlow]
    simp only [BitVec.getLsbD_setWidth, BitVec.getLsbD_and, hmask j hlow, hlow, decide_true,
      Bool.true_and, Bool.and_true]
  · have hj16 : j - 16 < 16 := by omega
    have hadd : 16 + (j - 16) = j := by omega
    rw [if_neg hlow]
    simp only [BitVec.getLsbD_setWidth, BitVec.getLsbD_and, BitVec.getLsbD_ushiftRight,
      hmask _ hj16, hj16, hadd, decide_true, Bool.true_and, Bool.and_true]

/-- The function that the gate of `v` leads to. -/
def codeOf (v : BitVec 8) : Code := if v ∈ idtStubs then .stub v else .idtNone

/-- Every gate is an open one for the kernel's code, and leads to the code at its vector. -/
theorem idtInstall_gate (img : Image) (v : BitVec 8) :
    (idtInstall img v).gate = intrGate (img.addr (codeOf v)) := by
  have hgate : ∀ base : Word, (⟨(base &&& 0xFFFF).setWidth 16, 0x08, 0, 0x8E ||| 0x60,
      ((base >>> 16) &&& 0xFFFF).setWidth 16⟩ : IdtEntry).gate = intrGate base := by
    intro base
    simp only [IdtEntry.gate, append_halves]
    rfl
  have hall : v ∈ (List.range 256).map (BitVec.ofNat 8) :=
    List.mem_map.mpr ⟨v.toNat, List.mem_range.mpr v.isLt, ofNat_toNat_self v⟩
  simp only [idtInstall, idtSetGate]
  rw [foldl_update (fun w : BitVec 8 => w) _ (a := v) fun c _ hc => by rw [hc],
    foldl_update (BitVec.ofNat 8) _ fun _ _ _ => rfl, if_pos hall, List.map_id', codeOf]
  split
  · exact hgate _
  · exact hgate _

theorem isrInstall_eq {H : Type} (handlers : Handlers H) {n : Nat} (hn : n < 256) :
    isrInstall handlers n = some (if n = irqSpuriousNo then .irqSpurious else .dummyIntHandler) := by
  rw [isrInstall]
  by_cases h : n = irqSpuriousNo
  · rw [h, Function.update_self, if_pos rfl]
  · rw [Function.update_of_ne h, if_neg h]
    have hall := foldl_update (fun i : Nat => i) (fun _ => some (Isr.dummyIntHandler (H := H)))
      (a := n) (l := List.range 256) (t := handlers) fun _ _ _ => rfl
    rw [List.map_id', if_pos (List.mem_range.mpr hn)] at hall
    exact hall

/-! ## From the vector to the handler -/

theorem execAll_push {c k : Cpu} {is : List Instr} {i : Instr} {w : Word}
    (hi : ∀ c, exec c i = .ok (c.push w)) (h : execAll c (is ++ [i]) = .ok k) :
    k.stack.head? = some w := by
  rw [execAll_append] at h
  obtain ⟨c', _, hlast⟩ := Machine.bind_eq_ok.mp h
  rw [execAll, hi, Machine.ok_bind, execAll] at hlast
  rw [← Except.ok.inj hlast]
  rfl

/-- The stubs push their vector, sign-extended from a byte. -/
theorem execAll_vector_intNo {v : BitVec 8} {code : List Instr} (hv : vectorCode v.toNat = some code)
    (errCode esp0 : Word) (c : Cpu) :
    ∃ err, execAll (deliver v.toNat errCode esp0 c) code =
      .ok (atStub c esp0 (v.signExtend 32) err) := by
  obtain ⟨intNo, err, hexec⟩ := execAll_vector hv errCode esp0 c
  have hbyte := ofNat_toNat_self v
  have hlast : ∃ is i, code = is ++ [i] ∧ ∀ c, exec c i = .ok (c.push (v.signExtend 32)) := by
    clear hexec
    unfold vectorCode at hv
    split at hv
    · cases hv
      exact ⟨[], _, rfl, fun c => by rw [exec, hbyte]⟩
    · split at hv
      · cases hv
        exact ⟨[.pushByte 0], _, rfl, fun c => by rw [exec, hbyte]⟩
      · split at hv
        · rename_i hlt
          cases hv
          have hsign : v.signExtend 32 = BitVec.ofNat 32 v.toNat := by
            rw [BitVec.signExtend_eq_setWidth_of_msb_false (by
              rw [BitVec.msb_eq_false_iff_two_mul_lt]; omega), BitVec.ofNat_toNat]
          exact ⟨[.pushDword 0], _, rfl, fun c => by rw [exec, hsign]⟩
        · cases hv
  obtain ⟨is, i, rfl, hi⟩ := hlast
  have hhead := execAll_push hi hexec
  rw [atStub, List.head?_cons] at hhead
  rw [hexec, Option.some.inj hhead]
  exact ⟨err, rfl⟩

theorem signExtend_low (v : BitVec 8) : ((v.signExtend 32 &&& 0xFF : Word).setWidth 8) = v := by
  have hmask : ∀ j, j < 8 → (0xFF : Word).getLsbD j = true := by decide
  apply BitVec.eq_of_getLsbD_eq
  intro j hj
  have hj32 : j < 32 := by omega
  rw [BitVec.getLsbD_setWidth, BitVec.getLsbD_and, hmask j hj, BitVec.getLsbD_signExtend]
  simp only [hj, hj32, if_true, decide_true, Bool.true_and, Bool.and_true]

theorem signExtend_toNat {v : BitVec 8} (h : v.toNat < 128) : (v.signExtend 32 : Word).toNat = v.toNat := by
  rw [BitVec.signExtend_eq_setWidth_of_msb_false (by rw [BitVec.msb_eq_false_iff_two_mul_lt]; omega),
    BitVec.toNat_setWidth]
  omega

theorem mem_idtStubs {v : BitVec 8} :
    v ∈ idtStubs ↔ v.toNat < 48 ∨ v = 63 ∨ v = 64 ∨ v = 128 := by
  have hlow : v ∈ (List.range 48).map (BitVec.ofNat 8) ↔ v.toNat < 48 := by
    constructor
    · intro h
      obtain ⟨i, hi, rfl⟩ := List.mem_map.mp h
      have hlt := List.mem_range.mp hi
      rw [BitVec.toNat_ofNat]
      omega
    · intro h
      exact List.mem_map.mpr ⟨v.toNat, List.mem_range.mpr h, ofNat_toNat_self v⟩
  rw [idtStubs, List.mem_append, hlow]
  simp only [List.mem_cons, List.not_mem_nil, or_false]

theorem vectorCode_stubs {v : BitVec 8} (hv : v ∈ idtStubs) : ∃ code, vectorCode v.toNat = some code := by
  unfold vectorCode
  split
  · exact ⟨_, rfl⟩
  · split
    · exact ⟨_, rfl⟩
    · rename_i hno
      rcases mem_idtStubs.mp hv with h48 | rfl | rfl | rfl
      · exact ⟨_, if_pos h48⟩
      · exact absurd (.inr (.inl rfl)) hno
      · exact absurd (.inr (.inr (.inl rfl))) hno
      · exact absurd (.inr (.inr (.inr rfl))) hno

/-- Through the installed table every vector gets to the C function of its own stub, with its own
number, whatever was interrupted; or to `idt_none`. -/
theorem vector_installed {H : Type} {img : Image} {s : Irqs H} (hidt : s.idt = idtInstall img)
    (v : BitVec 8) (errCode esp0 : Word) (c : Cpu) :
    vector img v errCode esp0 c s =
      if v ∈ idtStubs then commonStub v s (v.signExtend 32)
      else .error (.panic "Unahandled IDT\n") := by
  have hgate : (s.idt v).gate = intrGate (img.addr (codeOf v)) := by rw [hidt, idtInstall_gate]
  have htarget : (intrGate (img.addr (codeOf v))).target = img.addr (codeOf v) := rfl
  simp only [vector, hgate, htarget, if_true, img.codeAt_addr]
  by_cases hv : v ∈ idtStubs
  · rw [codeOf, if_pos hv, if_pos hv]
    obtain ⟨code, hcode⟩ := vectorCode_stubs hv
    obtain ⟨err, hexec⟩ := execAll_vector_intNo hcode errCode esp0 c
    simp only [hcode]
    rw [execAll_append, hexec, Machine.ok_bind, execAll_stubSave, Machine.ok_bind]
    rfl
  · rw [codeOf, if_neg hv, if_neg hv]

end Irq
end Frod
