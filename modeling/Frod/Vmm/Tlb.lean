import Frod.Intr.Stub
import Frod.Vmm.Perm

/-!
# Frod.Vmm.Tlb

`vmm_unmap_page` with the TLB: `flush_tlb_entry` of `memory_asm.s` and `interrupt_enabled` of
`cpu_asm.s`, instruction by instruction.

The TLB is a partial map from page numbers to frames. It keeps what it has and caches every page that
is used, which is the most a processor may do. `flush_tlb_entry` reads its return address where it
wants its argument, and `interrupt_enabled` overwrites `eax` anyway, so what is invalidated is always
page 0: `flushTlbEntry_eq`.
-/

namespace Frod
namespace Vmm

open Intr (Cpu)

/-- The cached translations, by page number. -/
abbrev Tlb := Nat → Option Nat

/-- The executing CPU, the memory below it and its TLB. -/
structure Processor where
  cpu : Cpu
  vm : Vmm
  tlb : Tlb

/-! ## The instructions -/

/-- Bits of `eflags`: ZF and IF. -/
def zeroFlag (c : Cpu) : Bool := c.eflags.getLsbD 6
def interruptFlag (c : Cpu) : Bool := c.eflags.getLsbD 9

/-- The parity flag of a result: an even number of bits in its low byte. -/
def evenParity (r : Word) : Bool := ((List.range 8).countP fun i => r.getLsbD i) % 2 == 0

/-- The flags CF, PF, ZF, SF and OF after an operation with result `r` and carry `cf`. -/
def setFlags (e r : Word) (cf : Bool) : Word :=
  (e &&& ~~~0x8C5#32) ||| (if cf then 0x01#32 else 0#32) ||| (if evenParity r then 0x04#32 else 0#32)
    ||| (if r = 0#32 then 0x40#32 else 0#32) ||| (if r.msb then 0x80#32 else 0#32)

inductive Instr where
  | pushEbp
  | movEbpEsp
  | movEaxEsp (words : Nat)
  | call (ret : Word)
  | invlpgEax
  | cli
  | sti
  | movEspEbp
  | popEbp
  | ret
  | pushfd
  | popEax
  | pushEax
  | popfd
  | shrEax (n : Nat)
  | andEax (w : Word)

/-- `movEaxEsp` reads the given number of words above `esp`; `call` pushes the address behind it. -/
def exec (p : Processor) : Instr → Except Stop Processor
  | .pushEbp => .ok { p with cpu := p.cpu.push p.cpu.ebp }
  | .movEbpEsp => .ok { p with cpu := { p.cpu with ebp := p.cpu.esp } }
  | .movEaxEsp n =>
    match p.cpu.stack[n]? with
    | none => .error (.pageFault (p.cpu.esp.toNat + 4 * n))
    | some w => .ok { p with cpu := { p.cpu with eax := w } }
  | .call r => .ok { p with cpu := p.cpu.push r }
  | .invlpgEax => .ok { p with tlb := Function.update p.tlb (p.cpu.eax.toNat / kb4) none }
  | .cli => .ok { p with cpu := { p.cpu with eflags := p.cpu.eflags &&& ~~~0x200#32 } }
  | .sti => .ok { p with cpu := { p.cpu with eflags := p.cpu.eflags ||| 0x200#32 } }
  | .movEspEbp => .ok { p with cpu := { p.cpu with
      esp := p.cpu.ebp, stack := p.cpu.stack.drop ((p.cpu.ebp - p.cpu.esp).toNat / 4) } }
  | .popEbp => do
    let (w, c) ← p.cpu.pop
    .ok { p with cpu := { c with ebp := w } }
  | .ret => do
    let (w, c) ← p.cpu.pop
    .ok { p with cpu := { c with eip := w } }
  | .pushfd => .ok { p with cpu := p.cpu.push p.cpu.eflags }
  | .popEax => do
    let (w, c) ← p.cpu.pop
    .ok { p with cpu := { c with eax := w } }
  | .pushEax => .ok { p with cpu := p.cpu.push p.cpu.eax }
  | .popfd => do
    let (w, c) ← p.cpu.pop
    .ok { p with cpu := { c with eflags := w } }
  | .shrEax n => .ok { p with cpu := { p.cpu with
      eax := p.cpu.eax >>> n,
      eflags := setFlags p.cpu.eflags (p.cpu.eax >>> n) (p.cpu.eax.getLsbD (n - 1)) } }
  | .andEax w => .ok { p with cpu := { p.cpu with
      eax := p.cpu.eax &&& w, eflags := setFlags p.cpu.eflags (p.cpu.eax &&& w) false } }

def execAll (p : Processor) : List Instr → Except Stop Processor
  | [] => .ok p
  | i :: is => do
    let p ← exec p i
    execAll p is

/-- `interrupt_enabled`. -/
def interruptEnabled : List Instr :=
  [.pushEbp, .movEbpEsp, .pushfd, .popEax, .pushEax, .popfd, .shrEax 9, .andEax 1#32, .popEbp, .ret]

/-- `flush_tlb_entry`; `after` is the address behind its call of `interrupt_enabled`. -/
def flushTlbEntry (after : Word) (p : Processor) : Except Stop Processor := do
  let p ← execAll p [.pushEbp, .movEbpEsp, .movEaxEsp 1, .call after]
  let p ← execAll p interruptEnabled
  -- `jnz .enableint`
  let p ← if zeroFlag p.cpu then execAll p [.invlpgEax] else execAll p [.cli, .invlpgEax, .sti]
  execAll p [.movEspEbp, .popEbp, .ret]

/-! ## `vmm_unmap_page` -/

/-- A use of address `va` caches its page. -/
def touch (vm : Vmm) (va : Nat) (tlb : Tlb) : Tlb :=
  if tlb (va / kb4) = none then Function.update tlb (va / kb4) (vm.walk va) else tlb

/-- The translations that the accesses of `vmm_unmap_page` to the directory and to the table of
`vaddr` leave behind. -/
def touched (vm : Vmm) (vaddr : Nat) (tlb : Tlb) : Tlb :=
  touch vm (ptableVirtual (vaddr / mb4)) (touch vm dirVirtual tlb)

/-- `vmm_unmap_page` with its flush: the argument and the return address are pushed, and the argument
is dropped again. `ret` is the address behind the call. -/
def unmapPageFlush (ret after : Word) (p : Processor) (vaddr : Nat) : Except Stop (Int × Processor) := do
  let (err, vm) ← p.vm.vmmUnmapPage vaddr
  if err = vmmSuccess then
    let c := (p.cpu.push (BitVec.ofNat 32 vaddr)).push ret
    let p ← flushTlbEntry after { cpu := c, vm := vm, tlb := touched p.vm vaddr p.tlb }
    let (_, c) ← p.cpu.pop
    return (err, { p with cpu := c })
  else
    return (err, { p with vm := vm, tlb := touch p.vm dirVirtual p.tlb })

/-! ## What the flush does -/

theorem getLsbD_ite (q : Prop) [Decidable q] (w : Word) (i : Nat) :
    (if q then w else 0#32).getLsbD i = (decide q && w.getLsbD i) := by
  by_cases h : q <;> simp [h]

theorem setFlags_zero (e r : Word) (cf : Bool) : (setFlags e r cf).getLsbD 6 = decide (r = 0#32) := by
  simp only [setFlags, BitVec.getLsbD_or, BitVec.getLsbD_and, getLsbD_ite]
  simp

theorem setFlags_interrupt (e r : Word) (cf : Bool) : (setFlags e r cf).getLsbD 9 = e.getLsbD 9 := by
  simp only [setFlags, BitVec.getLsbD_or, BitVec.getLsbD_and, getLsbD_ite]
  simp

/-- What `interrupt_enabled` leaves in `eax`. -/
def enabledWord (c : Cpu) : Word := c.eflags >>> 9 &&& 1#32

theorem interruptEnabled_eq (p : Processor) {r : Word} {st : List Word} (hs : p.cpu.stack = r :: st) :
    ∃ e, execAll p interruptEnabled = .ok { p with cpu := { p.cpu with
        eax := enabledWord p.cpu, eip := r, esp := p.cpu.esp + 4, stack := st, eflags := e } } ∧
      e.getLsbD 6 = decide (enabledWord p.cpu = 0#32) ∧ e.getLsbD 9 = interruptFlag p.cpu := by
  refine ⟨setFlags (setFlags p.cpu.eflags (p.cpu.eflags >>> 9) (p.cpu.eflags.getLsbD (9 - 1)))
    (enabledWord p.cpu) false, ?_, setFlags_zero _ _ _, ?_⟩
  · simp only [execAll, interruptEnabled, exec, Cpu.push, Cpu.pop, hs, bind, Except.bind,
      BitVec.sub_add_cancel]
    rfl
  · rw [setFlags_interrupt, setFlags_interrupt]
    rfl

theorem enabledWord_eq_zero_iff (c : Cpu) : enabledWord c = 0#32 ↔ interruptFlag c = false := by
  have hbit : (enabledWord c != 0#32) = (c.eflags >>> 9).getLsbD 0 :=
    and_single_bne_zero fun i => getLsbD_one_shl 0 i (by decide)
  rw [BitVec.getLsbD_ushiftRight] at hbit
  have hflag : (enabledWord c != 0#32) = interruptFlag c := hbit
  rw [← hflag, bne_eq_false_iff_eq]

/-- Both values of `eax` are addresses in page 0. -/
theorem enabledWord_page (c : Cpu) : (enabledWord c).toNat / kb4 = 0 := by
  have hle : (enabledWord c).toNat ≤ 1 := by
    rw [enabledWord, BitVec.toNat_and]
    exact Nat.and_le_right
  unfold kb4
  omega

/-- `flush_tlb_entry` returns to its caller with the interrupt flag as it was, and invalidates page 0
whatever its argument is. -/
theorem flushTlbEntry_eq (after : Word) (p : Processor) {r arg : Word} {st : List Word}
    (hs : p.cpu.stack = r :: arg :: st) :
    ∃ c, flushTlbEntry after p = .ok { p with cpu := c, tlb := Function.update p.tlb 0 none } ∧
      c.stack = arg :: st ∧ c.eip = r ∧ c.esp = p.cpu.esp + 4 ∧ c.ebp = p.cpu.ebp ∧
      interruptFlag c = interruptFlag p.cpu := by
  -- the state at the call: `eax` holds the return address
  let q : Processor := { p with cpu := { p.cpu with
    eax := r, ebp := p.cpu.esp - 4, esp := p.cpu.esp - 4 - 4,
    stack := after :: p.cpu.ebp :: r :: arg :: st } }
  have hcall : execAll p [.pushEbp, .movEbpEsp, .movEaxEsp 1, .call after] = .ok q := by
    simp only [execAll, exec, Cpu.push, hs, bind, Except.bind]
    rfl
  obtain ⟨e, henabled, hzf, hif⟩ := interruptEnabled_eq q (r := after) rfl
  have hword : enabledWord q.cpu = enabledWord p.cpu := rfl
  have hflag : interruptFlag q.cpu = interruptFlag p.cpu := rfl
  have hzero : (p.cpu.esp - 4 - (p.cpu.esp - 4)).toNat / 4 = 0 := by
    rw [BitVec.sub_self]
    rfl
  rw [flushTlbEntry, hcall, Machine.ok_bind, henabled, Machine.ok_bind]
  by_cases h0 : enabledWord p.cpu = 0#32
  · -- interrupts were off: `jnz` falls through
    have hz : zeroFlag { q.cpu with
        eax := enabledWord q.cpu, eip := after, esp := q.cpu.esp + 4,
        stack := p.cpu.ebp :: r :: arg :: st, eflags := e } = true := by
      rw [zeroFlag, hzf, hword, decide_eq_true h0]
    refine ⟨{ p.cpu with
      eax := enabledWord p.cpu, eip := r, esp := p.cpu.esp + 4, stack := arg :: st, eflags := e },
      ?_, rfl, rfl, rfl, rfl, hif.trans hflag⟩
    rw [if_pos hz]
    simp only [execAll, exec, Cpu.pop, q, hzero, List.drop_zero, bind, Except.bind,
      BitVec.sub_add_cancel, hword, enabledWord_page]
  · have hz : zeroFlag { q.cpu with
        eax := enabledWord q.cpu, eip := after, esp := q.cpu.esp + 4,
        stack := p.cpu.ebp :: r :: arg :: st, eflags := e } = false := by
      rw [zeroFlag, hzf, hword, decide_eq_false h0]
    have hon : interruptFlag p.cpu = true := by
      rw [enabledWord_eq_zero_iff] at h0
      simpa using h0
    refine ⟨{ p.cpu with
      eax := enabledWord p.cpu, eip := r, esp := p.cpu.esp + 4, stack := arg :: st,
      eflags := (e &&& ~~~0x200#32) ||| 0x200#32 }, ?_, rfl, rfl, rfl, rfl, ?_⟩
    · rw [if_neg (by rw [hz]; exact Bool.false_ne_true)]
      simp only [execAll, exec, Cpu.pop, q, hzero, List.drop_zero, bind, Except.bind,
        BitVec.sub_add_cancel, hword, enabledWord_page]
    · rw [hon, interruptFlag, BitVec.getLsbD_or]
      simp

/-! ## What is left in the TLB -/

theorem touch_other (vm : Vmm) {va p : Nat} (hp : p ≠ va / kb4) (tlb : Tlb) :
    touch vm va tlb p = tlb p := by
  unfold touch
  split
  · exact Function.update_of_ne hp _ _
  · rfl

theorem touch_same {vm : Vmm} {va : Nat} (hw : vm.walk va ≠ none) (tlb : Tlb) :
    touch vm va tlb (va / kb4) ≠ none := by
  unfold touch
  split
  · rw [Function.update_self]
    exact hw
  · assumption

theorem touch_keeps (vm : Vmm) (va : Nat) {tlb : Tlb} {p : Nat} (h : tlb p ≠ none) :
    touch vm va tlb p ≠ none := by
  by_cases hp : p = va / kb4
  · subst hp
    rw [touch, if_neg h]
    exact h
  · rw [touch_other vm hp]
    exact h

/-- The call itself uses the page it unmaps only if that is the directory's own. -/
theorem touched_eq_none_iff {vm : Vmm} {vaddr : Nat} (hva : vaddr < 2 ^ 32)
    (hdir : vm.walk dirVirtual ≠ none) (tlb : Tlb) :
    touched vm vaddr tlb (vaddr / kb4) = none ↔
      tlb (vaddr / kb4) = none ∧ vaddr / kb4 ≠ dirVirtual / kb4 := by
  by_cases hp : vaddr / kb4 = dirVirtual / kb4
  · have hcached := touch_same hdir tlb
    rw [← hp] at hcached
    refine ⟨fun hn => absurd hn (touch_keeps vm _ hcached), fun hn => absurd hp hn.2⟩
  · have hwin : vaddr / kb4 ≠ ptableVirtual (vaddr / mb4) / kb4 := by
      unfold dirVirtual kb4 at hp
      unfold ptableVirtual mb4 kb4
      omega
    rw [touched, touch_other vm hwin, touch_other vm hp]
    exact ⟨fun hn => ⟨hn, hp⟩, fun hn => hn.1⟩

/-- The call gives the page table of `vaddr` back. -/
def Freed (vm : Vmm) (vaddr : Nat) : Prop :=
  ∃ vm' i, vm.clearIfPresent (ptableVirtual (addr2Index vaddr).1 + 4 * (addr2Index vaddr).2) = .ok vm' ∧
    vm'.scanLoop (ptableVirtual (addr2Index vaddr).1) 1024 0 = .ok i ∧ i ≥ 1024

/-- No translation of the page is left, none of the window page of a table that was given back, and
the interrupt flag is as before. -/
structure Flushed (p p' : Processor) (vaddr : Nat) : Prop where
  page : p'.tlb (vaddr / kb4) = none
  window : Freed p.vm vaddr → p'.tlb (ptableVirtual (vaddr / mb4) / kb4) = none
  interrupts : interruptFlag p'.cpu = interruptFlag p.cpu

theorem walk_of_load {vm : Vmm} {va : Nat} {w : Word} (h : vm.load va = .ok w) : vm.walk va ≠ none := by
  intro hn
  rw [load, hn] at h
  cases h

theorem walk_page {vm : Vmm} {va i : Nat} (ha : va % kb4 = 0) (hi : i < 1024) :
    vm.walk (va + 4 * i) = vm.walk va := by
  rw [Vmm.walk, Vmm.walk, pde_offset vm ha hi, pte_offset vm ha hi]

/-- A successful call has read the directory and the table. -/
theorem vmmUnmapPage_reads {vm vm' : Vmm} {vaddr : Nat} (hva : vaddr < 2 ^ 32)
    (h : vm.vmmUnmapPage vaddr = .ok (vmmSuccess, vm')) :
    vm.walk dirVirtual ≠ none ∧ vm.walk (ptableVirtual (vaddr / mb4)) ≠ none := by
  have hd : vaddr / mb4 < 1024 := by unfold mb4; omega
  have hi : vaddr / kb4 % 1024 < 1024 := Nat.mod_lt _ (by omega)
  simp only [vmmUnmapPage, addr2Index_eq, Machine.bind_eq_ok] at h
  obtain ⟨de, hde, h⟩ := h
  split at h
  · obtain ⟨vm1, hclear, _⟩ := Machine.bind_eq_ok.mp h
    obtain ⟨te, hte, _⟩ := Machine.bind_eq_ok.mp hclear
    have h1 := walk_of_load hde
    have h2 := walk_of_load hte
    rw [walk_page (by decide) hd] at h1
    rw [walk_page (by unfold ptableVirtual kb4; omega) hi] at h2
    exact ⟨h1, h2⟩
  · cases h

/-- No other page of the table of `vaddr` is present, as the window shows it. -/
def LastPage (vm : Vmm) (vaddr : Nat) : Prop :=
  ∀ j, j < 1024 → j ≠ vaddr / kb4 % 1024 →
    ∃ te, vm.load (ptableVirtual (vaddr / mb4) + 4 * j) = .ok te ∧ present te = false

/-- The scan runs to the end exactly over entries that are all absent. -/
theorem scanLoop_end_iff {vm : Vmm} {va : Nat} : ∀ (n i : Nat) {r : Nat},
    vm.scanLoop va n i = .ok r →
    (i + n ≤ r ↔ ∀ j, i ≤ j → j < i + n → ∃ te, vm.load (va + 4 * j) = .ok te ∧ present te = false) := by
  intro n
  induction n with
  | zero =>
    intro i r h
    cases h
    exact ⟨fun _ j h1 h2 => by omega, fun _ => Nat.le_refl _⟩
  | succ n ih =>
    intro i r h
    obtain ⟨te, hte, h⟩ := Machine.bind_eq_ok.mp h
    by_cases hp : present te = true
    · rw [if_pos hp] at h
      cases h
      refine ⟨fun hle => by omega, fun hall => ?_⟩
      obtain ⟨te', hte', habs⟩ := hall i (Nat.le_refl _) (by omega)
      rw [hte] at hte'
      cases hte'
      rw [hp] at habs
      cases habs
    · rw [if_neg hp] at h
      have hrest := ih (i + 1) h
      rw [show i + 1 + n = i + (n + 1) from by omega] at hrest
      rw [hrest]
      refine ⟨fun hall j h1 h2 => ?_, fun hall j h1 h2 => hall j (by omega) h2⟩
      by_cases hj : j = i
      · subst hj
        exact ⟨te, hte, by simpa using hp⟩
      · exact hall j (by omega) h2

/-- Clearing a word leaves a translation alone or takes it away. -/
theorem walk_set_zero {vm : Vmm} {f i va : Nat}
    (h : walk { vm with phys := vm.phys.set f i 0#32 } va ≠ none) :
    walk { vm with phys := vm.phys.set f i 0#32 } va = vm.walk va := by
  have hzero : present (0#32) = false := by decide
  have hword : ∀ g j, present (vm.phys.set f i 0#32 g j) = true →
      vm.phys.set f i 0#32 g j = vm.phys g j := by
    intro g j hp
    by_cases hgj : g = f ∧ j = i
    · obtain ⟨rfl, rfl⟩ := hgj
      rw [set_same, hzero] at hp
      cases hp
    · by_cases hg : g = f
      · exact set_other_index _ _ _ (fun hj => hgj ⟨hg, hj⟩) _
      · exact set_other_frame _ hg _ _ _
  have hboth : present (pde { vm with phys := vm.phys.set f i 0#32 } va) = true ∧
      present (pte { vm with phys := vm.phys.set f i 0#32 } va) = true := by
    by_contra hn
    rw [walk, if_neg (by simpa using hn)] at h
    exact h rfl
  have hpde : pde { vm with phys := vm.phys.set f i 0#32 } va = vm.pde va := hword _ _ hboth.1
  have hpte : pte { vm with phys := vm.phys.set f i 0#32 } va = vm.pte va := by
    have hrow := hword _ _ hboth.2
    rw [hpde] at hrow
    rw [pte, hpde]
    exact hrow
  rw [walk, walk, hpde, hpte]

/-- Where the page can still be read after an entry of it was cleared, that entry is absent and the
others are as before. -/
theorem clearIfPresent_loads {vm vm' : Vmm} {va i : Nat} (ha : va % kb4 = 0) (hi : i < 1024)
    (h : vm.clearIfPresent (va + 4 * i) = .ok vm') (hw : vm'.walk va ≠ none) :
    (∃ te, vm'.load (va + 4 * i) = .ok te ∧ present te = false) ∧
      ∀ j, j < 1024 → j ≠ i → vm'.load (va + 4 * j) = vm.load (va + 4 * j) := by
  obtain ⟨te, hte, h⟩ := Machine.bind_eq_ok.mp h
  by_cases hp : present te = true
  · rw [if_pos hp, store, walk_page ha hi, word_offset ha hi] at h
    cases hf : vm.walk va with
    | none =>
      rw [hf] at h
      cases h
    | some f =>
      rw [hf] at h
      dsimp only at h
      split at h
      · cases h
        have hread : ∀ j, j < 1024 → load { vm with phys := vm.phys.set f i 0#32 } (va + 4 * j) =
            .ok (vm.phys.set f i 0#32 f j) := by
          intro j hj
          rw [load, walk_page ha hj, walk_set_zero hw, hf, word_offset ha hj]
        refine ⟨⟨_, hread i hi, ?_⟩, fun j hj hne => ?_⟩
        · rw [set_same]
          decide
        · rw [hread j hj, set_other_index _ _ _ hne, load, walk_page ha hj, hf, word_offset ha hj]
      · cases h
  · rw [if_neg hp] at h
    cases h
    exact ⟨⟨te, hte, by simpa using hp⟩, fun _ _ _ => rfl⟩

/-- A table is given back exactly if its last page goes. -/
theorem freed_iff {vm vm' : Vmm} {vaddr : Nat}
    (h : vm.vmmUnmapPage vaddr = .ok (vmmSuccess, vm')) : Freed vm vaddr ↔ LastPage vm vaddr := by
  have hi : vaddr / kb4 % 1024 < 1024 := Nat.mod_lt _ (by omega)
  have ha : ptableVirtual (vaddr / mb4) % kb4 = 0 := by unfold ptableVirtual kb4; omega
  simp only [vmmUnmapPage, addr2Index_eq, Machine.bind_eq_ok] at h
  obtain ⟨de, _, h⟩ := h
  split at h
  · obtain ⟨vm1, hclear, h⟩ := Machine.bind_eq_ok.mp h
    obtain ⟨r, hscan, _⟩ := Machine.bind_eq_ok.mp h
    have hfreed : Freed vm vaddr ↔ 0 + 1024 ≤ r := by
      simp only [Freed, addr2Index_eq]
      constructor
      · rintro ⟨vm2, r2, hclear2, hscan2, hge⟩
        rw [hclear] at hclear2
        cases hclear2
        rw [hscan] at hscan2
        cases hscan2
        omega
      · intro hge
        exact ⟨vm1, r, hclear, hscan, by omega⟩
    obtain ⟨_, hfirst, _⟩ := Machine.bind_eq_ok.mp hscan
    obtain ⟨hown, hother⟩ := clearIfPresent_loads ha hi hclear (walk_of_load hfirst)
    rw [hfreed, scanLoop_end_iff 1024 0 hscan]
    constructor
    · intro hall j hj hne
      rw [← hother j hj hne]
      exact hall j (Nat.zero_le _) (by omega)
    · intro hlast j _ hj
      by_cases hne : j = vaddr / kb4 % 1024
      · rw [hne]
        exact hown
      · rw [hother j (by omega) hne]
        exact hlast j (by omega) hne
  · cases h

/-- After a successful call the TLB holds what it held and what the call used, except page 0. -/
theorem unmapPageFlush_tlb {ret after : Word} {p p' : Processor} {vaddr : Nat}
    (h : unmapPageFlush ret after p vaddr = .ok (vmmSuccess, p')) :
    (∃ vm', p.vm.vmmUnmapPage vaddr = .ok (vmmSuccess, vm')) ∧
      p'.tlb = Function.update (touched p.vm vaddr p.tlb) 0 none ∧
      interruptFlag p'.cpu = interruptFlag p.cpu := by
  simp only [unmapPageFlush, Machine.bind_eq_ok] at h
  obtain ⟨⟨err, vm⟩, hunmap, h⟩ := h
  by_cases herr : err = vmmSuccess
  · subst herr
    simp only [if_true, Machine.bind_eq_ok] at h
    obtain ⟨q, hflush, ⟨w, c⟩, hpop, hret⟩ := h
    obtain ⟨c', hflush', hstack, _, _, _, hif⟩ := flushTlbEntry_eq after
      { cpu := (p.cpu.push (BitVec.ofNat 32 vaddr)).push ret, vm := vm,
        tlb := touched p.vm vaddr p.tlb } (r := ret) rfl
    rw [hflush'] at hflush
    cases hflush
    simp only [Cpu.pop, hstack] at hpop
    cases hpop
    cases hret
    exact ⟨⟨vm, hunmap⟩, rfl, hif⟩
  · simp only [if_neg herr] at h
    cases h
    exact absurd rfl herr

/-- **When an unmapped page leaves the TLB.** For every state and every address: after a successful
`vmm_unmap_page` the translations are gone exactly if the page was not cached (or is page 0, the one
that is invalidated) and its table has another page. -/
theorem unmapPageFlush_flushed_iff {ret after : Word} {p p' : Processor} {vaddr : Nat}
    (hva : vaddr < 2 ^ 32) (h : unmapPageFlush ret after p vaddr = .ok (vmmSuccess, p')) :
    Flushed p p' vaddr ↔ ¬ LastPage p.vm vaddr ∧
      (vaddr / kb4 = 0 ∨ (p.tlb (vaddr / kb4) = none ∧ vaddr / kb4 ≠ dirVirtual / kb4)) := by
  obtain ⟨⟨vm', hunmap⟩, htlb, hif⟩ := unmapPageFlush_tlb h
  obtain ⟨hdir, hwin⟩ := vmmUnmapPage_reads hva hunmap
  have hd : vaddr / mb4 < 1024 := by unfold mb4; omega
  have hwin0 : ptableVirtual (vaddr / mb4) / kb4 ≠ 0 := by unfold ptableVirtual kb4; omega
  have hcached := touch_same hwin (touch p.vm dirVirtual p.tlb)
  rw [← freed_iff hunmap]
  constructor
  · rintro ⟨hpage, hwindow, _⟩
    refine ⟨fun hfreed => ?_, ?_⟩
    · have hnone := hwindow hfreed
      rw [htlb, Function.update_of_ne hwin0] at hnone
      exact hcached hnone
    · by_cases h0 : vaddr / kb4 = 0
      · exact .inl h0
      · rw [htlb, Function.update_of_ne h0] at hpage
        exact .inr ((touched_eq_none_iff hva hdir p.tlb).mp hpage)
  · rintro ⟨hfreed, hpage⟩
    refine ⟨?_, fun hc => absurd hc hfreed, hif⟩
    rw [htlb]
    by_cases h0 : vaddr / kb4 = 0
    · rw [h0, Function.update_self]
    · rw [Function.update_of_ne h0]
      exact (touched_eq_none_iff hva hdir p.tlb).mpr (hpage.resolve_left h0)

/-! ## Samples -/

/-- A processor in kernel mode with interrupts on, over the tables of `vmm_init`, with the given pages
cached. -/
def sampleProcessor (tlb : Tlb) : Processor :=
  { cpu :=
      { eax := 0, ecx := 0, edx := 0, ebx := 0, esp := 0x3FF000#32, ebp := 0x3FF000#32, esi := 0,
        edi := 0, ds := 0x10, es := 0x10, fs := 0x10, gs := 0x10, ss := 0x10, cs := 0x08,
        eip := 0x100000#32, eflags := 0x202#32, stack := [] },
    vm := sampleVmm.vmmInit,
    tlb := tlb }

/-- Unmapping a page succeeds whenever `vmm_unmap_page` does. -/
theorem unmapPageFlush_ok (ret after : Word) {p : Processor} {vaddr : Nat} {vm : Vmm}
    (h : p.vm.vmmUnmapPage vaddr = .ok (vmmSuccess, vm)) :
    ∃ p', unmapPageFlush ret after p vaddr = .ok (vmmSuccess, p') := by
  obtain ⟨c, hflush, hstack, _⟩ := flushTlbEntry_eq after
    { cpu := (p.cpu.push (BitVec.ofNat 32 vaddr)).push ret, vm := vm,
      tlb := touched p.vm vaddr p.tlb } (r := ret) rfl
  have hret : unmapPageFlush ret after p vaddr = .ok (vmmSuccess,
      ⟨{ c with esp := c.esp + 4, stack := p.cpu.stack }, vm,
        Function.update (touched p.vm vaddr p.tlb) 0 none⟩) := by
    simp only [unmapPageFlush, h, Machine.ok_bind, if_true, hflush, Cpu.pop, hstack]
    rfl
  exact ⟨_, hret⟩

theorem not_lastPage {vm : Vmm} (h : SelfMap vm) {va j : Nat} (hva : va < 0xFFC00000)
    (ht : HasTable vm (va / mb4)) (hj : j < 1024) (hne : j ≠ va / kb4 % 1024)
    (hp : HasPage vm (va / mb4) j) : ¬ LastPage vm va := by
  intro hlast
  obtain ⟨te, hte, habs⟩ := hlast j hj hne
  rw [load_window h hva ht hj] at hte
  cases hte
  rw [HasPage, habs] at hp
  cases hp

/-- Page 1 is one of the pages of the first 4 MB. -/
theorem sample_unmap : ∃ vm, sampleVmm.vmmInit.vmmUnmapPage 0x1000 = .ok (vmmSuccess, vm) := by
  have hR := vmmInit_refines (s := sampleVmm) (by decide) sampleVmm_twoFree
  have hva : 0x1000 < 0xFFC00000 := by decide
  obtain ⟨vm, hret, _⟩ := unmapPage_refines hR hva
  refine ⟨vm, ?_⟩
  have hregion : ¬ regionEmpty initMap (0x1000 / mb4) = true := by
    rw [regionEmpty_iff]
    intro hc
    exact absurd (hc 0 (by omega)) (by decide)
  rw [hret, spec, if_neg hregion]

/-- With nothing cached before, nothing of the page is cached afterwards. -/
theorem unmapPageFlush_flushed_sample : ∃ p',
    unmapPageFlush 0x101000#32 0x102000#32 (sampleProcessor fun _ => none) 0x1000 =
      .ok (vmmSuccess, p') ∧ Flushed (sampleProcessor fun _ => none) p' 0x1000 := by
  obtain ⟨vm, hunmap⟩ := sample_unmap
  obtain ⟨p', hret⟩ := unmapPageFlush_ok 0x101000#32 0x102000#32 (p := sampleProcessor fun _ => none)
    hunmap
  refine ⟨p', hret, (unmapPageFlush_flushed_iff (by decide) hret).mpr ⟨?_, .inr ⟨rfl, by decide⟩⟩⟩
  obtain ⟨k1, k2, hb⟩ := vmmInit_built (s := sampleVmm) (by decide) sampleVmm_twoFree
  have ht : HasTable sampleVmm.vmmInit (0x1000 / mb4) := (hb.hasTable_iff (by decide)).mpr (by decide)
  refine not_lastPage (hb.inv (by decide)).self (j := 0) (by decide) ht (by omega) (by decide) ?_
  rw [show 0x1000 / mb4 = 0 from by decide, HasPage, hb.table_zero]
  exact (hb.page (by omega)).present

/-- A cached page stays cached when it is unmapped. -/
theorem unmapPageFlush_stale : ∃ p',
    unmapPageFlush 0x101000#32 0x102000#32 (sampleProcessor fun q => if q = 1 then some 1 else none)
      0x1000 = .ok (vmmSuccess, p') ∧ p'.tlb (0x1000 / kb4) ≠ none ∧
    ¬ Flushed (sampleProcessor fun q => if q = 1 then some 1 else none) p' 0x1000 := by
  obtain ⟨vm, hunmap⟩ := sample_unmap
  obtain ⟨p', hret⟩ := unmapPageFlush_ok 0x101000#32 0x102000#32
    (p := sampleProcessor fun q => if q = 1 then some 1 else none) hunmap
  obtain ⟨_, htlb, _⟩ := unmapPageFlush_tlb hret
  have hstale : p'.tlb (0x1000 / kb4) ≠ none := by
    rw [htlb, Function.update_of_ne (by decide)]
    refine touch_keeps _ _ (touch_keeps _ _ ?_)
    show (if 0x1000 / kb4 = 1 then some 1 else none) ≠ none
    rw [if_pos (by decide)]
    exact Option.some_ne_none 1
  exact ⟨p', hret, hstale, fun hf => hstale hf.page⟩

end Vmm
end Frod
