import Mathlib.Data.BitVec
import Frod.Smp.Own
import Frod.Smp.Start

/-!
# Frod.Smp.Turns

What each turn of the start of the processors keeps, and what it gets done.

`Inv` says where everybody is: the processors in front of the one that is being started are up, the
ones behind it are halted, and what that one has loaded is what the boot processor has written for
it. The mailbox is only written while nobody reads it. It holds for tables in which every processor
selects its own entry (`Ready`).
-/

namespace Frod
namespace Smp
namespace Start

open Interleave

/-- A table that the start works for: the first entry is the boot processor's, the others are not
started, and every processor selects its own entry. -/
structure Ready (machine : Machine) (c : Cpus) : Prop where
  numCpus : c.numCpus ≤ maxCpus
  bootCpu : ∀ i, i < c.numCpus → (c.cpus i).bootCpu = decide (i = 0)
  started : ∀ i, i < c.numCpus → i ≠ 0 → (c.cpus i).started = 0
  own : ∀ i, i < c.numCpus → i ≠ 0 → lapicCpuid c (machine.proc (c.cpus i).id) = i

/-- The top of the stack of the processor with entry `i`. -/
def stackTop (i : Nat) : Word := BitVec.ofNat 32 kernelStackTop - BitVec.ofNat 32 (kb4 * 2 * i)

/-- `a` is the id of entry `i`. -/
def IsAp (c : Cpus) (i : Nat) (a : BitVec 8) : Prop := i < c.numCpus ∧ i ≠ 0 ∧ (c.cpus i).id = a

theorem Ready.inj {machine : Machine} {c : Cpus} (h : Ready machine c) {i j : Nat} {a : BitVec 8}
    (hi : IsAp c i a) (hj : IsAp c j a) : i = j := by
  rw [← h.own i hi.1 hi.2.1, ← h.own j hj.1 hj.2.1, hi.2.2, hj.2.2]

/-- What is never changed in the table. -/
structure SameIds (c c' : Cpus) : Prop where
  numCpus : c'.numCpus = c.numCpus
  localApic : c'.localApic = c.localApic
  ioApic : c'.ioApic = c.ioApic
  other : ∀ i, i = 0 ∨ c.numCpus ≤ i → c'.cpus i = c.cpus i
  id : ∀ i, (c'.cpus i).id = (c.cpus i).id
  bootCpu : ∀ i, (c'.cpus i).bootCpu = (c.cpus i).bootCpu

/-! ## The invariant -/

/-- A processor with entry `i` that has not been started; `c` is the table at the start. -/
structure Down (c c' : Cpus) (i : Nat) (p : Ap) (phase : Phase) : Prop where
  phase : p.phase = phase
  entry : c'.cpus i = c.cpus i

/-- The registers a processor has loaded, phase by phase, and its entry. -/
def Working (k : Kernel) (c c' : Cpus) (i : Nat) (p : Ap) : Prop :=
  match p.phase with
  | .halted => False
  | .waiting => False
  | .started ip => ip = codeAddr ∧ c'.cpus i = c.cpus i
  | .paging => p.cr3 = k.kernelDir ∧ c'.cpus i = c.cpus i
  | .stacked => p.cr3 = k.kernelDir ∧ p.esp = stackTop i ∧ c'.cpus i = c.cpus i
  | .called => p.cr3 = k.kernelDir ∧ p.esp = stackTop i ∧ p.eax = k.cpuApEnter ∧
      c'.cpus i = c.cpus i
  | .installed => p.cr3 = k.kernelDir ∧ p.esp = stackTop i ∧ p.eax = k.cpuApEnter ∧
      c'.cpus i = { c.cpus i with cpu := i } ∧ p.proc.gs = i
  | .running => p.cr3 = k.kernelDir ∧ p.esp = stackTop i ∧ p.eax = k.cpuApEnter ∧
      c'.cpus i = { c.cpus i with cpu := i, started := 1 }

/-- A processor that has set its flag. -/
structure Up (k : Kernel) (c c' : Cpus) (i : Nat) (p : Ap) : Prop where
  phase : p.phase = .running
  working : Working k c c' i p

/-- The processor that `lapic_start_ap` is started for, by the number of writes that are left. -/
def Called (k : Kernel) (c c' : Cpus) (i : Nat) (p : Ap) (left : Nat) : Prop :=
  if 6 ≤ left then Down c c' i p .halted
  else if 3 ≤ left then Down c c' i p .waiting
  else Working k c c' i p

/-- The mailbox is complete. -/
def Full (k : Kernel) (s : Sys) : Prop := s.mailbox = ⟨stackTop s.boot.i, k.cpuApEnter, k.kernelDir⟩

/-- The entry at which the boot processor is, by where it is. -/
def Current (k : Kernel) (c : Cpus) (s : Sys) : Prop :=
  let i := s.boot.i
  match s.boot.pc with
  | .head => s.boot.currStack = stackTop (i - 1) ∧ (∀ a, IsAp c i a → Down c s.cpus i (s.ap a) .halted)
  | .stack => s.boot.currStack = stackTop i ∧ ∃ a, IsAp c i a ∧ Down c s.cpus i (s.ap a) .halted
  | .entry => s.boot.currStack = stackTop i ∧ s.mailbox.stackAddr = stackTop i ∧
      ∃ a, IsAp c i a ∧ Down c s.cpus i (s.ap a) .halted
  | .dir => s.boot.currStack = stackTop i ∧ s.mailbox.stackAddr = stackTop i ∧
      s.mailbox.entryPoint = k.cpuApEnter ∧ ∃ a, IsAp c i a ∧ Down c s.cpus i (s.ap a) .halted
  | .icr writes => s.boot.currStack = stackTop i ∧ Full k s ∧ ∃ a, IsAp c i a ∧
      (writes.length ≤ 7 ∧ writes = (lapicStartAp a codeAddr).drop (7 - writes.length)) ∧
      (writes.length < 7 → s.boot.icrHi = a.setWidth 32 <<< 24) ∧ Called k c s.cpus i (s.ap a) writes.length
  | .wait => s.boot.currStack = stackTop i ∧ Full k s ∧ ∃ a, IsAp c i a ∧ Working k c s.cpus i (s.ap a)
  | .main => i = c.numCpus

structure Inv (k : Kernel) (machine : Machine) (c : Cpus) (s : Sys) : Prop where
  ids : SameIds c s.cpus
  proc : ∀ a, ∃ gs, (s.ap a).proc = { machine.proc a with gs := gs }
  bound : s.boot.i ≤ c.numCpus
  before : ∀ i a, i < s.boot.i → IsAp c i a → Up k c s.cpus i (s.ap a)
  behind : ∀ i a, s.boot.i < i → IsAp c i a → Down c s.cpus i (s.ap a) .halted
  outside : ∀ a, (∀ i, ¬ IsAp c i a) → (s.ap a).phase = .halted
  current : Current k c s

theorem inv_start {k : Kernel} {machine : Machine} {c : Cpus} :
    Inv k machine c (start machine c) := by
  refine ⟨⟨rfl, rfl, rfl, fun _ _ => rfl, fun _ => rfl, fun _ => rfl⟩, fun a => ⟨(machine.proc a).gs, rfl⟩,
    Nat.zero_le _, fun i a hi => absurd hi (Nat.not_lt_zero i), fun i a _ ha => ?_, fun _ _ => rfl, ?_⟩
  · exact ⟨rfl, rfl⟩
  · exact ⟨by simp [start, stackTop], fun a ha => absurd rfl ha.2.1⟩

/-! ## The others -/

def Phase.rank : Phase → Nat
  | .halted => 0
  | .waiting => 1
  | .started _ => 2
  | .paging => 3
  | .stacked => 4
  | .called => 5
  | .installed => 6
  | .running => 7

/-- A turn of the processor `a` with entry `i` that changes something. -/
structure Turned (k : Kernel) (machine : Machine) (c : Cpus) (s s' : Sys) (i : Nat) (a : BitVec 8) :
    Prop where
  boot : s'.boot = s.boot
  mailbox : s'.mailbox = s.mailbox
  other : ∀ b, b ≠ a → s'.ap b = s.ap b
  ids : SameIds c s'.cpus
  entries : ∀ j, j ≠ i → s'.cpus.cpus j = s.cpus.cpus j
  proc : ∃ gs, (s'.ap a).proc = { machine.proc a with gs := gs }
  working : Working k c s'.cpus i (s'.ap a)
  rank : (s'.ap a).phase.rank = (s.ap a).phase.rank + 1

section Ap

variable {k : Kernel} {machine : Machine} {c : Cpus} {s : Sys} {i : Nat} {a : BitVec 8}

variable (machine) in
/-- The registers do not matter for what `lapic_cpuid` reads. -/
theorem lapicCpuid_proc (h : SameIds c s.cpus) {gs : Nat}
    (hp : (s.ap a).proc = { machine.proc a with gs := gs }) :
    lapicCpuid s.cpus (s.ap a).proc = lapicCpuid c (machine.proc a) := by
  rw [lapicCpuid, lapicCpuid, h.localApic, hp]
  rfl

theorem apStep_idle (h : (s.ap a).phase = .halted ∨ (s.ap a).phase = .waiting ∨
    (s.ap a).phase = .running) : s.apStep k a = s := by
  rcases h with h | h | h <;> rw [Sys.apStep] <;> simp only [h]

theorem turned_set (p : Ap) (cs : Cpus) (hids : SameIds c cs)
    (hentries : ∀ j, j ≠ i → cs.cpus j = s.cpus.cpus j)
    (hproc : ∃ gs, p.proc = { machine.proc a with gs := gs }) (hw : Working k c cs i p)
    (hrank : p.phase.rank = (s.ap a).phase.rank + 1) :
    Turned k machine c s { s with ap := Function.update s.ap a p, cpus := cs } i a := by
  refine ⟨rfl, rfl, fun b hb => Function.update_of_ne hb _ _, hids, hentries, ?_, ?_, ?_⟩
  · simpa only [Function.update_self] using hproc
  · simpa only [Function.update_self] using hw
  · simpa only [Function.update_self] using hrank

/-- What `gdt_install` and `xchg` write is in the processor's own entry. -/
theorem sameIds_update {cs : Cpus} (h : SameIds c cs) (ha : IsAp c i a) {e : CpuInfo}
    (hid : e.id = (c.cpus i).id) (hboot : e.bootCpu = (c.cpus i).bootCpu) :
    SameIds c { cs with cpus := Function.update cs.cpus i e } := by
  have hlt := ha.1
  have hne := ha.2.1
  refine ⟨h.numCpus, h.localApic, h.ioApic, fun j hj => ?_, fun j => ?_, fun j => ?_⟩
  · rw [← h.other j hj]
    exact Function.update_of_ne (by omega) _ _
  · by_cases hj : j = i
    · subst hj
      simpa only [Function.update_self] using hid
    · simpa only [Function.update_of_ne hj] using h.id j
  · by_cases hj : j = i
    · subst hj
      simpa only [Function.update_self] using hboot
    · simpa only [Function.update_of_ne hj] using h.bootCpu j

theorem apStep_turned (hids : SameIds c s.cpus)
    (hproc : ∃ gs, (s.ap a).proc = { machine.proc a with gs := gs })
    (ha : IsAp c i a) (hown : lapicCpuid c (machine.proc a) = i)
    (hfull : s.mailbox = ⟨stackTop i, k.cpuApEnter, k.kernelDir⟩)
    (hw : Working k c s.cpus i (s.ap a)) (hrun : (s.ap a).phase ≠ .running) :
    Turned k machine c s (s.apStep k a) i a := by
  obtain ⟨gs, hgs⟩ := hproc
  have hcpuid := lapicCpuid_proc machine hids hgs
  rw [hown] at hcpuid
  have hstack : s.mailbox.stackAddr = stackTop i := by rw [hfull]
  have hentry : s.mailbox.entryPoint = k.cpuApEnter := by rw [hfull]
  have hdir : s.mailbox.pageDir = k.kernelDir := by rw [hfull]
  rw [Working] at hw
  cases hph : (s.ap a).phase with
  | halted => rw [hph] at hw; exact absurd hw id
  | waiting => rw [hph] at hw; exact absurd hw id
  | running => exact absurd hph hrun
  | started ip =>
    simp only [hph] at hw
    obtain ⟨rfl, hflag⟩ := hw
    simp only [Sys.apStep, hph, if_true, hdir]
    exact turned_set { s.ap a with phase := .paging, cr3 := k.kernelDir } s.cpus hids
      (fun _ _ => rfl) ⟨gs, hgs⟩ ⟨rfl, hflag⟩ (by rw [hph]; rfl)
  | paging =>
    simp only [hph] at hw
    simp only [Sys.apStep, hph, hstack]
    exact turned_set { s.ap a with phase := .stacked, esp := stackTop i } s.cpus hids
      (fun _ _ => rfl) ⟨gs, hgs⟩ ⟨hw.1, rfl, hw.2⟩ (by rw [hph]; rfl)
  | stacked =>
    simp only [hph] at hw
    simp only [Sys.apStep, hph, hentry]
    exact turned_set { s.ap a with phase := .called, eax := k.cpuApEnter } s.cpus hids
      (fun _ _ => rfl) ⟨gs, hgs⟩ ⟨hw.1, hw.2.1, rfl, hw.2.2⟩ (by rw [hph]; rfl)
  | called =>
    simp only [hph] at hw
    obtain ⟨hcr3, hesp, heax, hentry⟩ := hw
    simp only [Sys.apStep, hph, heax, if_true, gdtInstall, hcpuid, hentry]
    refine turned_set _ _ (sameIds_update hids ha rfl rfl)
      (fun j hj => Function.update_of_ne hj _ _) ⟨i, by rw [hgs]⟩ ?_ (by rw [hph]; rfl)
    simp only [Working, Function.update_self]
    exact ⟨hcr3, hesp, trivial, trivial, trivial⟩
  | installed =>
    simp only [hph] at hw
    obtain ⟨hcr3, hesp, heax, hentry, hcur⟩ := hw
    simp only [Sys.apStep, hph, cpuCommonMain, currentCpu, hcur, hentry]
    refine turned_set _ _ (sameIds_update hids ha rfl rfl)
      (fun j hj => Function.update_of_ne hj _ _) ⟨gs, hgs⟩ ?_ (by rw [hph]; rfl)
    simp only [Working, Function.update_self]
    exact ⟨hcr3, hesp, heax, trivial⟩

/-- What is said of another processor does not depend on this one. -/
theorem Turned.up {s' : Sys} {j : Nat} {b : BitVec 8} (h : Turned k machine c s s' i a) (hj : j ≠ i)
    (hb : b ≠ a) (hup : Up k c s.cpus j (s.ap b)) : Up k c s'.cpus j (s'.ap b) := by
  obtain ⟨hph, hw⟩ := hup
  rw [Working, hph] at hw
  refine ⟨by rw [h.other b hb, hph], ?_⟩
  rw [Working, h.other b hb, hph, h.entries j hj]
  exact hw

theorem Turned.down {s' : Sys} {j : Nat} {b : BitVec 8} {ph : Phase}
    (h : Turned k machine c s s' i a) (hj : j ≠ i) (hb : b ≠ a) (hdown : Down c s.cpus j (s.ap b) ph) :
    Down c s'.cpus j (s'.ap b) ph :=
  ⟨by rw [h.other b hb, hdown.phase], by rw [h.entries j hj, hdown.entry]⟩

variable (machine) in
/-- The processor at whose entry the boot processor is has not been started, or the mailbox is
complete and its next turn keeps what is said of it. -/
theorem Current.cases (hcur : Current k c s) (ha : IsAp c s.boot.i a) :
    Down c s.cpus s.boot.i (s.ap a) .halted ∨ Down c s.cpus s.boot.i (s.ap a) .waiting ∨
      (Full k s ∧ Working k c s.cpus s.boot.i (s.ap a) ∧
        ∀ s', Turned k machine c s s' s.boot.i a → Current k c s') := by
  have hone : ∀ {b}, IsAp c s.boot.i b → b = a := fun hb => hb.2.2.symm.trans ha.2.2
  rw [Current] at hcur
  cases hpc : s.boot.pc with
  | head =>
    rw [hpc] at hcur
    exact .inl (hcur.2 a ha)
  | stack =>
    rw [hpc] at hcur
    obtain ⟨_, b, hb, hdown⟩ := hcur
    obtain rfl := hone hb
    exact .inl hdown
  | entry =>
    rw [hpc] at hcur
    obtain ⟨_, _, b, hb, hdown⟩ := hcur
    obtain rfl := hone hb
    exact .inl hdown
  | dir =>
    rw [hpc] at hcur
    obtain ⟨_, _, _, b, hb, hdown⟩ := hcur
    obtain rfl := hone hb
    exact .inl hdown
  | main =>
    rw [hpc] at hcur
    have hlt := ha.1
    dsimp only at hcur
    omega
  | wait =>
    rw [hpc] at hcur
    obtain ⟨hstack, hfull, b, hb, hw⟩ := hcur
    obtain rfl := hone hb
    refine .inr (.inr ⟨hfull, hw, fun s' h => ?_⟩)
    rw [Current, h.boot, hpc]
    exact ⟨hstack, by rw [Full, h.mailbox, h.boot]; exact hfull, b, hb, h.working⟩
  | icr writes =>
    rw [hpc] at hcur
    obtain ⟨hstack, hfull, b, hb, hwrites, hhi, hcalled⟩ := hcur
    obtain rfl := hone hb
    rw [Called] at hcalled
    by_cases h6 : 6 ≤ writes.length
    · rw [if_pos h6] at hcalled
      exact .inl hcalled
    · rw [if_neg h6] at hcalled
      by_cases h3 : 3 ≤ writes.length
      · rw [if_pos h3] at hcalled
        exact .inr (.inl hcalled)
      · rw [if_neg h3] at hcalled
        refine .inr (.inr ⟨hfull, hcalled, fun s' h => ?_⟩)
        rw [Current, h.boot, hpc]
        refine ⟨hstack, by rw [Full, h.mailbox, h.boot]; exact hfull, b, hb, hwrites, hhi, ?_⟩
        rw [Called, if_neg h6, if_neg h3]
        exact h.working

/-- A turn of a processor changes nothing, or brings the one that is being started one phase on. -/
theorem Inv.ap_turn (hr : Ready machine c) (h : Inv k machine c s) (a : BitVec 8) :
    s.apStep k a = s ∨ (Inv k machine c (s.apStep k a) ∧
      Turned k machine c s (s.apStep k a) s.boot.i a) := by
  by_cases hidle : (s.ap a).phase = .halted ∨ (s.ap a).phase = .waiting ∨ (s.ap a).phase = .running
  · exact .inl (apStep_idle hidle)
  · simp only [not_or] at hidle
    obtain ⟨hhalt, hwait, hrun⟩ := hidle
    have ha : IsAp c s.boot.i a := by
      refine Classical.byContradiction fun hno => hhalt (h.outside a fun i hi => ?_)
      rcases Nat.lt_trichotomy i s.boot.i with hlt | rfl | hgt
      · exact hrun (h.before i a hlt hi).phase
      · exact hno hi
      · exact hhalt (h.behind i a hgt hi).phase
    rcases h.current.cases machine ha with hdown | hdown | ⟨hfull, hw, hcur⟩
    · exact absurd hdown.phase hhalt
    · exact absurd hdown.phase hwait
    have hown := hr.own _ ha.1 ha.2.1
    rw [ha.2.2] at hown
    have hturn := apStep_turned h.ids (h.proc a) ha hown hfull hw hrun
    have hne : ∀ {j b}, IsAp c j b → j ≠ s.boot.i → b ≠ a := by
      rintro j b hb hj rfl
      exact hj (hr.inj hb ha)
    refine .inr ⟨⟨hturn.ids, fun b => ?_, by rw [hturn.boot]; exact h.bound, fun j b hj hb => ?_,
      fun j b hj hb => ?_, fun b hb => ?_, hcur _ hturn⟩, hturn⟩
    · by_cases hba : b = a
      · rw [hba]
        exact hturn.proc
      · rw [hturn.other b hba]
        exact h.proc b
    · rw [hturn.boot] at hj
      exact hturn.up (Nat.ne_of_lt hj) (hne hb (Nat.ne_of_lt hj)) (h.before j b hj hb)
    · rw [hturn.boot] at hj
      exact hturn.down (Nat.ne_of_gt hj) (hne hb (Nat.ne_of_gt hj)) (h.behind j b hj hb)
    · rw [hturn.other b fun hba => hb _ (hba ▸ ha)]
      exact h.outside b hb

end Ap

/-! ## The boot processor -/

theorem command_init :
    command (icrDeliveryModeInit ||| icrTriggerModeLevel ||| icrLevelAssert) = some .init := by decide

theorem command_deassert : command (icrDeliveryModeInit ||| icrTriggerModeLevel) = none := by decide

theorem command_startup :
    command (icrDeliveryModeStart ||| codeAddr >>> 12) = some (.startup 7) := by decide

theorem startup_page : (7 : BitVec 8).setWidth 32 <<< 12 = codeAddr := by decide

theorem icrHi_dest (a : BitVec 8) : ((a.setWidth 32 <<< 24) >>> 24 : Word).setWidth 8 = a := by
  have hlt := a.isLt
  apply BitVec.eq_of_toNat_eq
  simp only [BitVec.toNat_setWidth, BitVec.toNat_ushiftRight, BitVec.toNat_shiftLeft,
    Nat.shiftLeft_eq, Nat.shiftRight_eq_div_pow]
  omega

/-- How far the body of the loop is from its end. -/
def BootPc.left : BootPc → Nat
  | .head => 15
  | .stack => 14
  | .entry => 13
  | .dir => 12
  | .icr writes => 4 + writes.length
  | .wait => 1
  | .main => 0

/-- How far the boot processor is from its own main. -/
def bootLeft (c : Cpus) (s : Sys) : Nat := (c.numCpus - s.boot.i) * 20 + s.boot.pc.left

/-- A turn of the boot processor that keeps it at its entry. -/
structure Kept (c : Cpus) (s s' : Sys) : Prop where
  i : s'.boot.i = s.boot.i
  cpus : s'.cpus = s.cpus
  other : ∀ b, ¬ IsAp c s.boot.i b → s'.ap b = s.ap b
  proc : ∀ b, (s'.ap b).proc = (s.ap b).proc

section Boot

variable {k : Kernel} {machine : Machine} {c : Cpus} {s : Sys}

theorem Inv.kept (hr : Ready machine c) {s' : Sys} (h : Inv k machine c s) (hk : Kept c s s')
    (hcur : Current k c s') : Inv k machine c s' := by
  have hap : ∀ {j b}, IsAp c j b → j ≠ s.boot.i → s'.ap b = s.ap b := fun hb hj =>
    hk.other _ fun hbi => hj (hr.inj hb hbi)
  refine ⟨by rw [hk.cpus]; exact h.ids, fun b => by rw [hk.proc]; exact h.proc b,
    by rw [hk.i]; exact h.bound, fun j b hj hb => ?_, fun j b hj hb => ?_, fun b hb => ?_, hcur⟩
  · rw [hk.i] at hj
    obtain ⟨hph, hw⟩ := h.before j b hj hb
    have heq := hap hb (Nat.ne_of_lt hj)
    exact ⟨by rw [heq, hph], by rw [hk.cpus, heq]; exact hw⟩
  · rw [hk.i] at hj
    obtain ⟨hph, hentry⟩ := h.behind j b hj hb
    exact ⟨by rw [hap hb (Nat.ne_of_gt hj), hph], by rw [hk.cpus, hentry]⟩
  · rw [hk.other b (hb _)]
    exact h.outside b hb

/-- On to the next entry. -/
theorem Inv.next (h : Inv k machine c s) (hlt : s.boot.i < c.numCpus)
    (hstack : s.boot.currStack = stackTop s.boot.i)
    (hup : ∀ a, IsAp c s.boot.i a → Up k c s.cpus s.boot.i (s.ap a)) :
    Inv k machine c { s with boot := { s.boot with i := s.boot.i + 1, pc := .head } } := by
  refine ⟨h.ids, h.proc, hlt, fun j b hj hb => ?_, fun j b hj hb => ?_, h.outside, ?_⟩
  · rcases Nat.lt_succ_iff_lt_or_eq.mp hj with hj | rfl
    · exact h.before j b hj hb
    · exact hup b hb
  · exact h.behind j b (Nat.lt_of_succ_lt hj) hb
  · exact ⟨hstack, fun a ha => h.behind _ a (Nat.lt_succ_self _) ha⟩

/-- A turn of the boot processor that gets it on. -/
structure Moved (k : Kernel) (machine : Machine) (c : Cpus) (s s' : Sys) : Prop where
  inv : Inv k machine c s'
  rank : ∀ a, (s.ap a).phase.rank ≤ (s'.ap a).phase.rank
  left : bootLeft c s' < bootLeft c s

theorem ofNat_sub_succ (top size i : Nat) :
    BitVec.ofNat 32 top - BitVec.ofNat 32 (size * i) - BitVec.ofNat 32 size =
      BitVec.ofNat 32 top - BitVec.ofNat 32 (size * (i + 1)) := by
  rw [BitVec.sub_sub, ← BitVec.ofNat_add, Nat.mul_succ]

theorem stackTop_succ {i : Nat} (h : i ≠ 0) :
    stackTop (i - 1) - BitVec.ofNat 32 (kb4 * 2) = stackTop i := by
  cases i with
  | zero => exact absurd rfl h
  | succ j => exact ofNat_sub_succ _ _ _

theorem head_turn (hr : Ready machine c) (h : Inv k machine c s) (hpc : s.boot.pc = .head) :
    Moved k machine c s (s.bootStep k) := by
  have hcur := h.current
  rw [Current, hpc] at hcur
  obtain ⟨hstack, hdown⟩ := hcur
  have hbound := h.bound
  rw [Sys.bootStep, hpc, h.ids.numCpus]
  dsimp only
  by_cases hlt : s.boot.i < c.numCpus
  · rw [if_pos hlt, h.ids.bootCpu, hr.bootCpu _ hlt]
    by_cases h0 : s.boot.i = 0
    · -- the boot processor's own entry is passed over
      have hnext := h.next hlt (by rw [hstack, h0]) fun a ha => absurd h0 ha.2.1
      rw [if_pos (decide_eq_true h0)]
      refine ⟨hnext, fun _ => Nat.le_refl _, ?_⟩
      simp only [bootLeft, hpc]
      omega
    · have hap : IsAp c s.boot.i (c.cpus s.boot.i).id := ⟨hlt, h0, rfl⟩
      have hnext : s.boot.currStack - BitVec.ofNat 32 (kb4 * 2) = stackTop s.boot.i := by
        rw [hstack, stackTop_succ h0]
      obtain ⟨hph, hflag⟩ := hdown _ hap
      rw [if_neg (by rw [decide_eq_false h0]; exact Bool.false_ne_true)]
      refine ⟨h.kept hr ⟨rfl, rfl, fun _ _ => rfl, fun _ => rfl⟩ ?_, fun _ => Nat.le_refl _, ?_⟩
      · exact ⟨hnext, _, hap, hph, hflag⟩
      · simp only [bootLeft, hpc, BootPc.left]
        omega
  · rw [if_neg hlt]
    refine ⟨h.kept hr ⟨rfl, rfl, fun _ _ => rfl, fun _ => rfl⟩ ?_, fun _ => Nat.le_refl _, ?_⟩
    · show s.boot.i = c.numCpus
      omega
    · simp only [bootLeft, hpc, BootPc.left]
      omega

/-- The three words of the mailbox, while the processor is still halted. -/
theorem mailbox_turn (hr : Ready machine c) (h : Inv k machine c s)
    (hpc : s.boot.pc = .stack ∨ s.boot.pc = .entry ∨ s.boot.pc = .dir) :
    Moved k machine c s (s.bootStep k) := by
  have hcur := h.current
  rw [Current] at hcur
  rcases hpc with hpc | hpc | hpc
  · rw [hpc] at hcur
    obtain ⟨hstack, a, ha, hph, hflag⟩ := hcur
    rw [Sys.bootStep, hpc]
    refine ⟨h.kept hr ⟨rfl, rfl, fun _ _ => rfl, fun _ => rfl⟩ ?_, fun _ => Nat.le_refl _, ?_⟩
    · exact ⟨hstack, hstack, a, ha, hph, hflag⟩
    · simp only [bootLeft, hpc, BootPc.left]
      omega
  · rw [hpc] at hcur
    obtain ⟨hstack, haddr, a, ha, hph, hflag⟩ := hcur
    rw [Sys.bootStep, hpc]
    refine ⟨h.kept hr ⟨rfl, rfl, fun _ _ => rfl, fun _ => rfl⟩ ?_, fun _ => Nat.le_refl _, ?_⟩
    · exact ⟨hstack, haddr, rfl, a, ha, hph, hflag⟩
    · simp only [bootLeft, hpc, BootPc.left]
      omega
  · rw [hpc] at hcur
    obtain ⟨hstack, haddr, hentry, a, ha, hph, hflag⟩ := hcur
    have hid : (s.cpus.cpus s.boot.i).id = a := by rw [h.ids.id, ha.2.2]
    rw [Sys.bootStep, hpc, hid]
    refine ⟨h.kept hr ⟨rfl, rfl, fun _ _ => rfl, fun _ => rfl⟩ ?_, fun _ => Nat.le_refl _, ?_⟩
    · refine ⟨hstack, ?_, a, ha, ⟨Nat.le_refl _, rfl⟩, fun hlt => absurd hlt (Nat.lt_irrefl _), ?_⟩
      · simp only [Full, haddr, hentry]
      · exact ⟨hph, hflag⟩
    · simp only [bootLeft, hpc, BootPc.left, lapicStartAp, List.length_cons, List.length_nil]
      omega

/-- The first of the writes that are left, and what it is. -/
theorem writes_cons {a : BitVec 8} {w : Icr} {rest : List Icr} (hlen : rest.length + 1 ≤ 7)
    (h : w :: rest = (lapicStartAp a codeAddr).drop (7 - (rest.length + 1))) :
    rest = (lapicStartAp a codeAddr).drop (7 - rest.length) ∧
      (lapicStartAp a codeAddr)[7 - (rest.length + 1)]? = some w := by
  refine ⟨?_, ?_⟩
  · have htail := congrArg List.tail h
    rw [List.tail_drop, List.tail_cons] at htail
    exact htail.trans (congrArg (fun n => (lapicStartAp a codeAddr).drop n) (by omega))
  · rw [← List.head?_drop, ← h, List.head?_cons]

/-- A write that interrupts nobody. -/
theorem icr_quiet (hr : Ready machine c) (h : Inv k machine c s) {w : Icr} {rest : List Icr}
    (hpc : s.boot.pc = .icr (w :: rest)) {hi : Word}
    (heq : s.writeIcr rest w = { s with boot := { s.boot with pc := .icr rest, icrHi := hi } })
    (hcur : Current k c (s.writeIcr rest w)) : Moved k machine c s (s.bootStep k) := by
  rw [Sys.bootStep, hpc]
  dsimp only
  rw [heq] at hcur ⊢
  refine ⟨h.kept hr ⟨rfl, rfl, fun _ _ => rfl, fun _ => rfl⟩ hcur, fun _ => Nat.le_refl _, ?_⟩
  simp only [bootLeft, hpc, BootPc.left, List.length_cons]
  omega

/-- A write that interrupts the processor that is being started. -/
theorem icr_interrupt (hr : Ready machine c) (h : Inv k machine c s) {w : Icr} {rest : List Icr}
    (hpc : s.boot.pc = .icr (w :: rest)) {a : BitVec 8} (ha : IsAp c s.boot.i a) {p : Ap}
    (heq : s.writeIcr rest w =
      { s with boot := { s.boot with pc := .icr rest }, ap := Function.update s.ap a p })
    (hproc : p.proc = (s.ap a).proc) (hrank : (s.ap a).phase.rank ≤ p.phase.rank)
    (hcur : Current k c (s.writeIcr rest w)) : Moved k machine c s (s.bootStep k) := by
  rw [Sys.bootStep, hpc]
  dsimp only
  rw [heq] at hcur ⊢
  refine ⟨h.kept hr ⟨rfl, rfl, fun b hb => ?_, fun b => ?_⟩ hcur, fun b => ?_, ?_⟩
  · exact Function.update_of_ne (fun hba : b = a => hb (by rw [hba]; exact ha)) _ _
  · by_cases hba : b = a
    · subst hba
      simpa only [Function.update_self] using hproc
    · simp only [Function.update_of_ne hba]
  · by_cases hba : b = a
    · subst hba
      simpa only [Function.update_self] using hrank
    · simp only [Function.update_of_ne hba, Nat.le_refl]
  · simp only [bootLeft, hpc, BootPc.left, List.length_cons]
    omega

theorem called_same {c' : Cpus} {i : Nat} {p : Ap} {n : Nat} (h5 : n ≠ 5) (h2 : n ≠ 2) :
    Called k c c' i p (n + 1) ↔ Called k c c' i p n := by
  rw [Called, Called]
  by_cases h6 : 6 ≤ n
  · rw [if_pos (Nat.le_succ_of_le h6), if_pos h6]
  · rw [if_neg (by omega), if_neg h6]
    by_cases h3 : 3 ≤ n
    · rw [if_pos (Nat.le_succ_of_le h3), if_pos h3]
    · rw [if_neg (by omega), if_neg h3]

theorem writeIcr_none {v : Word} (hv : command v = none) (rest : List Icr) :
    s.writeIcr rest (.lo v) = { s with boot := { s.boot with pc := .icr rest } } := by
  simp only [Sys.writeIcr, hv]

theorem writeIcr_some {v : Word} {ipi : Ipi} (hv : command v = some ipi) {a : BitVec 8}
    (hhi : s.boot.icrHi = a.setWidth 32 <<< 24) (rest : List Icr) :
    s.writeIcr rest (.lo v) =
      { s with boot := { s.boot with pc := .icr rest }
               ap := Function.update s.ap a ((s.ap a).receive ipi) } := by
  have hdest : (s.boot.icrHi >>> 24).setWidth 8 = a := by rw [hhi, icrHi_dest]
  simp only [Sys.writeIcr, hv, hdest]

/-- The second startup interrupt finds nobody waiting. -/
theorem receive_working {c' : Cpus} {i : Nat} {p : Ap} (h : Working k c c' i p) (page : BitVec 8) :
    p.receive (.startup page) = p := by
  have hph : p.phase ≠ .waiting := fun hph => by rw [Working, hph] at h; exact h
  rw [Ap.receive, if_neg hph]

/-- The writes of `lapic_start_ap`. -/
theorem icr_turn (hr : Ready machine c) (h : Inv k machine c s) {writes : List Icr}
    (hpc : s.boot.pc = .icr writes) : Moved k machine c s (s.bootStep k) := by
  have hcur := h.current
  rw [Current, hpc] at hcur
  obtain ⟨hstack, hfull, a, ha, ⟨hlen, hwrites⟩, hhi, hcalled⟩ := hcur
  cases writes with
  | nil =>
    rw [Sys.bootStep, hpc]
    refine ⟨h.kept hr ⟨rfl, rfl, fun _ _ => rfl, fun _ => rfl⟩ ?_, fun _ => Nat.le_refl _, ?_⟩
    · exact ⟨hstack, hfull, a, ha, hcalled⟩
    · simp only [bootLeft, hpc, BootPc.left, List.length_nil]
      omega
  | cons w rest =>
    rw [List.length_cons] at hlen hwrites hhi hcalled
    obtain ⟨hrest, hw⟩ := writes_cons hlen hwrites
    -- what has to be shown after each of the writes
    have hnow : ∀ s' : Sys, s'.boot = { s.boot with pc := .icr rest, icrHi := a.setWidth 32 <<< 24 } →
        s'.mailbox = s.mailbox → Called k c s'.cpus s.boot.i (s'.ap a) rest.length →
          Current k c s' := by
      intro s' hb hm hc
      rw [Current, hb]
      exact ⟨hstack, by rw [Full, hb, hm]; exact hfull, a, ha, ⟨by omega, hrest⟩, fun _ => rfl, hc⟩
    have hsame : rest.length < 6 → { s.boot with pc := .icr rest } =
        { s.boot with pc := .icr rest, icrHi := a.setWidth 32 <<< 24 } := fun hlt => by
      rw [← hhi (by omega)]
    rcases (by omega : (rest.length = 6 ∨ rest.length = 3 ∨ rest.length = 1) ∨ rest.length = 5 ∨
      rest.length = 4 ∨ rest.length = 2 ∨ rest.length = 0) with hn | hn | hn | hn | hn
    · -- the destination
      have hwhi : w = .hi (a.setWidth 32 <<< 24) := by
        rcases hn with hn | hn | hn <;> rw [hn] at hw <;> exact (Option.some.inj hw).symm
      subst hwhi
      refine icr_quiet hr h hpc rfl (hnow _ rfl rfl ?_)
      exact (called_same (by omega) (by omega)).mp hcalled
    · -- INIT
      rw [hn] at hw
      obtain rfl := Option.some.inj hw
      have heq := writeIcr_some command_init (hhi (by omega)) rest
      rw [Called, if_pos (by omega)] at hcalled
      refine icr_interrupt hr h hpc ha heq rfl ?_ ?_
      · rw [hcalled.phase]
        exact Nat.zero_le _
      · rw [heq]
        refine hnow _ (hsame (by omega)) rfl ?_
        rw [Called, if_neg (by omega), if_pos (by omega)]
        simp only [Function.update_self]
        exact ⟨rfl, hcalled.entry⟩
    · -- INIT without the level assert
      rw [hn] at hw
      obtain rfl := Option.some.inj hw
      have heq := writeIcr_none (s := s) command_deassert rest
      refine icr_quiet hr h hpc heq ?_
      rw [heq]
      exact hnow _ (hsame (by omega)) rfl ((called_same (by omega) (by omega)).mp hcalled)
    · -- the startup interrupt
      rw [hn] at hw
      obtain rfl := Option.some.inj hw
      have heq := writeIcr_some command_startup (hhi (by omega)) rest
      rw [Called, if_neg (by omega), if_pos (by omega)] at hcalled
      refine icr_interrupt hr h hpc ha heq ?_ ?_ ?_
      · rw [Ap.receive, if_pos hcalled.phase]
      · rw [Ap.receive, if_pos hcalled.phase, hcalled.phase]
        exact Nat.le_succ _
      · rw [heq]
        refine hnow _ (hsame (by omega)) rfl ?_
        rw [Called, if_neg (by omega), if_neg (by omega)]
        simp only [Function.update_self, Ap.receive, hcalled.phase, if_true]
        exact ⟨startup_page, hcalled.entry⟩
    · -- and the second one
      rw [hn] at hw
      obtain rfl := Option.some.inj hw
      have heq := writeIcr_some command_startup (hhi (by omega)) rest
      rw [Called, if_neg (by omega), if_neg (by omega)] at hcalled
      rw [receive_working hcalled, Function.update_eq_self] at heq
      refine icr_quiet hr h hpc heq ?_
      rw [heq]
      refine hnow _ (hsame (by omega)) rfl ?_
      rw [Called, if_neg (by omega), if_neg (by omega)]
      exact hcalled

/-- Only the last turn sets the flag. -/
theorem Working.started_iff {c' : Cpus} {i : Nat} {p : Ap} (h : Working k c c' i p)
    (h0 : (c.cpus i).started = 0) : (c'.cpus i).started = 1 ↔ p.phase = .running := by
  rw [Working] at h
  cases hph : p.phase with
  | halted => rw [hph] at h; exact absurd h id
  | waiting => rw [hph] at h; exact absurd h id
  | started ip =>
    simp only [hph] at h
    simp [h.2, h0]
  | paging =>
    simp only [hph] at h
    simp [h.2, h0]
  | stacked =>
    simp only [hph] at h
    simp [h.2.2, h0]
  | called =>
    simp only [hph] at h
    simp [h.2.2.2, h0]
  | installed =>
    simp only [hph] at h
    simp [h.2.2.2.1, h0]
  | running =>
    simp only [hph] at h
    simp [h.2.2.2]

/-- `while(cpus[i].started != 1)` waits, or has seen the flag. -/
theorem wait_turn (hr : Ready machine c) (h : Inv k machine c s) (hpc : s.boot.pc = .wait) :
    (s.bootStep k = s ∧ ∃ a, IsAp c s.boot.i a ∧ (s.ap a).phase ≠ .running) ∨
      Moved k machine c s (s.bootStep k) := by
  have hcur := h.current
  rw [Current, hpc] at hcur
  obtain ⟨hstack, hfull, a, ha, hw⟩ := hcur
  have hlt := ha.1
  have hiff := hw.started_iff (hr.started _ ha.1 ha.2.1)
  rw [Sys.bootStep, hpc]
  dsimp only
  by_cases hflag : (s.cpus.cpus s.boot.i).started = 1
  · rw [if_neg (not_not.mpr hflag)]
    refine .inr ⟨h.next hlt hstack fun b hb => ?_, fun _ => Nat.le_refl _, ?_⟩
    · rw [← hb.2.2, ha.2.2]
      exact ⟨hiff.mp hflag, hw⟩
    · simp only [bootLeft, hpc, BootPc.left]
      omega
  · rw [if_pos hflag]
    exact .inl ⟨rfl, a, ha, fun hph => hflag (hiff.mpr hph)⟩

/-- A turn of the boot processor waits, is over, or gets it on. -/
theorem Inv.boot_turn (hr : Ready machine c) (h : Inv k machine c s) :
    (s.bootStep k = s ∧ (s.boot.pc = .main ∨
      ∃ a, IsAp c s.boot.i a ∧ s.boot.pc = .wait ∧ (s.ap a).phase ≠ .running)) ∨
      Moved k machine c s (s.bootStep k) := by
  cases hpc : s.boot.pc with
  | head => exact .inr (head_turn hr h hpc)
  | stack => exact .inr (mailbox_turn hr h (.inl hpc))
  | entry => exact .inr (mailbox_turn hr h (.inr (.inl hpc)))
  | dir => exact .inr (mailbox_turn hr h (.inr (.inr hpc)))
  | icr writes => exact .inr (icr_turn hr h hpc)
  | wait =>
    rcases wait_turn hr h hpc with ⟨hsame, a, ha, hrun⟩ | hmoved
    · exact .inl ⟨hsame, .inr ⟨a, ha, rfl, hrun⟩⟩
    · exact .inr hmoved
  | main =>
    refine .inl ⟨?_, .inl rfl⟩
    rw [Sys.bootStep, hpc]

end Boot

end Start
end Smp
end Frod
