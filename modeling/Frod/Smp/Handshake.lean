import Mathlib.Algebra.Order.BigOperators.Group.Finset
import Mathlib.Data.BitVec
import Frod.Smp.Turns

/-!
# Frod.Smp.Handshake

The start of the processors is safe in any order of turns, comes to an end under a fair one, and
leaves the table that `cpu_start_aps` computes when every processor it starts runs at once.
-/

namespace Frod
namespace Smp
namespace Start

open Interleave Bytes

variable {k : Kernel} {machine : Machine} {c : Cpus} {s : Sys}

/-! ## All turns -/

theorem Inv.turn (hr : Ready machine c) (p : Option (BitVec 8)) (h : Inv k machine c s) :
    Inv k machine c (step k p s) := by
  cases p with
  | none =>
    rcases h.boot_turn hr with ⟨hsame, _⟩ | hmoved
    · rw [step, hsame]
      exact h
    · exact hmoved.inv
  | some a =>
    rcases h.ap_turn hr a with hsame | ⟨hinv, _⟩
    · rw [step, hsame]
      exact h
    · exact hinv

/-- The phases that are left, of everybody. -/
def phasesLeft (s : Sys) : Nat := ∑ n : Fin (2 ^ 8), (7 - (s.ap (.ofFin n)).phase.rank)

/-- What is left of the start. -/
def allLeft (c : Cpus) (s : Sys) : Nat := bootLeft c s + phasesLeft s

theorem Phase.rank_le (ph : Phase) : ph.rank ≤ 7 := by
  cases ph <;> simp only [rank] <;> omega

theorem Moved.allLeft_lt {s' : Sys} (h : Moved k machine c s s') : allLeft c s' < allLeft c s := by
  have hsum : phasesLeft s' ≤ phasesLeft s :=
    Finset.sum_le_sum fun n _ => Nat.sub_le_sub_left (h.rank (.ofFin n)) 7
  have hlt := h.left
  simp only [allLeft]
  omega

theorem Turned.allLeft_lt {s' : Sys} {i : Nat} {a : BitVec 8} (h : Turned k machine c s s' i a) :
    allLeft c s' < allLeft c s := by
  have hle := (s'.ap a).phase.rank_le
  have hrank := h.rank
  have hsum : phasesLeft s' < phasesLeft s := by
    refine Finset.sum_lt_sum (fun n _ => ?_) ⟨a.toFin, Finset.mem_univ _, ?_⟩
    · by_cases hb : BitVec.ofFin n = a
      · rw [hb]
        omega
      · rw [h.other _ hb]
    · show 7 - (s'.ap a).phase.rank < 7 - (s.ap a).phase.rank
      omega
  have hboot : bootLeft c s' = bootLeft c s := by rw [bootLeft, bootLeft, h.boot]
  simp only [allLeft]
  omega

theorem Inv.lower (hr : Ready machine c) (p : Option (BitVec 8)) (h : Inv k machine c s) :
    step k p s = s ∨ allLeft c (step k p s) < allLeft c s := by
  cases p with
  | none =>
    rcases h.boot_turn hr with ⟨hsame, _⟩ | hmoved
    · exact .inl hsame
    · exact .inr hmoved.allLeft_lt
  | some a =>
    rcases h.ap_turn hr a with hsame | ⟨_, hturn⟩
    · exact .inl hsame
    · exact .inr hturn.allLeft_lt

/-- As long as the boot processor is not at its main, it or the processor it waits for gets on. -/
theorem Inv.progress (hr : Ready machine c) (h : Inv k machine c s) (hmain : s.boot.pc ≠ .main) :
    ∃ p, allLeft c (step k p s) < allLeft c s := by
  rcases h.boot_turn hr with ⟨_, hpc | ⟨a, ha, hpc, hrun⟩⟩ | hmoved
  · exact absurd hpc hmain
  · have hcur := h.current
    rw [Current, hpc] at hcur
    obtain ⟨_, hfull, b, hb, hw⟩ := hcur
    obtain rfl : b = a := hb.2.2.symm.trans ha.2.2
    have hown := hr.own _ ha.1 ha.2.1
    rw [ha.2.2] at hown
    exact ⟨some b, (apStep_turned h.ids (h.proc b) ha hown hfull hw hrun).allLeft_lt⟩
  · exact ⟨none, hmoved.allLeft_lt⟩

/-! ## Safety -/

/-- From `stacked` on a processor has its stack. -/
def HasStack (p : Ap) : Prop := 4 ≤ p.phase.rank

/-- Between its reset and its flag. -/
def OnTheWay (p : Ap) : Prop := p.phase ≠ .halted ∧ p.phase ≠ .running

/-- What holds at all times, for the processors of the table `c`. -/
structure Safe (k : Kernel) (c : Cpus) (s : Sys) : Prop where
  /-- Only the processors of the table are started. -/
  listed : ∀ a, (s.ap a).phase ≠ .halted → ∃ i, IsAp c i a
  /-- One at a time is in the code at 0x7000. -/
  one : ∀ a b, OnTheWay (s.ap a) → OnTheWay (s.ap b) → a = b
  /-- A processor that calls has loaded what was meant for it. -/
  loaded : ∀ i a, IsAp c i a → 5 ≤ (s.ap a).phase.rank →
    (s.ap a).cr3 = k.kernelDir ∧ (s.ap a).esp = stackTop i ∧ (s.ap a).eax = k.cpuApEnter
  /-- A stack lies above the page of the local APIC, below that of the boot processor. -/
  stack : ∀ a, HasStack (s.ap a) →
    lapicPhysVirtAddr + kb4 + kernelStackSz ≤ (s.ap a).esp.toNat ∧
      (s.ap a).esp.toNat + kernelStackSz ≤ kernelStackTop
  /-- No two processors share a stack. -/
  apart : ∀ a b, a ≠ b → HasStack (s.ap a) → HasStack (s.ap b) →
    (s.ap a).esp.toNat + kernelStackSz ≤ (s.ap b).esp.toNat ∨
      (s.ap b).esp.toNat + kernelStackSz ≤ (s.ap a).esp.toNat
  /-- A flag is set by its own processor. -/
  flag : ∀ i a, IsAp c i a → ((s.cpus.cpus i).started = 1 ↔ (s.ap a).phase = .running)

theorem toNat_ofNat_sub {top n : Nat} (hn : n ≤ top) (htop : top < 2 ^ 32) :
    (BitVec.ofNat 32 top - BitVec.ofNat 32 n).toNat = top - n := by
  simp only [BitVec.toNat_sub, BitVec.toNat_ofNat]
  omega

theorem stackTop_toNat {i : Nat} (h : i < maxCpus) :
    (stackTop i).toNat = kernelStackTop - kernelStackSz * i := by
  have hle : kernelStackSz * i ≤ kernelStackTop :=
    Nat.le_trans (Nat.mul_le_mul_left _ (Nat.le_of_lt h)) (by decide)
  exact toNat_ofNat_sub hle (by decide)

theorem Working.esp {c' : Cpus} {i : Nat} {p : Ap} (h : Working k c c' i p) (hrank : 4 ≤ p.phase.rank) :
    p.esp = stackTop i := by
  rw [Working] at h
  cases hph : p.phase with
  | halted => rw [hph] at h; exact absurd h id
  | waiting => rw [hph] at h; exact absurd h id
  | started ip => rw [hph] at hrank; exact absurd hrank (show ¬ 4 ≤ 2 by decide)
  | paging => rw [hph] at hrank; exact absurd hrank (by decide)
  | stacked => rw [hph] at h; exact h.2.1
  | called => rw [hph] at h; exact h.2.1
  | installed => rw [hph] at h; exact h.2.1
  | running => rw [hph] at h; exact h.2.1

theorem Working.loaded {c' : Cpus} {i : Nat} {p : Ap} (h : Working k c c' i p)
    (hrank : 5 ≤ p.phase.rank) : p.cr3 = k.kernelDir ∧ p.eax = k.cpuApEnter := by
  rw [Working] at h
  cases hph : p.phase with
  | halted => rw [hph] at h; exact absurd h id
  | waiting => rw [hph] at h; exact absurd h id
  | started ip => rw [hph] at hrank; exact absurd hrank (show ¬ 5 ≤ 2 by decide)
  | paging => rw [hph] at hrank; exact absurd hrank (by decide)
  | stacked => rw [hph] at hrank; exact absurd hrank (by decide)
  | called => rw [hph] at h; exact ⟨h.1, h.2.2.1⟩
  | installed => rw [hph] at h; exact ⟨h.1, h.2.2.1⟩
  | running => rw [hph] at h; exact ⟨h.1, h.2.2.1⟩

section Where

variable {i : Nat} {a : BitVec 8}

/-- A processor of the table has not been started, or is at work; and it is halted, up or the one at
whose entry the boot processor is. -/
theorem Inv.where_is (h : Inv k machine c s) (ha : IsAp c i a) :
    (Down c s.cpus i (s.ap a) .halted ∨ Down c s.cpus i (s.ap a) .waiting ∨
      Working k c s.cpus i (s.ap a)) ∧
      (i = s.boot.i ∨ (s.ap a).phase = .halted ∨ (s.ap a).phase = .running) := by
  rcases Nat.lt_trichotomy i s.boot.i with hlt | rfl | hgt
  · obtain ⟨hph, hw⟩ := h.before i a hlt ha
    exact ⟨.inr (.inr hw), .inr (.inr hph)⟩
  · refine ⟨?_, .inl rfl⟩
    rcases h.current.cases machine ha with hdown | hdown | ⟨_, hw, _⟩
    · exact .inl hdown
    · exact .inr (.inl hdown)
    · exact .inr (.inr hw)
  · have hdown := h.behind i a hgt ha
    exact ⟨.inl hdown, .inr (.inl hdown.phase)⟩

theorem Inv.working (h : Inv k machine c s) (ha : IsAp c i a) (hrank : 2 ≤ (s.ap a).phase.rank) :
    Working k c s.cpus i (s.ap a) := by
  rcases (h.where_is ha).1 with hdown | hdown | hw
  · rw [hdown.phase] at hrank
    exact absurd hrank (by decide)
  · rw [hdown.phase] at hrank
    exact absurd hrank (by decide)
  · exact hw

theorem Inv.listed (h : Inv k machine c s) (ha : (s.ap a).phase ≠ .halted) : ∃ i, IsAp c i a := by
  refine Classical.byContradiction fun hno => ha (h.outside a fun i hi => hno ⟨i, hi⟩)

theorem Inv.stack (hr : Ready machine c) (h : Inv k machine c s) (ha : HasStack (s.ap a)) :
    ∃ i, IsAp c i a ∧ (s.ap a).esp.toNat = kernelStackTop - kernelStackSz * i ∧ i < maxCpus := by
  have hrank : 2 ≤ (s.ap a).phase.rank := Nat.le_trans (by decide) ha
  obtain ⟨i, hi⟩ := h.listed (a := a) fun hph => by
    rw [hph] at hrank
    exact absurd hrank (by decide)
  have hmax : i < maxCpus := Nat.lt_of_lt_of_le hi.1 hr.numCpus
  refine ⟨i, hi, ?_, hmax⟩
  rw [(h.working hi hrank).esp ha, stackTop_toNat hmax]

end Where

theorem Inv.safe (hr : Ready machine c) (h : Inv k machine c s) : Safe k c s := by
  refine ⟨fun a => h.listed, fun a b hwa hwb => ?_, fun i a ha hrank => ?_, fun a hs => ?_,
    fun a b hab hsa hsb => ?_, fun i a ha => ?_⟩
  · obtain ⟨i, ha⟩ := h.listed hwa.1
    obtain ⟨j, hb⟩ := h.listed hwb.1
    have hi : i = s.boot.i := (h.where_is ha).2.resolve_right (not_or.mpr hwa)
    have hj : j = s.boot.i := (h.where_is hb).2.resolve_right (not_or.mpr hwb)
    rw [← ha.2.2, ← hb.2.2, hi, hj]
  · have hw := h.working ha (Nat.le_trans (by decide) hrank)
    obtain ⟨hcr3, heax⟩ := hw.loaded hrank
    exact ⟨hcr3, hw.esp (Nat.le_of_succ_le hrank), heax⟩
  · obtain ⟨i, ha, hesp, hmax⟩ := h.stack hr hs
    have hi := ha.2.1
    rw [hesp]
    simp only [lapicPhysVirtAddr, kernelStackTop, kernelStackSz, maxCpus, mb4, kb4] at hmax ⊢
    omega
  · obtain ⟨i, ha, hespa, hmaxa⟩ := h.stack hr hsa
    obtain ⟨j, hb, hespb, hmaxb⟩ := h.stack hr hsb
    have hij : i ≠ j := by
      rintro rfl
      exact hab (ha.2.2.symm.trans hb.2.2)
    rw [hespa, hespb]
    simp only [kernelStackTop, kernelStackSz, maxCpus, mb4, kb4] at hmaxa hmaxb ⊢
    omega
  · have h0 := hr.started i ha.1 ha.2.1
    rcases (h.where_is ha).1 with hdown | hdown | hw
    · rw [hdown.phase, hdown.entry, h0]
      decide
    · rw [hdown.phase, hdown.entry, h0]
      decide
    · exact hw.started_iff h0

/-! ## The end -/

/-- The table `c` when the processors below entry `n` have been started. -/
def tableAt (c : Cpus) (n : Nat) : Cpus where
  cpus i := if i ≠ 0 ∧ i < n then { c.cpus i with cpu := i, started := 1 } else c.cpus i
  numCpus := c.numCpus
  localApic := c.localApic
  ioApic := c.ioApic

/-- The boot processor is at its main, and everybody has set a flag. -/
structure Ended (c : Cpus) (s : Sys) : Prop where
  main : s.boot.pc = .main
  running : ∀ i a, IsAp c i a → (s.ap a).phase = .running
  table : s.cpus = tableAt c c.numCpus

theorem cpus_ext {c' : Cpus} (hcpus : c'.cpus = c.cpus) (hnum : c'.numCpus = c.numCpus)
    (hlocal : c'.localApic = c.localApic) (hio : c'.ioApic = c.ioApic) : c' = c := by
  cases c
  cases c'
  subst hcpus hnum hlocal hio
  rfl

theorem Inv.ended (h : Inv k machine c s) (hmain : s.boot.pc = .main) : Ended c s := by
  have hi := h.current
  rw [Current, hmain] at hi
  dsimp only at hi
  have hup : ∀ {i a}, IsAp c i a → Up k c s.cpus i (s.ap a) := fun {i a} ha =>
    h.before i a (by rw [hi]; exact ha.1) ha
  refine ⟨hmain, fun i a ha => (hup ha).phase, ?_⟩
  have hentries : s.cpus.cpus = (tableAt c c.numCpus).cpus := by
    funext i
    simp only [tableAt]
    by_cases hap : i ≠ 0 ∧ i < c.numCpus
    · obtain ⟨hph, hw⟩ := hup (a := (c.cpus i).id) ⟨hap.2, hap.1, rfl⟩
      rw [Working, hph] at hw
      rw [if_pos hap]
      exact hw.2.2.2
    · rw [if_neg hap]
      exact h.ids.other i (by omega)
  exact cpus_ext hentries h.ids.numCpus h.ids.localApic h.ids.ioApic

/-- At its main the boot processor stays. -/
theorem main_turn (hmain : s.boot.pc = .main) (p : Option (BitVec 8)) :
    (step k p s).boot.pc = .main := by
  cases p with
  | none =>
    rw [step, Sys.bootStep, hmain]
    exact hmain
  | some a =>
    have hboot : (s.apStep k a).boot = s.boot := by
      simp only [Sys.apStep]
      split <;> try rfl
      · split <;> rfl
      · split <;> rfl
    rw [step, hboot, hmain]

theorem ends (hr : Ready machine c) {sched : Nat → Option (BitVec 8)} (hfair : Fair sched) :
    ∃ n, ∀ m, n ≤ m → Ended c (upTo (step k) (start machine c) sched m) := by
  have hstart : Inv k machine c (start machine c) := inv_start
  have hinv : ∀ m, Inv k machine c (upTo (step k) (start machine c) sched m) :=
    invariant_upTo (fun p s h => h.turn hr p) hstart
  obtain ⟨n, hn⟩ := fair_reaches (fun p s h => h.turn hr p) (fun p s h => h.lower hr p)
    (fun s h hmain => h.progress hr hmain) hstart hfair
  refine ⟨n, fun m hm => (hinv m).ended ?_⟩
  obtain ⟨d, rfl⟩ := Nat.exists_eq_add_of_le hm
  clear hm
  induction d with
  | zero => exact hn
  | succ d ih => exact main_turn ih _

/-! ## One after the other -/

theorem tableAt_zero : tableAt c 0 = c := by
  refine cpus_ext ?_ rfl rfl rfl
  funext i
  exact if_neg fun h => Nat.not_lt_zero i h.2

theorem tableAt_self (i : Nat) : (tableAt c i).cpus i = c.cpus i :=
  if_neg fun h => Nat.lt_irrefl i h.2

theorem tableAt_boot : tableAt c (0 + 1) = tableAt c 0 := by
  refine cpus_ext ?_ rfl rfl rfl
  funext i
  simp only [tableAt]
  rw [if_neg (by omega), if_neg (by omega)]

/-- A processor that runs at once fills its own entry. -/
theorem cpuApEnter_tableAt (hr : Ready machine c) {i : Nat} (hlt : i < c.numCpus) (h0 : i ≠ 0) :
    cpuApEnter (tableAt c i) (machine.proc (c.cpus i).id) = tableAt c (i + 1) := by
  have hown : lapicCpuid (tableAt c i) (machine.proc (c.cpus i).id) = i := hr.own i hlt h0
  simp only [cpuApEnter, gdtInstall, cpuCommonMain, currentCpu, hown, Function.update_self,
    Function.update_idem]
  refine cpus_ext ?_ rfl rfl rfl
  funext j
  by_cases hj : j = i
  · subst hj
    simp only [Function.update_self, tableAt_self]
    simp only [tableAt]
    rw [if_pos ⟨h0, Nat.lt_succ_self j⟩]
  · simp only [Function.update_of_ne hj, tableAt]
    by_cases hlt' : j ≠ 0 ∧ j < i
    · rw [if_pos hlt', if_pos ⟨hlt'.1, Nat.lt_succ_of_lt hlt'.2⟩]
    · rw [if_neg hlt', if_neg (by omega)]

theorem startLoop_tableAt (hr : Ready machine c) : ∀ {n i : Nat}, i + n ≤ c.numCpus →
    startLoop machine n i (tableAt c i) = .ok (tableAt c (i + n)) := by
  intro n
  induction n with
  | zero => intro i _; rfl
  | succ n ih =>
    intro i hle
    have hlt : i < c.numCpus := by omega
    have hnext := ih (i := i + 1) (by omega)
    rw [Nat.add_right_comm] at hnext
    rw [startLoop, tableAt_self, hr.bootCpu i hlt]
    by_cases h0 : i = 0
    · rw [if_pos (decide_eq_true h0)]
      subst h0
      rw [← tableAt_boot]
      exact hnext
    · rw [if_neg (by rw [decide_eq_false h0]; exact Bool.false_ne_true)]
      dsimp only
      rw [cpuApEnter_tableAt hr hlt h0]
      have hflag : ((tableAt c (i + 1)).cpus i).started = 1 := by
        simp only [tableAt]
        rw [if_pos ⟨h0, Nat.lt_succ_self i⟩]
      rw [if_neg (not_not.mpr hflag)]
      exact hnext

theorem cpuStartAps_eq (hr : Ready machine c) : cpuStartAps machine c = .ok (tableAt c c.numCpus) := by
  have hloop := startLoop_tableAt hr (n := c.numCpus) (i := 0) (by omega)
  rw [tableAt_zero, Nat.zero_add] at hloop
  exact hloop

/-! ## From the tables -/

/-- Only the first entry that `apic_find_cpus` fills is started. -/
theorem apicRecord_started {m : Mem} {tmp : Nat} {f : Found}
    (h : ∀ i, i ≠ 0 → i < f.ret → (f.state.cpus i).started = 0) :
    ∀ i, i ≠ 0 → i < (apicRecord m tmp f).ret → ((apicRecord m tmp f).state.cpus i).started = 0 := by
  intro i h0 hi
  rw [apicRecord] at hi ⊢
  split at hi
  · rename_i hl
    rw [if_pos hl]
    by_cases heq : i = f.ret
    · subst heq
      simp only [Function.update_self, if_neg h0]
    · simp only [Function.update_of_ne heq]
      exact h i h0 (Nat.lt_of_le_of_ne (Nat.le_of_lt_succ hi) heq)
  · rename_i hl
    rw [if_neg hl]
    split at hi
    · rename_i hio
      rw [if_pos hio]
      exact h i h0 hi
    · rename_i hio
      rw [if_neg hio]
      exact h i h0 hi

theorem apicLoop_started {m : Mem} {stop : Nat} : ∀ {fuel tmp : Nat} {f f' : Found},
    apicLoop m stop fuel tmp f = .ok f' →
    (∀ i, i ≠ 0 → i < f.ret → (f.state.cpus i).started = 0) →
      ∀ i, i ≠ 0 → i < f'.ret → (f'.state.cpus i).started = 0 := by
  intro fuel
  induction fuel with
  | zero => intro tmp f f' hloop; cases hloop
  | succ fuel ih =>
    intro tmp f f' hloop h
    rw [apicLoop] at hloop
    split at hloop
    · exact ih hloop (apicRecord_started h)
    · obtain rfl := Except.ok.inj hloop
      exact h

theorem apicFindCpus_started {mem : Mem} {rsdt m fuel n : Nat} {s₀ c : Cpus}
    (hfind : findSdtEntry fuel mem rsdt apicSignature = .ok m) (hm : m ≠ 0)
    (h : apicFindCpus fuel mem rsdt s₀ = .ok (n, c)) :
    ∀ i, i ≠ 0 → i < c.numCpus → (c.cpus i).started = 0 := by
  rw [apicFindCpus, hfind] at h
  dsimp only at h
  rw [if_neg hm] at h
  split at h
  · cases h
  · rename_i f hloop
    obtain ⟨-, rfl⟩ := Prod.mk.inj (Except.ok.inj h)
    exact apicLoop_started hloop fun i _ hi => absurd hi (Nat.not_lt_zero i)

/-- The processors `ids` of a table, in their order. -/
def Lists (c : Cpus) (ids : List (BitVec 8)) : Prop :=
  ∀ (i : Nat) (a : BitVec 8), i ≠ 0 → (IsAp c i a ↔ ids[i]? = some a)

/-- The table that is made of a MADT whose ids count up from 0. -/
theorem ready_of_madt {mem : Mem} {rsdt m fuel : Nat} {rs : List Record} (s₀ : Cpus)
    (machine : Machine) (hfind : findSdtEntry fuel mem rsdt apicSignature = .ok m)
    (hmadt : HoldsMadt mem m rs) (hfuel : rs.length < fuel) (haddr : rd mem (m + sdthSz) 4 ≠ 0)
    (hmax : (lapicIds rs).length ≤ maxCpus)
    (hord : ∀ (i : Nat) (a : BitVec 8), (lapicIds rs)[i]? = some a → a.toNat = i) :
    ∃ n c, apicFindCpus fuel mem rsdt s₀ = .ok (n, c) ∧ Ready machine c ∧ Lists c (lapicIds rs) := by
  obtain ⟨n, c, hok, hfilled⟩ := apicFindCpus_filled s₀ hfind hmadt hfuel
  have hget : ∀ {i}, i < c.numCpus → ∃ a, (lapicIds rs)[i]? = some a := fun {i} hi =>
    ⟨_, List.getElem?_eq_getElem (by rw [← hfilled.numCpus]; exact hi)⟩
  refine ⟨n, c, hok, ⟨?_, fun i hi => ?_, fun i hi h0 => ?_, fun i hi _ => ?_⟩, fun i a h0 => ?_⟩
  · rw [hfilled.numCpus]
    exact hmax
  · obtain ⟨a, ha⟩ := hget hi
    exact hfilled.bootCpu i a ha
  · exact apicFindCpus_started hfind hmadt.nonNull hok i h0 hi
  · obtain ⟨a, ha⟩ := hget hi
    rw [lapicCpuid_eq, hfilled.localApic, if_pos haddr, hfilled.id i a ha, hord i a ha]
  · constructor
    · rintro ⟨hi, -, rfl⟩
      obtain ⟨a, ha⟩ := hget hi
      rw [hfilled.id i a ha, ha]
    · intro ha
      obtain ⟨hi, -⟩ := List.getElem?_eq_some_iff.mp ha
      exact ⟨by rw [hfilled.numCpus]; exact hi, h0, hfilled.id i a ha⟩

theorem sample_addr (b : BitVec 8) : rd (sampleTables b) (0x2000 + sdthSz) 4 ≠ 0 := by
  have haddr : rd (sampleTables b) (0x2000 + sdthSz) 4 = 0xFEE00000 := by
    simp [rd, sampleTables, sdthSz]
  rw [haddr]
  decide

theorem sample_ordered (i : Nat) (a : BitVec 8)
    (h : (lapicIds (sampleRecords 1))[i]? = some a) : a.toNat = i := by
  rcases i with _ | _ | i
  · cases h
    rfl
  · cases h
    rfl
  · cases h

section Tables

variable {mem : Mem} {rsdt m fuel : Nat} {rs : List Record}

/-- For tables whose processor ids count up from 0, whatever the order of turns: the processors of
the table are started one at a time, each with a stack of its own. -/
theorem start_safe (s₀ : Cpus) (machine : Machine)
    (hfind : findSdtEntry fuel mem rsdt apicSignature = .ok m)
    (hmadt : HoldsMadt mem m rs) (hfuel : rs.length < fuel) (haddr : rd mem (m + sdthSz) 4 ≠ 0)
    (hmax : (lapicIds rs).length ≤ maxCpus)
    (hord : ∀ (i : Nat) (a : BitVec 8), (lapicIds rs)[i]? = some a → a.toNat = i) :
    ∃ n c, apicFindCpus fuel mem rsdt s₀ = .ok (n, c) ∧ Lists c (lapicIds rs) ∧
      ∀ (k : Kernel) (turns : List (Option (BitVec 8))),
        Safe k c (run (step k) (start machine c) turns) := by
  obtain ⟨n, c, hok, hr, hlists⟩ := ready_of_madt s₀ machine hfind hmadt hfuel haddr hmax hord
  refine ⟨n, c, hok, hlists, fun k turns => Inv.safe hr ?_⟩
  exact invariant (fun p s h => h.turn hr p) inv_start

theorem start_safe_two : ∃ n c, apicFindCpus 3 (sampleTables 1) 0x1000 zeroCpus = .ok (n, c) ∧
    Lists c [0, 1] ∧ ∀ (k : Kernel) (turns : List (Option (BitVec 8))),
      Safe k c (run (step k) (start sampleMachine c) turns) :=
  start_safe zeroCpus sampleMachine (sample_find 1) (sample_madt 1) (by decide) (sample_addr 1)
    (by decide) sample_ordered

/-- Under a fair order of turns the start ends, for good, with every processor running and the table
that `cpu_start_aps` leaves when each processor runs at once. -/
theorem start_ends (s₀ : Cpus) (machine : Machine)
    (hfind : findSdtEntry fuel mem rsdt apicSignature = .ok m)
    (hmadt : HoldsMadt mem m rs) (hfuel : rs.length < fuel) (haddr : rd mem (m + sdthSz) 4 ≠ 0)
    (hmax : (lapicIds rs).length ≤ maxCpus)
    (hord : ∀ (i : Nat) (a : BitVec 8), (lapicIds rs)[i]? = some a → a.toNat = i) :
    ∃ n c, apicFindCpus fuel mem rsdt s₀ = .ok (n, c) ∧ Lists c (lapicIds rs) ∧
      ∀ (k : Kernel) (sched : Nat → Option (BitVec 8)), Fair sched →
        ∃ t, ∀ t', t ≤ t' →
          let s := upTo (step k) (start machine c) sched t'
          s.boot.pc = .main ∧ (∀ i a, IsAp c i a → (s.ap a).phase = .running) ∧
            cpuStartAps machine c = .ok s.cpus := by
  obtain ⟨n, c, hok, hr, hlists⟩ := ready_of_madt s₀ machine hfind hmadt hfuel haddr hmax hord
  refine ⟨n, c, hok, hlists, fun k sched hfair => ?_⟩
  obtain ⟨t, ht⟩ := ends (k := k) hr hfair
  refine ⟨t, fun t' hle => ⟨(ht t' hle).main, (ht t' hle).running, ?_⟩⟩
  rw [cpuStartAps_eq hr, (ht t' hle).table]

/-- Every other turn is the boot processor's. -/
def roundRobin (n : Nat) : Option (BitVec 8) :=
  if n % 2 = 0 then none else some (BitVec.ofNat 8 (n / 2))

theorem roundRobin_fair : Fair roundRobin := by
  intro p n
  cases p with
  | none =>
    refine ⟨2 * n, by omega, ?_⟩
    rw [roundRobin, if_pos (by omega)]
  | some a =>
    have hlt := a.isLt
    refine ⟨2 * (256 * n + a.toNat) + 1, by omega, ?_⟩
    rw [roundRobin, if_neg (by omega)]
    congr 1
    apply BitVec.eq_of_toNat_eq
    rw [BitVec.toNat_ofNat]
    omega

theorem start_ends_two : ∃ n c, apicFindCpus 3 (sampleTables 1) 0x1000 zeroCpus = .ok (n, c) ∧
    ∃ t, ∀ t', t ≤ t' →
      let s := upTo (step ⟨0x10000000, 0x5000⟩) (start sampleMachine c) roundRobin t'
      s.boot.pc = .main ∧ (s.ap 1).phase = .running ∧
        cpuStartAps sampleMachine c = .ok s.cpus := by
  obtain ⟨n, c, hok, hlists, hends⟩ := start_ends zeroCpus sampleMachine (sample_find 1)
    (sample_madt 1) (by decide) (sample_addr 1) (by decide) sample_ordered
  obtain ⟨t, ht⟩ := hends ⟨0x10000000, 0x5000⟩ roundRobin roundRobin_fair
  have hap : IsAp c 1 1 := (hlists 1 1 (by decide)).mpr rfl
  exact ⟨n, c, hok, t, fun t' hle => ⟨(ht t' hle).1, (ht t' hle).2.1 1 1 hap, (ht t' hle).2.2⟩⟩

end Tables

end Start
end Smp
end Frod
