import Mathlib.Algebra.GroupWithZero.Nat
import Mathlib.Data.List.Nodup
import Frod.Smp.Model

/-!
# Frod.Smp.Own

Whether each processor finds its own `cpu_info`. The array is filled in the order of the MADT and
indexed by APIC ids, so `findsOwn_iff`: every processor finds its own exactly when the ids count up
from 0 in the order of the table. Without an address of the local APIC every processor takes entry 0.
-/

namespace Frod
namespace Smp

open Bytes

/-- A record of the MADT; `apicId` only matters for a processor. -/
structure Record where
  type : Nat
  length : Nat
  apicId : BitVec 8

/-- Memory holds the records `rs` one after the other from `a` on. -/
def HoldsRecords (m : Mem) : Nat → List Record → Prop
  | _, [] => True
  | a, r :: rs => rd m a 1 = r.type ∧ rd m (a + 1) 1 = r.length ∧ 0 < r.length ∧
      (r.type = madtTypeLapic → BitVec.ofNat 8 (rd m (a + 3) 1) = r.apicId) ∧
      HoldsRecords m (a + r.length) rs

/-- The MADT at `a`, below the end of memory: its records fill it. -/
structure HoldsMadt (m : Mem) (a : Nat) (rs : List Record) : Prop where
  nonNull : a ≠ 0
  length : rd m (a + 4) 4 = madtSz + (rs.map Record.length).sum
  bound : a + rd m (a + 4) 4 < 2 ^ 32
  records : HoldsRecords m (a + madtSz) rs

/-- The ids of the processors, in the order of the table. -/
def lapicIds : List Record → List (BitVec 8)
  | [] => []
  | r :: rs => if r.type = madtTypeLapic then r.apicId :: lapicIds rs else lapicIds rs

/-- What the loop adds for the processors `ids`. -/
structure Adds (f f' : Found) (ids : List (BitVec 8)) : Prop where
  ret : f'.ret = f.ret + ids.length
  localApic : f'.state.localApic = f.state.localApic
  other : ∀ i, i < f.ret ∨ f.ret + ids.length ≤ i → f'.state.cpus i = f.state.cpus i
  id : ∀ (k : Nat) (a : BitVec 8), ids[k]? = some a → (f'.state.cpus (f.ret + k)).id = a
  bootCpu : ∀ (k : Nat) (a : BitVec 8), ids[k]? = some a →
    (f'.state.cpus (f.ret + k)).bootCpu = decide (f.ret + k = 0)

theorem Adds.trans {f g h : Found} {xs ys : List (BitVec 8)} (h1 : Adds f g xs) (h2 : Adds g h ys) :
    Adds f h (xs ++ ys) := by
  have hret := h1.ret
  -- an index belongs to the first part, and is not touched again, or to the second
  have hcase : ∀ (k : Nat) (a : BitVec 8), (xs ++ ys)[k]? = some a →
      (xs[k]? = some a ∧ h.state.cpus (f.ret + k) = g.state.cpus (f.ret + k)) ∨
        ∃ j, ys[j]? = some a ∧ f.ret + k = g.ret + j := by
    intro k a hk
    by_cases hlt : k < xs.length
    · rw [List.getElem?_append_left hlt] at hk
      exact .inl ⟨hk, h2.other _ (.inl (by omega))⟩
    · rw [List.getElem?_append_right (by omega)] at hk
      exact .inr ⟨k - xs.length, hk, by omega⟩
  refine ⟨?_, h2.localApic.trans h1.localApic, ?_, ?_, ?_⟩
  · rw [h2.ret, hret, List.length_append, Nat.add_assoc]
  · intro i hi
    rw [List.length_append] at hi
    rw [h2.other i (by omega), h1.other i (by omega)]
  · intro k a hk
    rcases hcase k a hk with ⟨hx, heq⟩ | ⟨j, hy, heq⟩
    · rw [heq, h1.id k a hx]
    · rw [heq, h2.id j a hy]
  · intro k a hk
    rcases hcase k a hk with ⟨hx, heq⟩ | ⟨j, hy, heq⟩
    · rw [heq, h1.bootCpu k a hx]
    · rw [heq, h2.bootCpu j a hy]

theorem apicRecord_lapic {m : Mem} {tmp : Nat} (h : rd m tmp 1 = madtTypeLapic) (f : Found) :
    Adds f (apicRecord m tmp f) [BitVec.ofNat 8 (rd m (tmp + 3) 1)] := by
  have hzero : ∀ (k : Nat) (a b : BitVec 8), [b][k]? = some a → k = 0 ∧ b = a := by
    intro k a b hk
    cases k with
    | zero => exact ⟨rfl, Option.some.inj hk⟩
    | succ k => cases hk
  rw [apicRecord, if_pos h]
  refine ⟨rfl, rfl, ?_, ?_, ?_⟩
  · intro i hi
    rw [List.length_singleton] at hi
    exact Function.update_of_ne (by omega) _ _
  · intro k a hk
    obtain ⟨rfl, rfl⟩ := hzero k a _ hk
    simp only [Nat.add_zero, Function.update_self]
  · intro k a hk
    obtain ⟨rfl, rfl⟩ := hzero k a _ hk
    simp only [Nat.add_zero, Function.update_self]

theorem apicRecord_other {m : Mem} {tmp : Nat} (h : rd m tmp 1 ≠ madtTypeLapic) (f : Found) :
    Adds f (apicRecord m tmp f) [] := by
  rw [apicRecord, if_neg h]
  split
  · exact ⟨rfl, rfl, fun _ _ => rfl, by simp, by simp⟩
  · exact ⟨rfl, rfl, fun _ _ => rfl, by simp, by simp⟩

theorem apicLoop_adds {m : Mem} {stop : Nat} : ∀ {rs : List Record} {a fuel : Nat} {f : Found},
    HoldsRecords m a rs → a + (rs.map Record.length).sum = stop → stop < 2 ^ 32 →
      rs.length < fuel → ∃ f', apicLoop m stop fuel a f = .ok f' ∧ Adds f f' (lapicIds rs) := by
  intro rs
  induction rs with
  | nil =>
    intro a fuel f _ hend _ hfuel
    obtain ⟨n, rfl⟩ := Nat.exists_eq_succ_of_ne_zero (Nat.ne_of_gt hfuel)
    rw [List.map_nil, List.sum_nil] at hend
    refine ⟨f, ?_, ⟨rfl, rfl, fun _ _ => rfl, by simp [lapicIds], by simp [lapicIds]⟩⟩
    rw [apicLoop, if_neg (by omega)]
  | cons r rs ih =>
    intro a fuel f hold hend hlt hfuel
    obtain ⟨n, rfl⟩ := Nat.exists_eq_succ_of_ne_zero (Nat.ne_of_gt (Nat.zero_lt_of_lt hfuel))
    rw [List.map_cons, List.sum_cons] at hend
    rw [List.length_cons] at hfuel
    obtain ⟨htype, hlen, hpos, hid, hrest⟩ := hold
    obtain ⟨f', hok, hadds⟩ := @ih (a + r.length) n (apicRecord m a f) hrest (by omega) hlt (by omega)
    refine ⟨f', ?_, ?_⟩
    · rw [apicLoop, if_pos (by omega), hlen, Nat.mod_eq_of_lt (by omega)]
      exact hok
    · rw [lapicIds]
      by_cases hl : r.type = madtTypeLapic
      · rw [if_pos hl, ← hid hl]
        exact (apicRecord_lapic (htype.trans hl) f).trans hadds
      · rw [if_neg hl]
        exact (apicRecord_other (fun h => hl (htype.symm.trans h)) f).trans hadds

/-- The globals after `apic_find_cpus`, for a table with the processors `ids`. -/
structure Filled (s₀ s : Cpus) (addr : Nat) (ids : List (BitVec 8)) : Prop where
  numCpus : s.numCpus = ids.length
  localApic : s.localApic = addr
  other : ∀ i, ids.length ≤ i → s.cpus i = s₀.cpus i
  id : ∀ (k : Nat) (a : BitVec 8), ids[k]? = some a → (s.cpus k).id = a
  bootCpu : ∀ (k : Nat) (a : BitVec 8), ids[k]? = some a → (s.cpus k).bootCpu = decide (k = 0)

theorem apicFindCpus_filled {mem : Mem} {rsdt m fuel : Nat} {rs : List Record} (s₀ : Cpus)
    (hfind : findSdtEntry fuel mem rsdt apicSignature = .ok m) (hmadt : HoldsMadt mem m rs)
    (hfuel : rs.length < fuel) :
    ∃ n s, apicFindCpus fuel mem rsdt s₀ = .ok (n, s) ∧
      Filled s₀ s (rd mem (m + sdthSz) 4) (lapicIds rs) := by
  have hbound := hmadt.bound
  have hlen := hmadt.length
  obtain ⟨f, hloop, hadds⟩ := @apicLoop_adds mem (m + rd mem (m + 4) 4) rs (m + madtSz) fuel
    ⟨{ s₀ with localApic := rd mem (m + sdthSz) 4 }, 0, 0⟩ hmadt.records (by omega) hbound hfuel
  refine ⟨if f.flags &&& 3 ≠ 3 then 0 else f.ret, { f.state with numCpus := f.ret }, ?_, ?_⟩
  · rw [apicFindCpus, hfind]
    dsimp only
    rw [if_neg hmadt.nonNull, Nat.mod_eq_of_lt hbound, Nat.mod_eq_of_lt (by omega), hloop]
  · refine ⟨?_, hadds.localApic, ?_, ?_, ?_⟩
    · exact hadds.ret.trans (Nat.zero_add _)
    · intro i hi
      exact hadds.other i (.inr (by rwa [Nat.zero_add]))
    · intro k a hk
      have := hadds.id k a hk
      rwa [Nat.zero_add] at this
    · intro k a hk
      have := hadds.bootCpu k a hk
      rwa [Nat.zero_add] at this

/-! ## Who finds what -/

/-- The entry whose flag processor `p` sets: its variable `cpu` after `gdt_install`. -/
def flagSet (s : Cpus) (p : Processor) : Nat :=
  currentCpu (gdtInstall s p).2 (gdtInstall s p).1

/-- The processors with ids `ids` find entries of their own, inside the array, and set the flags
that `cpu_start_aps` waits for. -/
structure FindsOwn (machine : Machine) (s : Cpus) (ids : List (BitVec 8)) : Prop where
  inside : ∀ a ∈ ids, lapicCpuid s (machine.proc a) < maxCpus
  own : ∀ a ∈ ids, (s.cpus (lapicCpuid s (machine.proc a))).id = a
  different : ∀ a ∈ ids, ∀ b ∈ ids, a ≠ b →
    lapicCpuid s (machine.proc a) ≠ lapicCpuid s (machine.proc b)
  flag : ∀ i, i < s.numCpus → (s.cpus i).bootCpu = false →
    flagSet s (machine.proc (s.cpus i).id) = i

theorem flagSet_eq (s : Cpus) (p : Processor) : flagSet s p = lapicCpuid s p := by
  rw [flagSet, currentCpu, gdtInstall]
  dsimp only
  rw [Function.update_self]

theorem lapicCpuid_eq (machine : Machine) (s : Cpus) (a : BitVec 8) :
    lapicCpuid s (machine.proc a) = if s.localApic ≠ 0 then a.toNat else 0 := by
  have hid : ((machine.proc a).lapicId >>> 24).toNat = a.toNat := by
    rw [Processor.lapicId, machine.id_proc, BitVec.toNat_ushiftRight, BitVec.toNat_append,
      Nat.shiftRight_or_distrib]
    have hlow : (machine.proc a).low.toNat >>> 24 = 0 := by
      rw [Nat.shiftRight_eq_div_pow]
      exact Nat.div_eq_of_lt (machine.proc a).low.isLt
    rw [hlow, Nat.or_zero, Nat.shiftLeft_shiftRight]
  rw [lapicCpuid, hid]

section Filled

variable {s₀ s : Cpus} {addr : Nat} {ids : List (BitVec 8)} {machine : Machine}

/-- With a local APIC, the entry of id `a` holds `a` only if `a` stands there in the table. -/
theorem Filled.getElem_of_own (h : Filled s₀ s addr ids) (h0 : ∀ i, i < maxCpus → (s₀.cpus i).id = 0)
    (hne : ids ≠ []) {a : BitVec 8} (hmax : a.toNat < maxCpus) (hown : (s.cpus a.toNat).id = a) :
    ids[a.toNat]? = some a := by
  by_cases hlt : a.toNat < ids.length
  · rw [List.getElem?_eq_getElem hlt]
    rw [h.id _ _ (List.getElem?_eq_getElem hlt)] at hown
    rw [hown]
  · -- an entry that was not filled holds id 0, and entry 0 was filled
    rw [h.other _ (by omega), h0 _ hmax] at hown
    have hpos := List.length_pos_iff.mpr hne
    rw [← hown] at hlt
    exact absurd hpos hlt

theorem Filled.findsOwn_of_ordered (h : Filled s₀ s addr ids) (haddr : addr ≠ 0)
    (hmax : ids.length ≤ maxCpus) (hord : ∀ (i : Nat) (a : BitVec 8), ids[i]? = some a → a.toNat = i) :
    FindsOwn machine s ids := by
  have hsel : ∀ a, lapicCpuid s (machine.proc a) = a.toNat := by
    intro a
    rw [lapicCpuid_eq, h.localApic, if_pos haddr]
  have hget : ∀ a ∈ ids, ids[a.toNat]? = some a := by
    intro a ha
    obtain ⟨i, hi⟩ := List.getElem?_of_mem ha
    rw [hord i a hi]
    exact hi
  refine ⟨?_, ?_, ?_, ?_⟩
  · intro a ha
    rw [hsel]
    have := (List.getElem?_eq_some_iff.mp (hget a ha)).1
    omega
  · intro a ha
    rw [hsel]
    exact h.id _ _ (hget a ha)
  · intro a _ b _ hab
    rw [hsel, hsel]
    exact fun heq => hab (BitVec.eq_of_toNat_eq heq)
  · intro i hi _
    rw [h.numCpus] at hi
    have hget := List.getElem?_eq_getElem hi
    rw [flagSet_eq, hsel, h.id i _ hget]
    exact hord i _ hget

/-- Without an address of the local APIC every processor takes entry 0. -/
theorem Filled.findsOwn_of_single (h : Filled s₀ s 0 ids) (hone : ids.length = 1) :
    FindsOwn machine s ids := by
  obtain ⟨b, rfl⟩ := List.length_eq_one_iff.mp hone
  have hsel : ∀ a, lapicCpuid s (machine.proc a) = 0 := by
    intro a
    rw [lapicCpuid_eq, h.localApic, if_neg (by simp)]
  refine ⟨?_, ?_, ?_, ?_⟩
  · intro a _
    rw [hsel]
    decide
  · intro a ha
    rw [hsel, List.mem_singleton.mp ha]
    exact h.id 0 b rfl
  · intro a ha c hc hac
    rw [List.mem_singleton.mp ha, List.mem_singleton.mp hc] at hac
    exact absurd rfl hac
  · intro i hi hboot
    rw [h.numCpus, List.length_singleton] at hi
    obtain rfl : i = 0 := by omega
    rw [h.bootCpu 0 b rfl] at hboot
    cases hboot

/-- With a local APIC, the ids stand in the table at their own places. -/
theorem FindsOwn.ordered (hown : FindsOwn machine s ids) (h : Filled s₀ s addr ids) (haddr : addr ≠ 0)
    (h0 : ∀ i, i < maxCpus → (s₀.cpus i).id = 0) (hnodup : ids.Nodup) {i : Nat} {a : BitVec 8}
    (hi : ids[i]? = some a) : a.toNat = i := by
  have ha : a ∈ ids := List.mem_of_getElem? hi
  have hsel : lapicCpuid s (machine.proc a) = a.toNat := by
    rw [lapicCpuid_eq, h.localApic, if_pos haddr]
  have hmax := hown.inside a ha
  have hid := hown.own a ha
  rw [hsel] at hmax hid
  have hget := h.getElem_of_own h0 (List.ne_nil_of_mem ha) hmax hid
  obtain ⟨hlt, hva⟩ := List.getElem?_eq_some_iff.mp hget
  obtain ⟨hlt', hvi⟩ := List.getElem?_eq_some_iff.mp hi
  exact (hnodup.getElem_inj_iff).mp (hva.trans hvi.symm)

theorem FindsOwn.single (hown : FindsOwn machine s ids) (h : Filled s₀ s 0 ids) (hne : ids ≠ [])
    (hnodup : ids.Nodup) : ids.length = 1 := by
  have hsel : ∀ a, lapicCpuid s (machine.proc a) = 0 := by
    intro a
    rw [lapicCpuid_eq, h.localApic, if_neg (by simp)]
  have hpos := List.length_pos_iff.mpr hne
  by_contra hlen
  have hlt : 1 < ids.length := by omega
  have hdiff : ids[0] ≠ ids[1] := fun heq => by
    have := (hnodup.getElem_inj_iff).mp heq
    omega
  exact hown.different _ (List.getElem_mem hpos) _ (List.getElem_mem hlt) hdiff
    ((hsel _).trans (hsel _).symm)

end Filled

/-- Every processor finds its own entry exactly when the ids count up from 0 in the order of the
table, or there is no local APIC and one processor. -/
theorem findsOwn_iff {mem : Mem} {rsdt m fuel : Nat} {rs : List Record} {s₀ : Cpus}
    (machine : Machine) (h0 : ∀ i, i < maxCpus → (s₀.cpus i).id = 0)
    (hfind : findSdtEntry fuel mem rsdt apicSignature = .ok m) (hmadt : HoldsMadt mem m rs)
    (hfuel : rs.length < fuel) (hne : lapicIds rs ≠ []) (hmax : (lapicIds rs).length ≤ maxCpus)
    (hnodup : (lapicIds rs).Nodup) :
    ∃ n s, apicFindCpus fuel mem rsdt s₀ = .ok (n, s) ∧
      (FindsOwn machine s (lapicIds rs) ↔
        (rd mem (m + sdthSz) 4 ≠ 0 ∧
          ∀ (i : Nat) (a : BitVec 8), (lapicIds rs)[i]? = some a → a.toNat = i) ∨
        (rd mem (m + sdthSz) 4 = 0 ∧ (lapicIds rs).length = 1)) := by
  obtain ⟨n, s, hok, hfilled⟩ := apicFindCpus_filled s₀ hfind hmadt hfuel
  refine ⟨n, s, hok, ?_⟩
  generalize rd mem (m + sdthSz) 4 = addr at hfilled ⊢
  by_cases haddr : addr = 0
  · subst haddr
    constructor
    · intro hown
      exact .inr ⟨rfl, hown.single hfilled hne hnodup⟩
    · rintro (⟨hbad, _⟩ | ⟨_, hone⟩)
      · exact absurd rfl hbad
      · exact hfilled.findsOwn_of_single hone
  · constructor
    · intro hown
      exact .inl ⟨haddr, fun i a hi => hown.ordered hfilled haddr h0 hnodup hi⟩
    · rintro (⟨_, hord⟩ | ⟨hbad, _⟩)
      · exact hfilled.findsOwn_of_ordered haddr hmax hord
      · exact absurd hbad haddr

/-! ## Starting the others -/

/-- A started processor sets one flag, and changes no id. -/
theorem cpuApEnter_cpus (s : Cpus) (p : Processor) (i : Nat) :
    ((cpuApEnter s p).cpus i).id = (s.cpus i).id ∧
      ((cpuApEnter s p).cpus i).bootCpu = (s.cpus i).bootCpu ∧
      (lapicCpuid s p = i → ((cpuApEnter s p).cpus i).started = 1) := by
  have hcurrent : currentCpu (gdtInstall s p).2 (gdtInstall s p).1 = lapicCpuid s p := flagSet_eq s p
  have hgdt : ((gdtInstall s p).2.cpus i).id = (s.cpus i).id ∧
      ((gdtInstall s p).2.cpus i).bootCpu = (s.cpus i).bootCpu := by
    simp only [gdtInstall, Function.update_apply]
    split
    · rename_i h
      rw [h]
      exact ⟨rfl, rfl⟩
    · exact ⟨rfl, rfl⟩
  simp only [cpuApEnter, cpuCommonMain, hcurrent, Function.update_apply]
  split
  · rename_i h
    rw [← h]
    exact ⟨hgdt.1, hgdt.2, fun _ => rfl⟩
  · rename_i h
    exact ⟨hgdt.1, hgdt.2, fun heq => absurd heq.symm h⟩

/-- If every processor sets the flag of its own entry, `cpu_start_aps` does not wait forever. -/
theorem startLoop_returns {machine : Machine} : ∀ {n i : Nat} {s : Cpus},
    (∀ j, i ≤ j → j < i + n → (s.cpus j).bootCpu = false →
      lapicCpuid s (machine.proc (s.cpus j).id) = j) → ∃ s', startLoop machine n i s = .ok s' := by
  intro n
  induction n with
  | zero => intro i s _; exact ⟨s, rfl⟩
  | succ n ih =>
    intro i s hflag
    rw [startLoop]
    by_cases hboot : (s.cpus i).bootCpu = true
    · rw [if_pos hboot]
      exact ih fun j h1 h2 => hflag j (by omega) (by omega)
    · rw [if_neg hboot]
      have hi := hflag i (Nat.le_refl i) (by omega) (Bool.eq_false_iff.mpr hboot)
      have hstarted := (cpuApEnter_cpus s (machine.proc (s.cpus i).id) i).2.2 hi
      dsimp only
      rw [if_neg (not_not.mpr hstarted)]
      refine ih fun j h1 h2 hj => ?_
      obtain ⟨hid, hbj, _⟩ := cpuApEnter_cpus s (machine.proc (s.cpus i).id) j
      rw [hid]
      exact hflag j (by omega) (by omega) (hbj.symm.trans hj)

theorem FindsOwn.cpuStartAps_returns {machine : Machine} {s : Cpus} {ids : List (BitVec 8)}
    (h : FindsOwn machine s ids) : ∃ s', cpuStartAps machine s = .ok s' := by
  refine startLoop_returns fun j _ hj hboot => ?_
  rw [← flagSet_eq]
  exact h.flag j (by omega) hboot

/-! ## Two processors -/

/-- An RSDT at 0x1000 with a MADT at 0x2000 that lists processors 0 and `b`. -/
def sampleTables (b : BitVec 8) : Mem := fun x =>
  if x = 0x1004 then 40 else if x = 0x1025 then 0x20
  else if x = 0x2000 then 0x41 else if x = 0x2001 then 0x50 else if x = 0x2002 then 0x49
  else if x = 0x2003 then 0x43 else if x = 0x2004 then 60
  else if x = 0x2026 then 0xE0 else if x = 0x2027 then 0xFE
  else if x = 0x202D then 8 else if x = 0x2035 then 8 else if x = 0x2037 then b else 0

def sampleRecords (b : BitVec 8) : List Record := [⟨0, 8, 0⟩, ⟨0, 8, b⟩]

def sampleMachine : Machine := ⟨fun a => ⟨a, 0, 0⟩, fun _ => rfl⟩

def zeroCpus : Cpus := ⟨fun _ => ⟨0, 0, 0, false, false, 0⟩, 0, 0, (0, 0)⟩

theorem sample_madt (b : BitVec 8) : HoldsMadt (sampleTables b) 0x2000 (sampleRecords b) := by
  have hlen : rd (sampleTables b) (0x2000 + 4) 4 = 60 := rfl
  refine ⟨by decide, hlen, ?_, rfl, rfl, Nat.succ_pos _, fun _ => rfl, rfl, rfl, Nat.succ_pos _, ?_,
    trivial⟩
  · rw [hlen]
    decide
  · intro _
    change BitVec.ofNat 8 (b.toNat + 256 * 0) = b
    simp

theorem sample_find (b : BitVec 8) :
    findSdtEntry 3 (sampleTables b) 0x1000 apicSignature = .ok 0x2000 := by
  have hlen : rd (sampleTables b) 0x1004 4 = 40 := rfl
  have hptr : rd (sampleTables b) 0x1024 4 = 0x2000 := by simp [rd, sampleTables]
  have hsig : rd (sampleTables b) 0x2000 4 = apicSignature := by
    simp [rd, sampleTables, apicSignature]
  simp [findSdtEntry, findSdtLoop, sdthSz, hlen, hptr, hsig]

theorem findsOwn_iff_two : ∃ n s, apicFindCpus 3 (sampleTables 1) 0x1000 zeroCpus = .ok (n, s) ∧
    FindsOwn sampleMachine s [0, 1] := by
  have h0 : ∀ i, i < maxCpus → (zeroCpus.cpus i).id = 0 := fun _ _ => rfl
  obtain ⟨n, s, hok, hiff⟩ := findsOwn_iff sampleMachine h0 (sample_find 1) (sample_madt 1)
    (by decide) (by decide) (by decide) (by decide)
  have haddr : rd (sampleTables 1) (0x2000 + sdthSz) 4 = 0xFEE00000 := by
    simp [rd, sampleTables, sdthSz]
  refine ⟨n, s, hok, hiff.mpr (.inl ⟨?_, ?_⟩)⟩
  · rw [haddr]
    decide
  · intro i a hi
    rcases i with _ | _ | i
    · cases hi
      rfl
    · cases hi
      rfl
    · cases hi

/-- Processors 0 and 2: the second one selects an entry that was not filled. -/
theorem not_findsOwn_gap : ∃ n s, apicFindCpus 3 (sampleTables 2) 0x1000 zeroCpus = .ok (n, s) ∧
    ¬ FindsOwn sampleMachine s [0, 2] := by
  have h0 : ∀ i, i < maxCpus → (zeroCpus.cpus i).id = 0 := fun _ _ => rfl
  obtain ⟨n, s, hok, hfilled⟩ := apicFindCpus_filled zeroCpus (sample_find 2) (sample_madt 2)
    (by decide)
  have haddr : rd (sampleTables 2) (0x2000 + sdthSz) 4 = 0xFEE00000 := by
    simp [rd, sampleTables, sdthSz]
  rw [haddr] at hfilled
  refine ⟨n, s, hok, fun hown => ?_⟩
  have := hown.ordered (i := 1) (a := 2) hfilled (by decide) h0 (by decide) rfl
  exact absurd this (by decide)

end Smp
end Frod
