import Mathlib.Data.List.Nodup
import Frod.Proc.Run

/-!
# Frod.Proc.Pages

The kernel pages of a process: its stack, and the window through which its page directory is
written. The two addresses are computed in different places from the same pid, and are the same:
`windowPage_eq`. So a process that gets an address space has its kernel stack overwritten, and
`separate_iff` says that the pages of a run are separate exactly when nothing but `process_init`
created processes.
-/

namespace Frod
namespace Proc

open Sched

/-- The ways to create a process, with their inputs. -/
inductive Creation where
  | init (o : Outside) (pageDir : Word)
  | fork (retStack ebp ret : Word) (o : Outside) (space : Space)
  | startUsermode (o : Outside) (space : Space)

def Creation.isInit : Creation → Prop
  | .init _ _ => True
  | _ => False

/-- What a creation used: the pages, and the two words of the return frame on the new stack. -/
structure Used where
  pid : Nat
  pages : List Nat
  ret2 : Word
  retStack : Word

def create (link : Link) (s : Sched) : Creation → Except Stop (Used × Sched)
  | .init o pageDir =>
    match s.processInit link o pageDir with
    | .error e => .error e
    | .ok (_, s) => .ok (⟨s.lastPid, [stackPage s.lastPid], 0, 0⟩, s)
  | .fork retStack ebp ret o space =>
    match s.realFork link retStack ebp ret o space with
    | .error e => .error e
    | .ok (_, s) => .ok (⟨s.lastPid, [stackPage s.lastPid, windowPage s.lastPid], ret, retStack⟩, s)
  | .startUsermode o space =>
    match s.processStartUsermode link o space with
    | .error e => .error e
    | .ok s => .ok (⟨s.lastPid, [stackPage s.lastPid, windowPage s.lastPid], 0, 0⟩, s)

/-- The return frame at the top of the stack is as `alloc_proc` wrote it. -/
def FrameIntact (m : KMem) (u : Used) : Prop :=
  m (stackPage u.pid + kstackSz - 4) = u.ret2 ∧ m (stackPage u.pid + kstackSz - 8) = u.retStack

/-- All pages are different, and no creation overwrote a return frame. -/
def Separate (us : List Used) (s : Sched) : Prop :=
  (us.flatMap Used.pages).Nodup ∧ ∀ u ∈ us, FrameIntact s.mem u

theorem windowPage_eq (pid : Nat) : windowPage pid = stackPage pid := rfl

section Step

variable {s s' : Sched} {link : Link} {u : Used} {o : Outside} {pageDir : Word}

/-- `process_init` writes the return frame and the context, and only to the new stack. -/
theorem create_init (hlt : s.lastPid < procMaxPid)
    (h : create link s (.init o pageDir) = .ok (u, s')) :
    u = ⟨s.lastPid + 1, [stackPage (s.lastPid + 1)], 0, 0⟩ ∧ s'.lastPid = s.lastPid + 1 ∧
      s.lastPid + 1 < procMaxPid ∧ FrameIntact s'.mem u ∧
      ∀ x, x < stackPage (s.lastPid + 1) → s'.mem x = s.mem x := by
  have hpid : (s.lastPid + 1) % 2 ^ 32 = s.lastPid + 1 := by
    unfold procMaxPid at hlt
    omega
  unfold create processInit allocProc at h
  dsimp only at h
  rw [hpid] at h
  split at h
  · cases h
  · rename_i n t ht
    obtain ⟨rfl, rfl⟩ := Prod.mk.inj (Except.ok.inj h)
    by_cases h1 : s.lastPid + 1 ≥ procMaxPid
    · rw [if_pos h1] at ht
      cases ht
    · by_cases h2 : o.phys = 0
      · rw [if_neg h1, if_pos h2] at ht
        cases ht
      · by_cases h3 : o.mapErr = true
        · rw [if_neg h1, if_neg h2, if_pos h3] at ht
          cases ht
        · rw [if_neg h1, if_neg h2, if_neg h3] at ht
          obtain ⟨_, rfl⟩ := Prod.mk.inj (Except.ok.inj ht)
          refine ⟨rfl, rfl, Nat.lt_of_not_le h1, ⟨?_, ?_⟩, fun x hx => ?_⟩
          · simp only [changeTss]
            rw [setRegs_other (by unfold regsSz kstackSz kb4; omega),
              setRegs_other (by unfold regsSz kstackSz kb4; omega),
              Function.update_of_ne (by unfold kstackSz kb4; omega), Function.update_self]
          · simp only [changeTss]
            rw [setRegs_other (by unfold regsSz kstackSz kb4; omega),
              setRegs_other (by unfold regsSz kstackSz kb4; omega), Function.update_self]
          · simp only [changeTss]
            rw [setRegs_other (by unfold regsSz kstackSz kb4; omega),
              setRegs_other (by unfold regsSz kstackSz kb4; omega),
              Function.update_of_ne (by unfold kstackSz kb4; omega),
              Function.update_of_ne (by unfold kstackSz kb4; omega)]

/-- A process with an address space of its own uses one page for two things. -/
theorem create_not_nodup {c : Creation} (hc : ¬ c.isInit) (h : create link s c = .ok (u, s')) :
    ¬ u.pages.Nodup := by
  have hpair : ∀ pid, ¬ [stackPage pid, windowPage pid].Nodup := fun pid hn => by
    rw [windowPage_eq] at hn
    simp at hn
  cases c with
  | init o pageDir => exact absurd trivial hc
  | fork retStack ebp ret o space =>
    simp only [create] at h
    split at h
    · cases h
    · obtain ⟨rfl, _⟩ := Prod.mk.inj (Except.ok.inj h)
      exact hpair _
  | startUsermode o space =>
    simp only [create] at h
    split at h
    · cases h
    · obtain ⟨rfl, _⟩ := Prod.mk.inj (Except.ok.inj h)
      exact hpair _

end Step

/-! ## Whole runs -/

/-- Some creation of the run used a page twice. -/
theorem run_not_nodup {link : Link} : ∀ {cs : List Creation} {s s' : Sched} {us : List Used},
    Machine.runAll (create link) s cs = .ok (us, s') → (∃ c ∈ cs, ¬ c.isInit) →
      ∃ u ∈ us, ¬ u.pages.Nodup := by
  intro cs
  induction cs with
  | nil => rintro s s' us _ ⟨c, hc, _⟩; cases hc
  | cons c cs ih =>
    rintro s s' us hrun ⟨d, hd, hninit⟩
    obtain ⟨u, s₁, us', rfl, hs₁, hs₂⟩ := Machine.runAll_cons hrun
    rcases List.mem_cons.mp hd with rfl | hd
    · exact ⟨u, by simp, create_not_nodup hninit hs₁⟩
    · obtain ⟨u', hu', hn⟩ := ih hs₂ ⟨d, hd, hninit⟩
      exact ⟨u', by simp [hu'], hn⟩

/-- A run of `process_init` alone: the pids count up, frames stay as they were written and memory
below the first new stack is not touched. -/
theorem run_init {link : Link} : ∀ {cs : List Creation} {s s' : Sched} {us : List Used},
    (∀ c ∈ cs, c.isInit) → s.lastPid < procMaxPid → Machine.runAll (create link) s cs = .ok (us, s') →
      (∀ u ∈ us, s.lastPid < u.pid ∧ u.pages = [stackPage u.pid] ∧ FrameIntact s'.mem u) ∧
      (us.flatMap Used.pages).Nodup ∧ ∀ x, x < stackPage (s.lastPid + 1) → s'.mem x = s.mem x := by
  intro cs
  induction cs with
  | nil =>
    intro s s' us _ _ hrun
    obtain ⟨rfl, rfl⟩ := Prod.mk.inj (Except.ok.inj hrun)
    refine ⟨?_, List.nodup_nil, fun _ _ => rfl⟩
    intro u hu
    cases hu
  | cons c cs ih =>
    intro s s' us hinit hlt hrun
    obtain ⟨u, s₁, us', rfl, hs₁, hs₂⟩ := Machine.runAll_cons hrun
    have hc := hinit c (by simp)
    cases c with
    | fork retStack ebp ret o space => exact absurd hc id
    | startUsermode o space => exact absurd hc id
    | init o pageDir =>
      obtain ⟨hu, hpid, hlt₁, hframe, hmem⟩ := create_init hlt hs₁
      obtain ⟨hus, hnodup, hmem'⟩ := ih (fun c hc => hinit c (by simp [hc])) (by omega) hs₂
      rw [hpid] at hus hmem'
      -- the later stacks lie above this one
      have hbelow : ∀ x, x < stackPage (s.lastPid + 1) + kstackSz → s'.mem x = s₁.mem x :=
        fun x hx => hmem' x (by unfold stackPage kstackSz kb4 at *; omega)
      have hu1 : u.pid = s.lastPid + 1 := by rw [hu]
      have hu2 : u.pages = [stackPage u.pid] := by rw [hu]
      refine ⟨?_, ?_, ?_⟩
      · intro v hv
        rcases List.mem_cons.mp hv with rfl | hv
        · refine ⟨by omega, hu2, ?_⟩
          unfold FrameIntact at hframe ⊢
          rw [hu1] at hframe ⊢
          rw [hbelow _ (by unfold kstackSz kb4; omega), hbelow _ (by unfold kstackSz kb4; omega)]
          exact hframe
        · obtain ⟨h1, h2, h3⟩ := hus v hv
          exact ⟨by omega, h2, h3⟩
      · rw [List.flatMap_cons, hu2]
        refine List.nodup_append.mpr ⟨by simp, hnodup, fun a ha b hb => ?_⟩
        rw [List.mem_singleton.mp ha, hu1]
        obtain ⟨v, hv, hbv⟩ := List.mem_flatMap.mp hb
        obtain ⟨h1, h2, _⟩ := hus v hv
        rw [h2, List.mem_singleton] at hbv
        rw [hbv]
        unfold stackPage kstackSz kb4
        omega
      · intro x hx
        rw [hbelow x (by unfold kstackSz; omega), hmem x hx]

/-- The pages of a run are separate, and its return frames intact, exactly when every process was
created by `process_init`. -/
theorem separate_iff {link : Link} {mem : KMem} {dir : Word} {esp0 : Nat} {cs : List Creation}
    {us : List Used} {s : Sched} (hrun : Machine.runAll (create link) (boot mem dir esp0) cs = .ok (us, s)) :
    Separate us s ↔ ∀ c ∈ cs, c.isInit := by
  constructor
  · rintro ⟨hnodup, _⟩ c hc
    by_contra hninit
    obtain ⟨u, hu, hn⟩ := run_not_nodup hrun ⟨c, hc, hninit⟩
    exact hn ((List.nodup_flatMap.mp hnodup).1 u hu)
  · intro hinit
    have hlt : (boot mem dir esp0).lastPid < procMaxPid := by
      change 0 < procMaxPid
      decide
    obtain ⟨hus, hnodup, _⟩ := run_init hinit hlt hrun
    exact ⟨hnodup, fun u hu => (hus u hu).2.2⟩

/-- Two processes made by `process_init`. -/
theorem separate_iff_init : ∃ us s,
    Machine.runAll (create sampleLink) (boot (fun _ => 0) 0x1000 0)
      [.init ⟨0x401000, false⟩ 0x1000, .init ⟨0x402000, false⟩ 0x1000] = .ok (us, s) ∧
    us.map Used.pid = [1, 2] ∧ Separate us s := by
  obtain ⟨us, s, hrun, hpids⟩ : ∃ us s,
      Machine.runAll (create sampleLink) (boot (fun _ => 0) 0x1000 0)
        [.init ⟨0x401000, false⟩ 0x1000, .init ⟨0x402000, false⟩ 0x1000] = .ok (us, s) ∧
      us.map Used.pid = [1, 2] := ⟨_, _, rfl, rfl⟩
  refine ⟨us, s, hrun, hpids, (separate_iff hrun).mpr ?_⟩
  intro c hc
  simp only [List.mem_cons, List.not_mem_nil, or_false] at hc
  rcases hc with rfl | rfl
  · trivial
  · trivial

/-- The first process in user mode: its page directory is written over its kernel stack. -/
theorem not_separate_usermode : ∃ us s,
    Machine.runAll (create sampleLink) (boot (fun _ => 0) 0x1000 0)
      [.init ⟨0x401000, false⟩ 0x1000, .startUsermode ⟨0x402000, false⟩ ⟨0x403000, fun _ => 0⟩] =
      .ok (us, s) ∧ ¬ Separate us s := by
  obtain ⟨us, s, hrun⟩ : ∃ us s,
      Machine.runAll (create sampleLink) (boot (fun _ => 0) 0x1000 0)
        [.init ⟨0x401000, false⟩ 0x1000, .startUsermode ⟨0x402000, false⟩ ⟨0x403000, fun _ => 0⟩] =
        .ok (us, s) := ⟨_, _, rfl⟩
  refine ⟨us, s, hrun, fun hsep => ?_⟩
  obtain ⟨u, hu, hn⟩ := run_not_nodup hrun ⟨_, List.mem_cons_of_mem _ List.mem_cons_self, id⟩
  exact hn ((List.nodup_flatMap.mp hsep.1).1 u hu)

end Proc
end Frod
