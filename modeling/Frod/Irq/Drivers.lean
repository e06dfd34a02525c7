import Frod.Heap.Backed
import Frod.Irq.Lines

/-!
# Frod.Irq.Drivers

What the kernel's drivers make of the lines. Each of them registers its handler before it opens its
line, so whatever the devices do, and wherever in the drivers' code an interrupt comes, no line gets
to the dummy handler: `drivers_served`. And an open line is served after as many interrupts as there
are lines, and lines raised in the meantime (`raised_served`).
-/

namespace Frod
namespace Irq

open Intr Pic

/-- `increment_tick`, `ps2_handle_interrupt_1st`, `ps2_handle_interrupt_2nd`, `uart_interrupt_com1`,
`syscall_handler`, `vmm_handle_page_fault`. -/
inductive Handler where
  | incrementTick
  | ps2HandleInterrupt1st
  | ps2HandleInterrupt2nd
  | uartInterruptCom1
  | syscallHandler
  | vmmHandlePageFault
  deriving DecidableEq

/-- The functions that set up interrupts. -/
inductive Driver where
  | ps2Init
  | uartInit
  | pitInstall
  | pitDisable
  | syscallInit
  | vmmInit

/-- `IRQ_PIT`, `IRQ_KEYBOARD`, `IRQ_COM1`, `IRQ_PS2`, `IRQ0`, `IRQ_KBD`. -/
def irqPit : BitVec 8 := 32
def irqKeyboard : BitVec 8 := 33
def irqCom1 : BitVec 8 := 36
def irqPs2 : BitVec 8 := 44
def irq0 : Nat := 32
def irqKbd : Nat := 1

/-- Their calls. A driver that finds no device makes none of them. -/
def Driver.calls : Driver → List (Event Handler)
  | .ps2Init =>
    [.register irqKeyboard (some (.driver .ps2HandleInterrupt1st)),
      .register irqPs2 (some (.driver .ps2HandleInterrupt2nd)),
      .enable irqKbd, .enable (irqPs2.toNat - irq0)]
  | .uartInit =>
    [.register irqCom1 (some (.driver .uartInterruptCom1)), .enable (irqCom1.toNat - irq0)]
  | .pitInstall => [.register irqPit (some (.driver .incrementTick)), .enable 0]
  | .pitDisable => [.disable 0]
  | .syscallInit => [.register 0x80 (some (.driver .syscallHandler))]
  | .vmmInit => [.register 14 (some (.driver .vmmHandlePageFault))]

/-- The driver of a line. -/
def owner : Nat → Option Handler
  | 0 => some .incrementTick
  | 1 => some .ps2HandleInterrupt1st
  | 4 => some .uartInterruptCom1
  | 12 => some .ps2HandleInterrupt2nd
  | _ => none

/-- The call is that of the driver whose line was raised. -/
def Owned (r : Option (Call Handler)) : Prop :=
  ∀ c, r = some c → ∃ l h, owner l = some h ∧ c = .handler (.driver h) (BitVec.ofNat 32 (32 + l))

/-- The calls among the events. -/
def isCall {H : Type} : Event H → Bool
  | .register _ _ => true
  | .enable _ => true
  | .disable _ => true
  | _ => false

/-- Calls, raised lines and interrupts, but no exceptions. -/
def Event.Hardware {H : Type} : Event H → Prop
  | .raise line => line ∈ priority
  | .trap _ _ _ _ => False
  | _ => True

/-! ## Registered before opened -/

/-- The second controller is connected, and every open line has the handler of its driver. -/
structure Guarded (opened : Nat → Bool) (handlers : Handlers Handler) : Prop where
  cascade : opened 2 = true
  line : ∀ l ∈ priority, opened l = true → ∃ h, owner l = some h ∧
    handlers (32 + l) = some (.driver h)

/-- The open lines are guarded in front of each of the calls and behind them. -/
def Along (opened : Nat → Bool) (handlers : Handlers Handler) : List (Event Handler) → Prop
  | [] => Guarded opened handlers
  | e :: es => Guarded opened handlers ∧
    match e with
    | .register n h => Along opened (Function.update handlers n.toNat h) es
    | .enable irq => Along (Function.update opened irq true) handlers es
    | .disable irq => Along (Function.update opened irq false) handlers es
    | _ => Along opened handlers es

section Guarded

variable {opened : Nat → Bool} {handlers : Handlers Handler}

theorem Along.guarded {es : List (Event Handler)} (h : Along opened handlers es) :
    Guarded opened handlers := by
  cases es with
  | nil => exact h
  | cons e es => exact h.1

theorem Guarded.register (h : Guarded opened handlers) {n : BitVec 8} {i : Handler}
    (hi : ∀ l ∈ priority, 32 + l = n.toNat → owner l = some i) :
    Guarded opened (Function.update handlers n.toNat (some (.driver i))) := by
  refine ⟨h.cascade, fun l hl hopen => ?_⟩
  by_cases hn : 32 + l = n.toNat
  · exact ⟨i, hi l hl hn, by rw [hn, Function.update_self]⟩
  · obtain ⟨j, hj, hhandler⟩ := h.line l hl hopen
    exact ⟨j, hj, by rw [Function.update_of_ne hn, hhandler]⟩

theorem Guarded.enable (h : Guarded opened handlers) (irq : Nat) {i : Handler}
    (howner : owner irq = some i) (hi : handlers (32 + irq) = some (.driver i)) :
    Guarded (Function.update opened irq true) handlers := by
  refine ⟨?_, fun l hl hopen => ?_⟩
  · rw [Function.update_apply, h.cascade, ite_self]
  · by_cases hirq : l = irq
    · exact ⟨i, by rw [hirq, howner], by rw [hirq, hi]⟩
    · rw [Function.update_of_ne hirq] at hopen
      exact h.line l hl hopen

theorem Guarded.disable (h : Guarded opened handlers) {irq : Nat} (h2 : irq ≠ 2) :
    Guarded (Function.update opened irq false) handlers := by
  refine ⟨(Function.update_of_ne h2.symm _ _).trans h.cascade, fun l hl hopen => ?_⟩
  by_cases hirq : l = irq
  · rw [hirq, Function.update_self] at hopen
    cases hopen
  · rw [Function.update_of_ne hirq] at hopen
    exact h.line l hl hopen

/-- Every driver keeps the open lines guarded, at each of its calls. -/
theorem Guarded.driver (h : Guarded opened handlers) (d : Driver) {es : List (Event Handler)}
    (hrest : ∀ opened handlers, Guarded opened handlers → Along opened handlers es) :
    Along opened handlers (d.calls ++ es) := by
  cases d with
  | ps2Init =>
    have h1 := h.register (n := irqKeyboard) (i := .ps2HandleInterrupt1st) (by decide)
    have h2 := h1.register (n := irqPs2) (i := .ps2HandleInterrupt2nd) (by decide)
    have h3 := h2.enable irqKbd (i := .ps2HandleInterrupt1st) rfl rfl
    have h4 := h3.enable (irqPs2.toNat - irq0) (i := .ps2HandleInterrupt2nd) rfl rfl
    exact ⟨h, h1, h2, h3, hrest _ _ h4⟩
  | uartInit =>
    have h1 := h.register (n := irqCom1) (i := .uartInterruptCom1) (by decide)
    have h2 := h1.enable (irqCom1.toNat - irq0) (i := .uartInterruptCom1) rfl rfl
    exact ⟨h, h1, hrest _ _ h2⟩
  | pitInstall =>
    have h1 := h.register (n := irqPit) (i := .incrementTick) (by decide)
    have h2 := h1.enable 0 (i := .incrementTick) rfl rfl
    exact ⟨h, h1, hrest _ _ h2⟩
  | pitDisable => exact ⟨h, hrest _ _ (h.disable (by decide))⟩
  | syscallInit => exact ⟨h, hrest _ _ (h.register (n := 0x80) (i := .syscallHandler) (by decide))⟩
  | vmmInit => exact ⟨h, hrest _ _ (h.register (n := 14) (i := .vmmHandlePageFault) (by decide))⟩

theorem Guarded.drivers : ∀ {ds : List Driver} {opened : Nat → Bool} {handlers : Handlers Handler},
    Guarded opened handlers → Along opened handlers (ds.flatMap Driver.calls) := by
  intro ds
  induction ds with
  | nil => intro opened handlers h; exact h
  | cons d ds ih =>
    intro opened handlers h
    rw [List.flatMap_cons]
    exact h.driver d fun _ _ h' => ih h'

end Guarded

/-! ## Runs of the lines -/

theorem priority_lt : ∀ l ∈ priority, l < 16 ∧ l ≠ 2 := by decide

/-- The handler of a line is what its vector leads to. -/
theorem serve_line {H : Type} (a : Lines H) {l : Nat} (hl : l ∈ priority) {h : H}
    (hh : a.handlers (32 + l) = some (.driver h)) :
    a.serve (BitVec.ofNat 8 (32 + l)) =
      .ok (some (.handler (.driver h) (BitVec.ofNat 32 (32 + l)))) := by
  have hlt := (priority_lt l hl).1
  have hv : (BitVec.ofNat 8 (32 + l)).toNat = 32 + l := by
    rw [BitVec.toNat_ofNat]
    omega
  have hsign : (BitVec.ofNat 8 (32 + l)).signExtend 32 = BitVec.ofNat 32 (32 + l) := by
    apply BitVec.eq_of_toNat_eq
    rw [signExtend_toNat (by omega), hv, BitVec.toNat_ofNat]
    omega
  have hisr : ¬ ((BitVec.ofNat 8 (32 + l)).toNat < 32 ∨ BitVec.ofNat 8 (32 + l) = 128) := by
    rintro (h32 | h128)
    · omega
    · rw [h128] at hv
      have h128' : (128 : BitVec 8).toNat = 128 := rfl
      omega
  rw [Lines.serve, if_neg hisr, if_pos (by omega), hv, hh, hsign]
  rfl

theorem next_opened {H : Type} {a : Lines H} {l : Nat} (h : a.next = some l) :
    l ∈ priority ∧ a.opened l = true := by
  have hfind := List.find?_some h
  simp only [Bool.and_eq_true] at hfind
  exact ⟨List.mem_of_find?_eq_some h, hfind.1.2⟩

/-- The events of a run whose calls are a beginning of `es` get to the drivers' handlers. -/
theorem along_served : ∀ {events es : List (Event Handler)} {a : Lines Handler},
    Along a.opened a.handlers es → (∀ e ∈ events, e.Hardware) → events.filter isCall <+: es →
      ∃ rs a', Machine.runAll Lines.step a events = .ok (rs, a') ∧ (∀ r ∈ rs, Owned r) ∧
        Guarded a'.opened a'.handlers := by
  intro events
  induction events with
  | nil =>
    intro es a halong _ _
    exact ⟨[], a, rfl, fun r hr => absurd hr List.not_mem_nil, halong.guarded⟩
  | cons e events ih =>
    intro es a halong hhw hpre
    have hhwe := hhw e List.mem_cons_self
    have hhws : ∀ e ∈ events, e.Hardware := fun e' he => hhw e' (List.mem_cons_of_mem e he)
    have hnone : Owned none := fun c hc => by cases hc
    -- an event that leads to `b` with the output `r`
    have hcons : ∀ {b es' r}, a.step e = .ok (r, b) → Owned r → Along b.opened b.handlers es' →
        events.filter isCall <+: es' →
        ∃ rs a'', Machine.runAll Lines.step a (e :: events) = .ok (rs, a'') ∧ (∀ r ∈ rs, Owned r) ∧
          Guarded a''.opened a''.handlers := by
      intro b es' r hstep hr halong' hpre'
      obtain ⟨rs, a'', hrun, hrs, hg⟩ := ih halong' hhws hpre'
      refine ⟨r :: rs, a'', Machine.runAll_cons_of hstep hrun, fun r' hr' => ?_, hg⟩
      rcases List.mem_cons.mp hr' with rfl | hr'
      · exact hr
      · exact hrs r' hr'
    -- a call is the next one of the drivers
    have hcall : isCall e = true → ∃ es', es = e :: es' ∧ events.filter isCall <+: es' := by
      intro he
      rw [List.filter_cons_of_pos he] at hpre
      obtain ⟨t, ht⟩ := hpre
      exact ⟨events.filter isCall ++ t, ht.symm, ⟨t, rfl⟩⟩
    cases e with
    | register n h =>
      obtain ⟨es', rfl, hpre'⟩ := hcall rfl
      exact hcons rfl hnone halong.2 hpre'
    | enable irq =>
      obtain ⟨es', rfl, hpre'⟩ := hcall rfl
      exact hcons rfl hnone halong.2 hpre'
    | disable irq =>
      obtain ⟨es', rfl, hpre'⟩ := hcall rfl
      exact hcons rfl hnone halong.2 hpre'
    | raise line => exact hcons rfl hnone halong hpre
    | trap v errCode esp0 c => exact absurd hhwe id
    | interrupt esp0 c =>
      cases hnext : a.next with
      | none =>
        refine hcons (b := a) ?_ hnone halong hpre
        simp only [Lines.step, hnext]
      | some l =>
        obtain ⟨hl, hopen⟩ := next_opened hnext
        obtain ⟨h, howner, hh⟩ := halong.guarded.line l hl hopen
        refine hcons (b := { a with pending := Function.update a.pending l false })
          (r := some (.handler (.driver h) (BitVec.ofNat 32 (32 + l)))) ?_ ?_ halong hpre
        · simp only [Lines.step, hnext, serve_line a hl hh]
          rfl
        · intro c hc
          exact ⟨l, h, howner, (Option.some.inj hc).symm⟩

theorem guarded_boot : Guarded (Lines.boot (H := Handler)).opened Lines.boot.handlers := by
  refine ⟨rfl, fun l hl hopen => ?_⟩
  have h2 := of_decide_eq_true hopen
  exact absurd h2 (priority_lt l hl).2

theorem calls_valid (d : Driver) : ∀ e ∈ d.calls, e.Valid := by
  have h0 : (0 : Nat) < 40 := by decide
  have h1 : irqKbd < 40 := by decide
  have h12 : irqPs2.toNat - irq0 < 40 := by decide
  have h4 : irqCom1.toNat - irq0 < 40 := by decide
  intro e he
  cases d with
  | ps2Init =>
    simp only [Driver.calls, List.mem_cons, List.not_mem_nil, or_false] at he
    rcases he with rfl | rfl | rfl | rfl
    · trivial
    · trivial
    · exact h1
    · exact h12
  | uartInit =>
    simp only [Driver.calls, List.mem_cons, List.not_mem_nil, or_false] at he
    rcases he with rfl | rfl
    · trivial
    · exact h4
  | pitInstall =>
    simp only [Driver.calls, List.mem_cons, List.not_mem_nil, or_false] at he
    rcases he with rfl | rfl
    · trivial
    · exact h0
  | pitDisable =>
    obtain rfl := List.mem_singleton.mp he
    exact h0
  | syscallInit =>
    obtain rfl := List.mem_singleton.mp he
    trivial
  | vmmInit =>
    obtain rfl := List.mem_singleton.mp he
    trivial

section Runs

variable (img : Image) {p : Pics} (handlers : Handlers Handler) (ds : List Driver)
  {events : List (Event Handler)}

theorem hardware_valid (hhw : ∀ e ∈ events, e.Hardware)
    (hcalls : events.filter isCall <+: ds.flatMap Driver.calls) : ∀ e ∈ events, e.Valid := by
  intro e he
  have hmem : isCall e = true → ∃ d ∈ ds, e ∈ Driver.calls d := fun hc =>
    List.mem_flatMap.mp (hcalls.subset (List.mem_filter.mpr ⟨he, hc⟩))
  cases e with
  | register n h => trivial
  | enable irq =>
    obtain ⟨d, _, hd⟩ := hmem rfl
    exact calls_valid d _ hd
  | disable irq =>
    obtain ⟨d, _, hd⟩ := hmem rfl
    exact calls_valid d _ hd
  | raise line => exact hhw _ he
  | interrupt esp0 c => trivial
  | trap v errCode esp0 c => trivial

/-- What a run of the lines gets to, the machine gets to. -/
theorem machine_run (hp : Ready p) (hvalid : ∀ e ∈ events, e.Valid) {rs : List (Option (Call Handler))}
    {a : Lines Handler} (hrun : Machine.runAll Lines.step Lines.boot events = .ok (rs, a)) :
    ∃ s, Machine.runAll (step img) (boot img p handlers) events = .ok (rs, s) := by
  rcases runs_agree img hp handlers hvalid with ⟨rs', s, a', hs, ha, _⟩ | ⟨e, _, ha⟩
  · obtain ⟨rfl, _⟩ := Machine.ok_inj hrun ha
    exact ⟨s, hs⟩
  · rw [hrun] at ha
    cases ha

/-- The drivers are set up in any order and any number of times, and devices raise their lines and
interrupts are taken anywhere in between: no interrupt panics, and each goes to the handler of the
driver whose line was raised. -/
theorem drivers_served (hp : Ready p) (hhw : ∀ e ∈ events, e.Hardware)
    (hcalls : events.filter isCall <+: ds.flatMap Driver.calls) :
    ∃ rs s, Machine.runAll (step img) (boot img p handlers) events = .ok (rs, s) ∧
      ∀ r ∈ rs, Owned r := by
  obtain ⟨rs, a, hrun, howned, _⟩ := along_served guarded_boot.drivers hhw hcalls
  obtain ⟨s, hs⟩ := machine_run img handlers hp (hardware_valid ds hhw hcalls) hrun
  exact ⟨rs, s, hs, howned⟩

/-- A key is pressed while the keyboard's driver is set up. -/
def samplePress : List (Event Handler) :=
  [.register irqKeyboard (some (.driver .ps2HandleInterrupt1st)),
    .register irqPs2 (some (.driver .ps2HandleInterrupt2nd)), .enable irqKbd, .raise 1,
    .interrupt 0 (sampleCpu 0x10), .enable (irqPs2.toNat - irq0)]

theorem samplePress_hardware : ∀ e ∈ samplePress, e.Hardware := by
  have h1 : 1 ∈ priority := by decide
  intro e he
  simp only [samplePress, List.mem_cons, List.not_mem_nil, or_false] at he
  rcases he with rfl | rfl | rfl | rfl | rfl | rfl
  · trivial
  · trivial
  · trivial
  · exact h1
  · trivial
  · trivial

theorem samplePress_calls : samplePress.filter isCall <+: [Driver.ps2Init].flatMap Driver.calls :=
  ⟨[], rfl⟩

theorem drivers_served_press : ∃ rs s,
    Machine.runAll (step sampleImage) (boot sampleImage samplePics fun _ => none) samplePress =
      .ok (rs, s) ∧ ∀ r ∈ rs, Owned r :=
  drivers_served sampleImage (fun _ => none) [.ps2Init] ⟨rfl, rfl⟩ samplePress_hardware
    samplePress_calls

end Runs

/-! ## Every raised line is served -/

/-- The lines that wait for an interrupt. -/
def waiting (a : Lines Handler) : Nat := priority.countP fun l => a.pending l && a.opened l

/-- The interrupts and the raised lines among the events. -/
def isInterrupt {H : Type} : Event H → Bool
  | .interrupt _ _ => true
  | _ => false

def isRaise {H : Type} : Event H → Bool
  | .raise _ => true
  | _ => false

theorem priority_nodup : priority.Nodup := by decide

theorem next_guarded {a : Lines Handler} (hg : Guarded a.opened a.handlers) {l : Nat}
    (hl : l ∈ priority) (hpend : a.pending l = true) (hopen : a.opened l = true) :
    ∃ l', a.next = some l' ∧ a.pending l' = true := by
  have hsome : a.next.isSome = true := by
    rw [Lines.next, List.find?_isSome]
    exact ⟨l, hl, by rw [hpend, hopen, hg.cascade, Bool.or_true, Bool.and_self, Bool.and_self]⟩
  obtain ⟨l', hl'⟩ := Option.isSome_iff_exists.mp hsome
  have hfind := List.find?_some hl'
  simp only [Bool.and_eq_true] at hfind
  exact ⟨l', hl', hfind.1.1⟩

/-- Line `l` counts if it is raised and open. -/
theorem waiting_update {a : Lines Handler} {l : Nat} (hl : l ∈ priority) (b : Bool) :
    waiting { a with pending := Function.update a.pending l b } =
      waiting { a with pending := Function.update a.pending l false } +
        if b && a.opened l then 1 else 0 := by
  refine Heap.countP_strike (k := l) ?_ ?_ (fun x _ hx => ?_) priority_nodup hl
  · simp only [Function.update_self, Bool.false_and]
  · simp only [Function.update_self]
  · simp only [Function.update_of_ne hx]

theorem waiting_eq {a : Lines Handler} {l : Nat} (hl : l ∈ priority) : waiting a =
    waiting { a with pending := Function.update a.pending l false } +
      if a.pending l && a.opened l then 1 else 0 := by
  have h := waiting_update (a := a) hl (a.pending l)
  rwa [Function.update_eq_self] at h

theorem waiting_served {a : Lines Handler} {l : Nat} (hl : l ∈ priority) (hpend : a.pending l = true)
    (hopen : a.opened l = true) :
    waiting a = waiting { a with pending := Function.update a.pending l false } + 1 := by
  have h := waiting_eq (a := a) hl
  rwa [hpend, hopen] at h

theorem waiting_raised {a : Lines Handler} {l : Nat} (hl : l ∈ priority) :
    waiting { a with pending := Function.update a.pending l true } ≤ waiting a + 1 := by
  have hbefore := waiting_eq (a := a) hl
  have hafter := waiting_update (a := a) hl true
  have hone : (if true && a.opened l then 1 else 0) ≤ 1 := by
    split
    · exact Nat.le_refl 1
    · exact Nat.zero_le 1
  omega

/-- A line that waits is served once there were as many interrupts as lines waiting and raised
since. -/
theorem interrupts_served : ∀ {later : List (Event Handler)} {a : Lines Handler} {l : Nat} {h : Handler},
    Guarded a.opened a.handlers → l ∈ priority → a.pending l = true → a.opened l = true →
    a.handlers (32 + l) = some (.driver h) → (∀ e ∈ later, e.Hardware) →
    (∀ e ∈ later, isCall e = false) → waiting a + later.countP isRaise ≤ later.countP isInterrupt →
      ∃ rs a', Machine.runAll Lines.step a later = .ok (rs, a') ∧
        some (.handler (.driver h) (BitVec.ofNat 32 (32 + l))) ∈ rs := by
  intro later
  induction later with
  | nil =>
    intro a l h _ hl hpend hopen _ _ _ hlen
    have hw := waiting_served hl hpend hopen
    rw [hw] at hlen
    exact absurd hlen (Nat.not_succ_le_zero _)
  | cons e later ih =>
    intro a l h hg hl hpend hopen hh hhw hcall hlen
    have hhwe := hhw e List.mem_cons_self
    have hcalle := hcall e List.mem_cons_self
    have hhws : ∀ e ∈ later, e.Hardware := fun e' he => hhw e' (List.mem_cons_of_mem e he)
    have hcalls : ∀ e ∈ later, isCall e = false := fun e' he => hcall e' (List.mem_cons_of_mem e he)
    cases e with
    | register n handler => cases hcalle
    | enable irq => cases hcalle
    | disable irq => cases hcalle
    | trap v errCode esp0 c => exact hhwe.elim
    | raise line =>
      have hstep : a.step (.raise line) =
          .ok (none, { a with pending := Function.update a.pending line true }) := rfl
      have hpend' : Function.update a.pending line true l = true := by
        rw [Function.update_apply]
        split
        · rfl
        · exact hpend
      have hw := waiting_raised (a := a) hhwe
      rw [List.countP_cons_of_pos rfl, List.countP_cons_of_neg Bool.false_ne_true] at hlen
      obtain ⟨rs, a', hrun, hmem⟩ :=
        ih (a := { a with pending := Function.update a.pending line true }) hg hl hpend' hopen hh hhws
          hcalls (by omega)
      exact ⟨_, a', Machine.runAll_cons_of hstep hrun, List.mem_cons_of_mem _ hmem⟩
    | interrupt esp0 c =>
      obtain ⟨l', hnext, hpend'⟩ := next_guarded hg hl hpend hopen
      obtain ⟨hl', hopen'⟩ := next_opened hnext
      obtain ⟨h', _, hh'⟩ := hg.line l' hl' hopen'
      have hstep : a.step (.interrupt esp0 c) =
          .ok (some (.handler (.driver h') (BitVec.ofNat 32 (32 + l'))),
            { a with pending := Function.update a.pending l' false }) := by
        simp only [Lines.step, hnext, serve_line a hl' hh']
        rfl
      have hw := waiting_served hl' hpend' hopen'
      rw [List.countP_cons_of_neg Bool.false_ne_true, List.countP_cons_of_pos rfl] at hlen
      by_cases hll : l' = l
      · -- it is its turn; the rest of the events return, too
        subst hll
        obtain rfl : h' = h := Isr.driver.inj (Option.some.inj (hh'.symm.trans hh))
        have hfilter := List.filter_eq_nil_iff.mpr fun e he => Bool.eq_false_iff.mp (hcalls e he)
        obtain ⟨rs, a', hrun, _⟩ := @along_served _ []
          { a with pending := Function.update a.pending l' false } hg hhws (List.prefix_nil.mpr hfilter)
        exact ⟨_, a', Machine.runAll_cons_of hstep hrun, List.mem_cons_self⟩
      · obtain ⟨rs, a', hrun, hmem⟩ := ih (a := { a with pending := Function.update a.pending l' false })
          hg hl ((Function.update_of_ne (Ne.symm hll) _ _).trans hpend) hopen hh hhws hcalls (by omega)
        exact ⟨_, a', Machine.runAll_cons_of hstep hrun, List.mem_cons_of_mem _ hmem⟩

/-- Whether the last call of `pic_enable_irq` or `pic_disable_irq` for line `l` opens it; `b` if there
is none. -/
def lastCall {H : Type} (l : Nat) (b : Bool) : List (Event H) → Bool
  | [] => b
  | .enable irq :: es => lastCall l (if l = irq then true else b) es
  | .disable irq :: es => lastCall l (if l = irq then false else b) es
  | _ :: es => lastCall l b es

theorem opened_lastCall {H : Type} (l : Nat) : ∀ {events : List (Event H)} {a a' : Lines H}
    {rs : List (Option (Call H))}, Machine.runAll Lines.step a events = .ok (rs, a') →
      a'.opened l = lastCall l (a.opened l) events := by
  intro events
  induction events with
  | nil =>
    intro a a' rs h
    cases h
    rfl
  | cons e events ih =>
    intro a a' rs h
    obtain ⟨r, a₁, rs', _, hstep, hrun⟩ := Machine.runAll_cons h
    rw [ih hrun]
    cases e with
    | register n handler => cases hstep; rfl
    | enable irq => cases hstep; simp only [lastCall, Function.update_apply]
    | disable irq => cases hstep; simp only [lastCall, Function.update_apply]
    | raise line => cases hstep; rfl
    | interrupt esp0 c =>
      simp only [Lines.step] at hstep
      split at hstep
      · cases hstep
        rfl
      · obtain ⟨_, _, hok⟩ := Machine.bind_eq_ok.mp hstep
        cases hok
        rfl
    | trap v errCode esp0 c =>
      simp only [Lines.step] at hstep
      obtain ⟨_, _, hok⟩ := Machine.bind_eq_ok.mp hstep
      cases hok
      rfl

/-- A line that its driver has opened: once it is raised, fifteen interrupts, and one more for each
line that is raised in the meantime, bring a call of the driver's handler, whatever code they
interrupt. -/
theorem raised_served (img : Image) {p : Pics} (hp : Ready p) (handlers : Handlers Handler)
    (ds : List Driver) {events : List (Event Handler)} (hhw : ∀ e ∈ events, e.Hardware)
    (hcalls : events.filter isCall <+: ds.flatMap Driver.calls) {l : Nat} (hl : l ∈ priority)
    (hopen : lastCall l false events = true) {later : List (Event Handler)}
    (hlater : ∀ e ∈ later, e.Hardware) (hnone : ∀ e ∈ later, isCall e = false)
    (hlen : 15 + later.countP isRaise ≤ later.countP isInterrupt) :
    ∃ h rs rs' s, owner l = some h ∧ rs.length = events.length + 1 ∧
      Machine.runAll (step img) (boot img p handlers) ((events ++ [.raise l]) ++ later) =
        .ok (rs ++ rs', s) ∧
      some (.handler (.driver h) (BitVec.ofNat 32 (32 + l))) ∈ rs' := by
  obtain ⟨rs, a, hrun, _, hg⟩ := along_served guarded_boot.drivers hhw hcalls
  have hopen' : a.opened l = true := by
    have h2 : (Lines.boot (H := Handler)).opened l = false := decide_eq_false (priority_lt l hl).2
    rw [opened_lastCall l hrun, h2, hopen]
  obtain ⟨h, howner, hh⟩ := hg.line l hl hopen'
  have hraise : a.step (.raise l) = .ok (none, { a with pending := Function.update a.pending l true }) :=
    rfl
  have hnil : Machine.runAll Lines.step { a with pending := Function.update a.pending l true } [] =
      .ok ([], { a with pending := Function.update a.pending l true }) := rfl
  have hone := Machine.runAll_append hrun (Machine.runAll_cons_of hraise hnil)
  -- no more lines wait than there are
  have hwait : waiting { a with pending := Function.update a.pending l true } ≤ 15 :=
    List.countP_le_length
  obtain ⟨rs', a', hints, hmem⟩ := @interrupts_served later
    { a with pending := Function.update a.pending l true } _ _ hg hl (Function.update_self _ _ _)
    hopen' hh hlater hnone (by omega)
  have hvalid : ∀ e ∈ (events ++ [.raise l]) ++ later, Event.Valid (H := Handler) e := by
    intro e he
    rcases List.mem_append.mp he with he | he
    · rcases List.mem_append.mp he with he | he
      · exact hardware_valid ds hhw hcalls e he
      · rw [List.mem_singleton.mp he]
        exact hl
    · have hfilter := List.filter_eq_nil_iff.mpr fun e he => Bool.eq_false_iff.mp (hnone e he)
      exact hardware_valid [] hlater (List.prefix_nil.mpr hfilter) e he
  obtain ⟨s, hs⟩ := machine_run img handlers hp hvalid (Machine.runAll_append hone hints)
  refine ⟨h, _, rs', s, howner, ?_, hs, hmem⟩
  rw [List.length_append, Machine.runAll_length hrun, List.length_singleton]

/-- The keyboard's line, and then the other line of the controller before sixteen interrupts. -/
theorem raised_served_key : ∃ h rs rs' s, owner 1 = some h ∧ rs.length = 7 ∧
    Machine.runAll (step sampleImage) (boot sampleImage samplePics fun _ => none)
      ((samplePress ++ [.raise 1]) ++ .raise 12 :: List.replicate 16 (.interrupt 0 (sampleCpu 0x10))) =
        .ok (rs ++ rs', s) ∧
    some (.handler (.driver h) (BitVec.ofNat 32 33)) ∈ rs' := by
  have hboth : ∀ e ∈ (Event.raise 12 :: List.replicate 16 (.interrupt 0 (sampleCpu 0x10)) :
      List (Event Handler)), e.Hardware ∧ isCall e = false := by
    have h12 : 12 ∈ priority := by decide
    intro e he
    rcases List.mem_cons.mp he with rfl | he
    · exact ⟨h12, rfl⟩
    · rw [List.eq_of_mem_replicate he]
      exact ⟨trivial, rfl⟩
  exact raised_served sampleImage ⟨rfl, rfl⟩ (fun _ => none) [.ps2Init] samplePress_hardware
    samplePress_calls (by decide) rfl (fun e he => (hboth e he).1) (fun e he => (hboth e he).2)
    (Nat.le_refl 16)

end Irq
end Frod
