import Mathlib.Data.List.Basic
import Frod.Ps2.Model

/-!
# Frod.Ps2.Send

Timeouts of `ps2_send_internal`.

The loops of the two waits count `ms` down to 0 and not below, and what follows them asks whether it
is below 0. So a wait that has used up its budget looks like one that was answered, and the transfer
it should have guarded takes place (`waitReady_eq`). `reports_iff`: a timeout is reported only when
nothing is waited for, since there is none.
-/

namespace Frod
namespace Ps2

/-- A read or a write of the data port. -/
def Event.isTransfer : Event → Bool
  | .data _ => true
  | .writeData _ => true
  | _ => false

/-- The number of polls of each wait. -/
def budget (ms : Int) : Int := if ms = 0 then toDefault else ms

/-- If `rest` comes after the start of the wait `w` and begins with as many polls as the budget allows,
all of them in vain, then the result is the error of `w` and nothing is transferred after them. -/
def Reported (ms : Int) (r : BitVec 16) (w : Wait) (rest : List Event) : Prop :=
  ∀ (polls : List Byte) (post : List Event), rest = polls.map .status ++ post →
    (polls.length : Int) = budget ms → (∀ b ∈ polls, w.ready b = false) →
    r = w.error ∧ ∀ e ∈ post, e.isTransfer = false

/-- `ps2_send_internal` reports every timeout, and what it returns for a response is a byte that it
read right after the output buffer was reported full. -/
structure Reports (c : Ctrl) (channelStatus send : BitVec 16) (ms : Int) (flags : BitVec 16) : Prop where
  timeouts : ∀ pre w rest,
    (ps2SendInternal c channelStatus send ms flags ⟨0, 0, []⟩).2.trace = pre ++ .wait w :: rest →
      Reported ms (ps2SendInternal c channelStatus send ms flags ⟨0, 0, []⟩).1 w rest
  response : flags &&& maskResponse ≠ 0 →
    0 ≤ (ps2SendInternal c channelStatus send ms flags ⟨0, 0, []⟩).1.toInt →
    ∃ pre st b, (ps2SendInternal c channelStatus send ms flags ⟨0, 0, []⟩).2.trace =
        pre ++ [.status st, .data b] ∧ Wait.dataReady.ready st = true ∧
      (ps2SendInternal c channelStatus send ms flags ⟨0, 0, []⟩).1 = b.setWidth 16

/-- The channels the command or data byte is for are not marked as unusable. -/
def Usable (channelStatus flags : BitVec 16) : Prop :=
  if flags &&& maskData ≠ 0 then
    if flags &&& maskSecond ≠ 0 then channelStatus &&& 0xFF00 = 0 else channelStatus &&& 0xFF = 0
  else channelStatus &&& 0xFF = 0 ∨ channelStatus &&& 0xFF00 = 0

/-- One of the next `n` polls, the first of which is number `p`, finds what `w` waits for. -/
def Answered (c : Ctrl) (w : Wait) (p n : Nat) : Prop := ∃ k < n, w.ready (c.status (p + k)) = true

/-- The poll number `p + k` is the first one of them. -/
def First (c : Ctrl) (w : Wait) (p n k : Nat) : Prop :=
  k < n ∧ w.ready (c.status (p + k)) = true ∧ ∀ i < k, w.ready (c.status (p + i)) = false

/-- Every wait that the flags ask for is answered. The polls for the response come after those for
the room to write. -/
def Served (c : Ctrl) (ms : Int) (flags : BitVec 16) : Prop :=
  if flags &&& maskData ≠ 0 ∨ flags &&& maskDouble ≠ 0 then
    ∃ k, First c .bufferReady 0 (budget ms).toNat k ∧
      (flags &&& maskResponse ≠ 0 → Answered c .dataReady (k + 1) (budget ms).toNat)
  else flags &&& maskResponse ≠ 0 → Answered c .dataReady 0 (budget ms).toNat

/-! ## The waits -/

section Waits

variable {c : Ctrl} {w : Wait} {ms : Int}

/-- The bytes that `n` polls from number `p` on return. -/
def bytes (c : Ctrl) (p n : Nat) : List Byte := (List.range n).map fun i => c.status (p + i)

/-- The connection after `n` polls. -/
def Conn.polled (s : Conn) (c : Ctrl) (n : Nat) : Conn :=
  ⟨s.polls + n, s.reads, s.trace ++ (bytes c s.polls n).map .status⟩

theorem bytes_succ (c : Ctrl) (p n : Nat) : bytes c p (n + 1) = c.status p :: bytes c (p + 1) n := by
  simp [bytes, List.range_succ_eq_map, Nat.add_left_comm, Nat.add_comm]

theorem polled_zero (s : Conn) (c : Ctrl) : s.polled c 0 = s := by
  simp [Conn.polled, bytes]

theorem polled_succ (s : Conn) (c : Ctrl) (n : Nat) :
    (s.inbStatus c).2.polled c n = s.polled c (n + 1) := by
  simp [Conn.polled, Conn.inbStatus, Conn.add, bytes_succ, Nat.add_assoc, Nat.add_comm 1]

theorem waitLoop_eq : ∀ {n : Nat} {s : Conn},
    (∃ k, First c w s.polls n k ∧ s.waitLoop c w n = (n - k, s.polled c (k + 1))) ∨
    (¬ Answered c w s.polls n ∧ s.waitLoop c w n = (0, s.polled c n)) := by
  intro n
  induction n with
  | zero =>
    intro s
    refine .inr ⟨?_, by rw [polled_zero]; rfl⟩
    rintro ⟨k, hk, _⟩
    omega
  | succ n ih =>
    intro s
    have hstep : s.waitLoop c w (n + 1) =
        if w.ready (c.status s.polls) then (n + 1, (s.inbStatus c).2)
        else (s.inbStatus c).2.waitLoop c w n := rfl
    have hpolls : (s.inbStatus c).2.polls = s.polls + 1 := rfl
    rw [hstep]
    by_cases hready : w.ready (c.status s.polls) = true
    · refine .inl ⟨0, ⟨by omega, hready, fun i hi => absurd hi (Nat.not_lt_zero i)⟩, ?_⟩
      rw [if_pos hready, ← polled_succ, polled_zero]
      rfl
    · rw [if_neg hready]
      rcases @ih (s.inbStatus c).2 with ⟨k, ⟨hk, hfirst, hbefore⟩, hloop⟩ | ⟨hnone, hloop⟩
      · refine .inl ⟨k + 1, ⟨by omega, ?_, fun i hi => ?_⟩, ?_⟩
        · rw [hpolls, Nat.add_right_comm] at hfirst
          exact hfirst
        · cases i with
          | zero => exact Bool.eq_false_iff.mpr hready
          | succ i =>
            have hi' := hbefore i (by omega)
            rw [hpolls, Nat.add_right_comm] at hi'
            exact hi'
        · rw [hloop, polled_succ, Nat.add_sub_add_right]
      · refine .inr ⟨?_, by rw [hloop, polled_succ]⟩
        rintro ⟨k, hk, hk'⟩
        cases k with
        | zero => exact hready hk'
        | succ k =>
          refine hnone ⟨k, by omega, ?_⟩
          rw [hpolls, Nat.add_right_comm]
          exact hk'

/-- After `m` of its `n` polls the wait ends: the last one is the first that is answered, or none is
and all are used up. -/
def Polled (c : Ctrl) (w : Wait) (p n m : Nat) : Prop :=
  (∃ k, First c w p n k ∧ m = k + 1) ∨ (¬ Answered c w p n ∧ m = n)

/-- A wait with a budget always lets the driver go on, answered or not. -/
theorem waitReady_eq (hms : 0 < ms) (s : Conn) : ∃ m, Polled c w s.polls ms.toNat m ∧
    s.waitReady c w ms = (true, (s.add (.wait w)).polled c m) := by
  have hret : s.waitReady c w ms = (true, ((s.add (.wait w)).waitLoop c w ms.toNat).2) := by
    rw [Conn.waitReady]
    dsimp only
    rw [if_pos hms]
    exact if_neg (by simp)
  rw [hret]
  rcases waitLoop_eq (c := c) (w := w) (n := ms.toNat) (s := s.add (.wait w)) with
    ⟨k, hk, hloop⟩ | ⟨hnone, hloop⟩
  · exact ⟨k + 1, .inl ⟨k, hk, rfl⟩, by rw [hloop]⟩
  · exact ⟨ms.toNat, .inr ⟨hnone, rfl⟩, by rw [hloop]⟩

theorem waitReady_neg (hms : ms < 0) (s : Conn) : s.waitReady c w ms = (false, s.add (.wait w)) := by
  have hpos : ¬ ms > 0 := by omega
  simp [Conn.waitReady, hpos, hms]

theorem readResponse_eq {flags : BitVec 16} (hms : 0 < ms) (hresp : flags &&& maskResponse ≠ 0)
    (s : Conn) : ∃ m, Polled c .dataReady s.polls ms.toNat m ∧
      readResponse c ms flags s = ((c.data s.reads).setWidth 16, ⟨s.polls + m, s.reads + 1, s.trace ++
        .wait .dataReady :: ((bytes c s.polls m).map .status ++ [.data (c.data s.reads)])⟩) := by
  obtain ⟨m, hm, hwait⟩ := waitReady_eq (c := c) (w := .dataReady) hms s
  refine ⟨m, hm, ?_⟩
  rw [readResponse, if_pos hresp, hwait]
  simp [Conn.inbData, Conn.add, Conn.polled]

theorem writeByte_eq (hms : 0 < ms) (flags : BitVec 16) (b : Byte) (s : Conn) :
    ∃ m, Polled c .bufferReady s.polls ms.toNat m ∧
      writeByte c ms flags b s = readResponse c ms flags ⟨s.polls + m, s.reads, s.trace ++
        .wait .bufferReady :: ((bytes c s.polls m).map .status ++ [.writeData b])⟩ := by
  obtain ⟨m, hm, hwait⟩ := waitReady_eq (c := c) (w := .bufferReady) hms s
  refine ⟨m, hm, ?_⟩
  simp [writeByte, hwait, Conn.add, Conn.polled]

end Waits

/-! ## Timeouts along the trace -/

section Timely

variable {c : Ctrl} {w : Wait} {ms : Int} {r : BitVec 16}

/-- No wait of the trace ends in a timeout that is not reported. -/
def Timely (ms : Int) (r : BitVec 16) (t : List Event) : Prop :=
  ∀ pre w rest, t = pre ++ .wait w :: rest → Reported ms r w rest

theorem timely_nil : Timely ms r [] := by
  intro pre w rest h
  simp at h

/-- A budget below 0 is not used up. -/
theorem timely_of_neg (hms : budget ms < 0) (t : List Event) : Timely ms r t := by
  intro pre w rest _ polls post _ hlen
  omega

theorem timely_wait {t : List Event} :
    Timely ms r (.wait w :: t) ↔ Reported ms r w t ∧ Timely ms r t := by
  constructor
  · intro h
    refine ⟨h [] w t rfl, fun pre w' rest ht => h (.wait w :: pre) w' rest ?_⟩
    rw [ht]
    rfl
  · rintro ⟨hhead, htail⟩ pre w' rest ht
    cases pre with
    | nil =>
      cases ht
      exact hhead
    | cons e pre =>
      injection ht with _ ht
      exact htail pre w' rest ht

/-- Events other than waits do not matter. -/
theorem timely_append {u t : List Event} (hu : ∀ w, .wait w ∉ u) :
    Timely ms r (u ++ t) ↔ Timely ms r t := by
  induction u with
  | nil => rfl
  | cons e u ih =>
    rw [← ih fun w hw => hu w (List.mem_cons_of_mem e hw)]
    constructor
    · intro h pre w rest ht
      refine h (e :: pre) w rest ?_
      rw [List.cons_append, ht]
      rfl
    · intro h pre w rest ht
      cases pre with
      | nil =>
        injection ht with he _
        exact absurd (he ▸ List.mem_cons_self) (hu w)
      | cons e' pre =>
        injection ht with _ ht
        exact h pre w rest ht

theorem mem_bytes {p n : Nat} {b : Byte} : b ∈ bytes c p n ↔ ∃ i < n, c.status (p + i) = b := by
  simp [bytes]

/-- What a wait that ends after `m` polls and is followed by a transfer has to do with timeouts. -/
theorem reported_iff {p m : Nat} {e : Event} {t : List Event} (hms : 0 ≤ budget ms)
    (hm : Polled c w p (budget ms).toNat m) (he : e.isTransfer = true) :
    Reported ms r w ((bytes c p m).map .status ++ e :: t) ↔ Answered c w p (budget ms).toNat := by
  rcases hm with ⟨k, ⟨hk, hready, _⟩, rfl⟩ | ⟨hnone, rfl⟩
  · refine iff_of_true ?_ ⟨k, hk, hready⟩
    intro polls post hsplit hlen hvain
    -- The poll number `k` is among those that were in vain.
    have hat : ((bytes c p (k + 1)).map Event.status ++ e :: t)[k]? =
        (polls.map Event.status ++ post)[k]? := by rw [hsplit]
    have hlt : k < polls.length := by omega
    rw [List.getElem?_append_left (by simp [bytes]), List.getElem?_append_left (by simpa using hlt)]
      at hat
    simp [bytes, hlt] at hat
    rw [hat, hvain _ (List.getElem_mem hlt)] at hready
    cases hready
  · refine iff_of_false (fun h => ?_) hnone
    have hlen : ((bytes c p (budget ms).toNat).length : Int) = budget ms := by
      simp [bytes, Int.toNat_of_nonneg hms]
    have hpost := (h _ (e :: t) rfl hlen fun b hb => ?_).2 e List.mem_cons_self
    · rw [he] at hpost
      cases hpost
    · obtain ⟨i, hi, rfl⟩ := mem_bytes.mp hb
      exact Bool.eq_false_iff.mpr fun hready => hnone ⟨i, hi, hready⟩

theorem timely_step {p m : Nat} {e : Event} {u t : List Event} (hms : 0 ≤ budget ms)
    (hm : Polled c w p (budget ms).toNat m) (he : e.isTransfer = true) (hu : ∀ w, .wait w ∉ u) :
    Timely ms r (u ++ .wait w :: ((bytes c p m).map .status ++ e :: t)) ↔
      Answered c w p (budget ms).toNat ∧ Timely ms r t := by
  have hstatus : ∀ w, Event.wait w ∉ (bytes c p m).map .status ++ [e] := by
    intro w hw
    rcases List.mem_append.mp hw with hw | hw
    · simp at hw
    · rw [← List.mem_singleton.mp hw] at he
      cases he
  rw [timely_append hu, timely_wait, reported_iff hms hm he, List.append_cons,
    timely_append hstatus]

end Timely

/-! ## The result -/

section Result

variable {c : Ctrl} {channelStatus send : BitVec 16} {ms : Int} {flags : BitVec 16}

/-- `Reports` for what a part of `ps2_send_internal` returns. -/
def Sound (ms : Int) (flags : BitVec 16) (o : BitVec 16 × Conn) : Prop :=
  Timely ms o.1 o.2.trace ∧ (flags &&& maskResponse ≠ 0 → 0 ≤ o.1.toInt →
    ∃ pre st b, o.2.trace = pre ++ [.status st, .data b] ∧ Wait.dataReady.ready st = true ∧
      o.1 = b.setWidth 16)

theorem reports_iff_sound : Reports c channelStatus send ms flags ↔
    Sound ms flags (ps2SendInternal c channelStatus send ms flags ⟨0, 0, []⟩) :=
  ⟨fun h => ⟨h.timeouts, h.response⟩, fun h => ⟨h.1, h.2⟩⟩

/-- The last poll of a wait that was answered is the one with the answer. -/
theorem Polled.bytes {w : Wait} {p n m : Nat} (hm : Polled c w p n m) (hans : Answered c w p n) :
    ∃ k, First c w p n k ∧ bytes c p m = bytes c p k ++ [c.status (p + k)] := by
  rcases hm with ⟨k, hk, rfl⟩ | ⟨hnone, _⟩
  · exact ⟨k, hk, by simp [Ps2.bytes, List.range_succ]⟩
  · exact absurd hans hnone

/-- The end of `ps2_send_internal`, when `before` is what the accesses so far say about timeouts. -/
theorem readResponse_sound {s : Conn} {before : Prop} (hms : 0 < budget ms)
    (hs : ∀ r t, Timely ms r (s.trace ++ t) ↔ before ∧ Timely ms r t) :
    Sound ms flags (readResponse c (budget ms) flags s) ↔ before ∧
      (flags &&& maskResponse ≠ 0 → Answered c .dataReady s.polls (budget ms).toNat) := by
  by_cases hresp : flags &&& maskResponse ≠ 0
  · obtain ⟨m, hm, hread⟩ := readResponse_eq (c := c) hms hresp s
    have htimely : ∀ r, Timely ms r (.wait .dataReady ::
        ((bytes c s.polls m).map .status ++ [.data (c.data s.reads)])) ↔
        Answered c .dataReady s.polls (budget ms).toNat := by
      intro r
      have h := timely_step (r := r) (u := []) (t := []) (e := .data (c.data s.reads))
        (Int.le_of_lt hms) hm rfl (by simp)
      simpa [timely_nil] using h
    rw [hread, Sound, hs, htimely]
    constructor
    · intro h
      exact ⟨h.1.1, fun _ => h.1.2⟩
    · intro h
      obtain ⟨k, hk, hbytes⟩ := hm.bytes (h.2 hresp)
      refine ⟨⟨h.1, h.2 hresp⟩, fun _ _ => ⟨s.trace ++ .wait .dataReady ::
        (Ps2.bytes c s.polls k).map .status, c.status (s.polls + k), c.data s.reads, ?_, hk.2.1, rfl⟩⟩
      rw [hbytes]
      simp
  · rw [readResponse, if_neg hresp, Sound]
    have h := hs success []
    rw [List.append_nil] at h
    rw [h]
    constructor
    · intro hbefore
      exact ⟨hbefore.1.1, fun hflag => absurd hflag hresp⟩
    · intro hbefore
      exact ⟨⟨hbefore.1, timely_nil⟩, fun hflag => absurd hflag hresp⟩

theorem First.unique {w : Wait} {p n k k' : Nat} (h : First c w p n k) (h' : First c w p n k') :
    k = k' := by
  obtain ⟨_, hready, hbefore⟩ := h
  obtain ⟨_, hready', hbefore'⟩ := h'
  rcases Nat.lt_trichotomy k k' with hlt | heq | hgt
  · rw [hbefore' k hlt] at hready
    cases hready
  · exact heq
  · rw [hbefore k' hgt] at hready'
    cases hready'

theorem writeByte_sound {s : Conn} {b : Byte} (hms : 0 < budget ms) (hs : ∀ w, .wait w ∉ s.trace) :
    Sound ms flags (writeByte c (budget ms) flags b s) ↔
      ∃ k, First c .bufferReady s.polls (budget ms).toNat k ∧ (flags &&& maskResponse ≠ 0 →
        Answered c .dataReady (s.polls + (k + 1)) (budget ms).toNat) := by
  obtain ⟨m, hm, hwrite⟩ := writeByte_eq (c := c) hms flags b s
  have hbefore : ∀ r t, Timely ms r ((s.trace ++ .wait .bufferReady ::
      ((bytes c s.polls m).map .status ++ [.writeData b])) ++ t) ↔
      Answered c .bufferReady s.polls (budget ms).toNat ∧ Timely ms r t := by
    intro r t
    rw [← timely_step (Int.le_of_lt hms) hm (e := .writeData b) rfl hs]
    simp
  rw [hwrite, readResponse_sound hms hbefore]
  constructor
  · rintro ⟨⟨i, hi, hready⟩, hresp⟩
    rcases hm with ⟨k, hk, rfl⟩ | ⟨hnone, _⟩
    · exact ⟨k, hk, hresp⟩
    · exact absurd ⟨i, hi, hready⟩ hnone
  · rintro ⟨k, hk, hresp⟩
    have hans : Answered c .bufferReady s.polls (budget ms).toNat := ⟨k, hk.1, hk.2.1⟩
    rcases hm with ⟨k', hk', rfl⟩ | ⟨hnone, _⟩
    · rw [hk'.unique hk]
      exact ⟨hans, hresp⟩
    · exact absurd hans hnone

/-- A negative budget: nothing is polled, and both waits fail. -/
theorem readResponse_neg {s : Conn} (hms : budget ms < 0) :
    Sound ms flags (readResponse c (budget ms) flags s) := by
  refine ⟨timely_of_neg hms _, fun hresp hnonneg => ?_⟩
  rw [readResponse, if_pos hresp, waitReady_neg hms] at hnonneg
  have herr : 0 ≤ errOutputBufferEmpty.toInt := hnonneg
  exact absurd herr (by decide)

theorem writeByte_neg {s : Conn} {b : Byte} (hms : budget ms < 0) :
    Sound ms flags (writeByte c (budget ms) flags b s) := by
  refine ⟨timely_of_neg hms _, fun hresp hnonneg => ?_⟩
  rw [writeByte, waitReady_neg hms] at hnonneg
  have herr : 0 ≤ errInputBufferFull.toInt := hnonneg
  exact absurd herr (by decide)

theorem sound_unusable : Sound ms flags (errNoUsableChannel, ⟨0, 0, []⟩) :=
  ⟨timely_nil, fun _ h => absurd h (by decide)⟩

theorem ps2SendInternal_unusable (h : ¬ Usable channelStatus flags) (s : Conn) :
    ps2SendInternal c channelStatus send ms flags s = (errNoUsableChannel, s) := by
  unfold Usable at h
  unfold ps2SendInternal
  grind

/-- What is sent when a channel is usable. The accesses before the first wait are no waits. -/
theorem ps2SendInternal_usable (h : Usable channelStatus flags) (c : Ctrl) (send : BitVec 16)
    (ms : Int) :
    ∃ (s : Conn) (b : Byte), s.polls = 0 ∧ (∀ w, .wait w ∉ s.trace) ∧
      ps2SendInternal c channelStatus send ms flags ⟨0, 0, []⟩ =
        if flags &&& maskData ≠ 0 ∨ flags &&& maskDouble ≠ 0 then writeByte c (budget ms) flags b s
        else readResponse c (budget ms) flags s := by
  unfold Usable at h
  unfold ps2SendInternal
  by_cases hdata : flags &&& maskData ≠ 0
  · by_cases hsecond : flags &&& maskSecond ≠ 0
    · rw [if_pos hdata, if_pos hsecond] at h
      refine ⟨Conn.add ⟨0, 0, []⟩ (.writeStatus 0xD4), send.setWidth 8, rfl, by simp [Conn.add], ?_⟩
      simp only [hdata, hsecond, h, ne_eq, not_true_eq_false, not_false_eq_true, true_or, if_true,
        if_false]
      rfl
    · rw [if_pos hdata, if_neg hsecond] at h
      refine ⟨⟨0, 0, []⟩, send.setWidth 8, rfl, by simp, ?_⟩
      simp only [hdata, hsecond, h, ne_eq, not_true_eq_false, not_false_eq_true, true_or, if_true,
        if_false]
      rfl
  · rw [if_neg hdata] at h
    have hgo : ¬ (channelStatus &&& 0xFF ≠ 0 ∧ channelStatus &&& 0xFF00 ≠ 0) := by tauto
    refine ⟨Conn.add ⟨0, 0, []⟩ (.writeStatus (send.setWidth 8)), (send >>> 8).setWidth 8, rfl,
      by simp [Conn.add], ?_⟩
    simp only [if_neg hgo, hdata, false_or]
    rfl

/-- Timeouts are reported exactly when there are none to report: when no channel is usable, when the
budget is negative, or when every wait that the flags ask for is answered in time. -/
theorem reports_iff (c : Ctrl) (channelStatus send : BitVec 16) (ms : Int) (flags : BitVec 16) :
    Reports c channelStatus send ms flags ↔
      ¬ Usable channelStatus flags ∨ ms < 0 ∨ Served c ms flags := by
  rw [reports_iff_sound]
  by_cases husable : Usable channelStatus flags
  · obtain ⟨s, b, hpolls, hs, hsend⟩ := ps2SendInternal_usable husable c send ms
    rw [hsend]
    by_cases hneg : ms < 0
    · have hbudget : budget ms < 0 := by rw [budget, if_neg (by omega)]; exact hneg
      refine iff_of_true ?_ (.inr (.inl hneg))
      split
      · exact writeByte_neg hbudget
      · exact readResponse_neg hbudget
    · have hbudget : 0 < budget ms := by unfold budget toDefault; split <;> omega
      simp only [husable, hneg, not_true_eq_false, false_or, Served]
      split
      · rw [writeByte_sound hbudget hs, hpolls]
        simp
      · have hbefore : ∀ r t, Timely ms r (s.trace ++ t) ↔ True ∧ Timely ms r t := by
          intro r t
          rw [timely_append hs, true_and]
        rw [readResponse_sound hbudget hbefore, hpolls, true_and]
  · rw [ps2SendInternal_unusable husable]
    exact iff_of_true sound_unusable (.inl husable)

/-- A controller that never answers: with a budget of one poll, the byte read afterwards is returned
as if it were the answer. -/
theorem not_reports_silent : ¬ Reports ⟨fun _ => 0, fun _ => 0x55⟩ 0 0xAA 1 maskResponse := by
  intro h
  have htimeout := h.timeouts [.writeStatus 0xAA] .dataReady [.status 0, .data 0x55] (by decide)
    [0] [.data 0x55] rfl rfl (by decide)
  exact absurd htimeout.1 (by decide)

end Result
end Ps2
end Frod
