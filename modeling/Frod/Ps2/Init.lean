import Mathlib.Data.List.Infix
import Frod.Ps2.Send

/-!
# Frod.Ps2.Init

Interface tests in `ps2_init`.

No wait of `ps2_init` fails (`waitReady_eq`), so what it says to the controller depends only on the
bytes read from the data port. They come in a fixed order: a flushed byte, the configuration byte,
the answer to the self-test, the configuration byte again, the answers to the interface tests, once
more the configuration byte, and the answers to the resets.

Step 6 asks whether the answer to a test is negative and not whether it is `PS2_CMD_TEST_SUCCESS`, so
a channel that fails its test is enabled like one that passes it.
-/

namespace Frod
namespace Ps2

/-- What is said, without the polls. -/
def Event.isTalk : Event → Bool
  | .wait _ => false
  | .status _ => false
  | _ => true

def Conn.talk (s : Conn) : List Event := s.trace.filter Event.isTalk

/-- The interface test of channel 1 or 2 was answered with `PS2_CMD_TEST_SUCCESS`. -/
def Passed (talk : List Event) (second : Bool) : Prop :=
  [.writeStatus (if second then 0xA9 else 0xAB), .data 0] <:+: talk

/-- The reset of channel 1 or 2 was acknowledged: a byte for the data port goes to the first channel
unless `PS2_CMD_SEL_2ND` comes right before it. -/
def Acked (talk : List Event) (second : Bool) : Prop :=
  if second then [.writeStatus 0xD4, .writeData 0xFF, .data 0xFA] <:+: talk
  else ∃ pre post, talk = pre ++ [.writeData 0xFF, .data 0xFA] ++ post ∧
    pre.getLast? ≠ some (.writeStatus 0xD4)

/-- Calls of `ps2_register` one after the other. -/
def registerAll (d : Driver) (calls : List (Nat × List Byte × Int)) : Driver :=
  calls.foldl (fun d call => (ps2Register call.1 call.2.1 call.2.2 d).2) d

/-- From the test of the first channel on: step 7 is in this part and step 5 is not. -/
def fromTests (talk : List Event) : List Event := talk.dropWhile fun e => e ≠ .writeStatus 0xAB

/-- A channel that fails its test is not used. -/
structure OnlyTested (c : Ctrl) : Prop where
  enableFirst : .writeStatus 0xAE ∈ (ps2Init c Driver.start).2.conn.talk →
    Passed (ps2Init c Driver.start).2.conn.talk false
  enableSecond : .writeStatus 0xA8 ∈ fromTests (ps2Init c Driver.start).2.conn.talk →
    Passed (ps2Init c Driver.start).2.conn.talk true
  interruptFirst : ∀ b, [.writeStatus 0x60, .writeData b] <:+: (ps2Init c Driver.start).2.conn.talk →
    b &&& 1 ≠ 0 → Passed (ps2Init c Driver.start).2.conn.talk false
  interruptSecond : ∀ b, [.writeStatus 0x60, .writeData b] <:+: (ps2Init c Driver.start).2.conn.talk →
    b &&& 2 ≠ 0 → Passed (ps2Init c Driver.start).2.conn.talk true
  register : ∀ calls handler name n,
    (ps2Register handler name n (registerAll (ps2Init c Driver.start).2 calls)).1 = success.setWidth 8 →
      (n = 1 ∧ Passed (ps2Init c Driver.start).2.conn.talk false ∧
        Acked (ps2Init c Driver.start).2.conn.talk false) ∨
      (n = 2 ∧ Passed (ps2Init c Driver.start).2.conn.talk true ∧
        Acked (ps2Init c Driver.start).2.conn.talk true)

/-! ## What is said in each step -/

section Steps

variable {c : Ctrl} {d : Driver} {cs : BitVec 16} {n : Nat} {t : List Event}

/-- Where `ps2_init` stands: the status of the channels, the number of bytes read from the data port
and what was said. -/
structure At (d : Driver) (cs : BitVec 16) (n : Nat) (t : List Event) : Prop where
  channelStatus : d.channelStatus = cs
  reads : d.conn.reads = n
  talk : d.conn.talk = t

theorem filter_status (l : List Byte) : (l.map Event.status).filter Event.isTalk = [] := by
  simp [List.filter_eq_nil_iff, Event.isTalk]

theorem readResponse_talk {flags : BitVec 16} (hresp : flags &&& maskResponse ≠ 0) (s : Conn) :
    ∃ s', readResponse c toDefault flags s = ((c.data s.reads).setWidth 16, s') ∧
      s'.reads = s.reads + 1 ∧ s'.talk = s.talk ++ [.data (c.data s.reads)] := by
  obtain ⟨m, _, hread⟩ := readResponse_eq (c := c) (by decide : 0 < toDefault) hresp s
  refine ⟨_, hread, rfl, ?_⟩
  simp [Conn.talk, filter_status, Event.isTalk]

theorem writeByte_talk (flags : BitVec 16) (b : Byte) (s : Conn) :
    ∃ s', writeByte c toDefault flags b s = readResponse c toDefault flags s' ∧
      s'.reads = s.reads ∧ s'.talk = s.talk ++ [.writeData b] := by
  obtain ⟨m, _, hwrite⟩ := writeByte_eq (c := c) (by decide : 0 < toDefault) flags b s
  refine ⟨_, hwrite, rfl, ?_⟩
  simp [Conn.talk, filter_status, Event.isTalk]

theorem talk_add (s : Conn) (e : Event) (he : e.isTalk = true) : (s.add e).talk = s.talk ++ [e] := by
  simp [Conn.talk, Conn.add, he]

theorem ps2SendCmd_at (h : At d cs n t) (hcs : cs &&& 0xFF = 0) (cmd : Byte) :
    At (ps2SendCmd c cmd 0 d).2 cs n (t ++ [.writeStatus cmd]) := by
  obtain ⟨rfl, rfl, rfl⟩ := h
  have hsend : ps2SendInternal c d.channelStatus (cmd.setWidth 16) 0 0 d.conn =
      (success, d.conn.add (.writeStatus cmd)) := by
    rw [ps2SendInternal, if_neg (by decide), if_neg fun h => h.1 hcs]
    simp [readResponse]
  rw [ps2SendCmd, send, hsend]
  exact ⟨rfl, rfl, talk_add _ _ rfl⟩

theorem ps2SendCmdResp_at (h : At d cs n t) (hcs : cs &&& 0xFF = 0) (cmd : Byte) :
    ∃ d', ps2SendCmdResp c cmd 0 d = ((c.data n).setWidth 16, d') ∧
      At d' cs (n + 1) (t ++ [.writeStatus cmd, .data (c.data n)]) := by
  obtain ⟨rfl, rfl, rfl⟩ := h
  have hsend : ps2SendInternal c d.channelStatus (cmd.setWidth 16) 0 maskResponse d.conn =
      readResponse c toDefault maskResponse (d.conn.add (.writeStatus cmd)) := by
    rw [ps2SendInternal, if_neg (by decide), if_neg fun h => h.1 hcs, if_neg (by decide)]
    simp
  obtain ⟨s, hread, hreads, htalk⟩ := readResponse_talk (c := c)
    (by decide : maskResponse &&& maskResponse ≠ 0) (d.conn.add (.writeStatus cmd))
  refine ⟨{ d with conn := s }, ?_, rfl, hreads, ?_⟩
  · rw [ps2SendCmdResp, send, hsend, hread]
    rfl
  · rw [htalk, talk_add _ _ rfl, List.append_assoc]
    rfl

theorem ps2SendCmdDouble_at (h : At d cs n t) (hcs : cs &&& 0xFF = 0) (cmd cmd2 : Byte) :
    At (ps2SendCmdDouble c cmd 0 cmd2 d).2 cs n (t ++ [.writeStatus cmd, .writeData cmd2]) := by
  obtain ⟨rfl, rfl, rfl⟩ := h
  have hlow : (cmd2.setWidth 16 <<< 8 ||| cmd.setWidth 16).setWidth 8 = cmd := by
    apply BitVec.eq_of_getLsbD_eq
    intro i hi
    simp [hi]
  have hhigh : ((cmd2.setWidth 16 <<< 8 ||| cmd.setWidth 16) >>> 8).setWidth 8 = cmd2 := by
    apply BitVec.eq_of_getLsbD_eq
    intro i hi
    have h : 8 + i < 16 := by omega
    simp [hi, h, BitVec.getLsbD_of_ge]
  have hsend : ps2SendInternal c d.channelStatus (cmd2.setWidth 16 <<< 8 ||| cmd.setWidth 16) 0
      maskDouble d.conn = writeByte c toDefault maskDouble cmd2 (d.conn.add (.writeStatus cmd)) := by
    rw [ps2SendInternal, if_neg (by decide), if_neg fun h => h.1 hcs, if_pos (by decide), hlow, hhigh]
    simp
  obtain ⟨s, hwrite, hreads, htalk⟩ := writeByte_talk (c := c) maskDouble cmd2
    (d.conn.add (.writeStatus cmd))
  have hread : readResponse c toDefault maskDouble s = (success, s) := if_neg (by decide)
  rw [ps2SendCmdDouble, send, hsend, hwrite, hread]
  refine ⟨rfl, hreads, ?_⟩
  rw [htalk, talk_add _ _ rfl, List.append_assoc]
  rfl

theorem ps2SendDataResponse_at (h : At d cs n t) (hcs : cs &&& 0xFF = 0) (data : Byte) :
    ∃ d', ps2SendDataResponse c data 0 d = ((c.data n).setWidth 16, d') ∧
      At d' cs (n + 1) (t ++ [.writeData data, .data (c.data n)]) := by
  obtain ⟨rfl, rfl, rfl⟩ := h
  have hsend : ps2SendInternal c d.channelStatus (data.setWidth 16) 0 (maskData ||| maskResponse)
      d.conn = writeByte c toDefault (maskData ||| maskResponse) data d.conn := by
    rw [ps2SendInternal, if_pos (by decide), if_neg (by decide), if_neg (not_not.mpr hcs)]
    simp
  obtain ⟨s, hwrite, hreads, htalk⟩ := writeByte_talk (c := c) (maskData ||| maskResponse) data d.conn
  obtain ⟨s', hread, hreads', htalk'⟩ := readResponse_talk (c := c)
    (by decide : (maskData ||| maskResponse) &&& maskResponse ≠ 0) s
  refine ⟨{ d with conn := s' }, ?_, rfl, ?_, ?_⟩
  · rw [ps2SendDataResponse, send, hsend, hwrite, hread, hreads]
  · rw [hreads', hreads]
  · rw [htalk', htalk, hreads, List.append_assoc]
    rfl

theorem ps2SendDataResponseSecond_at (h : At d cs n t) (hcs : cs &&& 0xFF00 = 0) (data : Byte) :
    ∃ d', ps2SendDataResponseSecond c data 0 d = ((c.data n).setWidth 16, d') ∧
      At d' cs (n + 1) (t ++ [.writeStatus 0xD4, .writeData data, .data (c.data n)]) := by
  obtain ⟨rfl, rfl, rfl⟩ := h
  have hsend : ps2SendInternal c d.channelStatus (data.setWidth 16) 0
      (maskData ||| maskResponse ||| maskSecond) d.conn =
      writeByte c toDefault (maskData ||| maskResponse ||| maskSecond) data
        (d.conn.add (.writeStatus 0xD4)) := by
    rw [ps2SendInternal, if_pos (by decide), if_pos (by decide), if_neg (not_not.mpr hcs)]
    simp
  obtain ⟨s, hwrite, hreads, htalk⟩ := writeByte_talk (c := c)
    (maskData ||| maskResponse ||| maskSecond) data (d.conn.add (.writeStatus 0xD4))
  obtain ⟨s', hread, hreads', htalk'⟩ := readResponse_talk (c := c)
    (by decide : (maskData ||| maskResponse ||| maskSecond) &&& maskResponse ≠ 0) s
  have hbefore : s.reads = d.conn.reads := hreads
  refine ⟨{ d with conn := s' }, ?_, rfl, ?_, ?_⟩
  · rw [ps2SendDataResponseSecond, send, hsend, hwrite, hread, hbefore]
  · rw [hreads', hbefore]
  · rw [htalk', htalk, hbefore, talk_add _ _ rfl]
    simp

theorem response_nonneg (b : Byte) : ¬ (b.setWidth 16).toInt < 0 := by
  have hb := b.isLt
  rw [BitVec.toInt_eq_toNat_cond]
  simp
  omega

theorem response_byte (b : Byte) : (b.setWidth 16).setWidth 8 = b := by
  simp

theorem inbData_at (h : At d cs n t) :
    At { d with conn := (d.conn.inbData c).2 } cs (n + 1) (t ++ [.data (c.data n)]) := by
  obtain ⟨rfl, rfl, rfl⟩ := h
  exact ⟨rfl, rfl, talk_add _ _ rfl⟩

theorem disable_at (h : At d cs n t) (hcs : cs &&& 0xFF = 0) :
    ∃ d', Driver.disable c d = (none, d') ∧
      At d' cs (n + 1) (t ++ [.writeStatus 0xAD, .writeStatus 0xA7, .data (c.data n)]) := by
  have hfirst := ps2SendCmd_at (c := c) h hcs 0xAD
  have hsecond := ps2SendCmd_at (c := c) hfirst hcs 0xA7
  have hdata := inbData_at (c := c) hsecond
  rw [List.append_assoc, List.append_assoc] at hdata
  refine ⟨_, ?_, hdata⟩
  rfl

/-- The configuration byte of step 3. -/
def quiet (b : Byte) : Byte := b &&& ~~~1 &&& ~~~2 &&& ~~~0x40

theorem configure_at (h : At d cs n t) (hcs : cs &&& 0xFF = 0) :
    ∃ d', Driver.configure c d = (none, d') ∧ At d' cs (n + 1)
      (t ++ [.writeStatus 0x20, .data (c.data n), .writeStatus 0x60, .writeData (quiet (c.data n))]) := by
  obtain ⟨d', hsend, h'⟩ := ps2SendCmdResp_at (c := c) h hcs 0x20
  have hdouble := ps2SendCmdDouble_at (c := c) h' hcs 0x60 (quiet (c.data n))
  refine ⟨_, ?_, by simpa using hdouble⟩
  simp only [Driver.configure, hsend, if_neg (response_nonneg _), response_byte]
  rfl

theorem selfTest_pass (h : At d cs n t) (hcs : cs &&& 0xFF = 0) (hpass : c.data n = 0x55) :
    ∃ d', Driver.selfTest c d = (none, d') ∧
      At d' cs (n + 1) (t ++ [.writeStatus 0xAA, .data (c.data n)]) := by
  obtain ⟨d', hsend, h'⟩ := ps2SendCmdResp_at (c := c) h hcs 0xAA
  refine ⟨d', ?_, h'⟩
  simp only [Driver.selfTest, hsend, if_neg (response_nonneg _), response_byte,
    if_neg (not_not.mpr hpass)]

theorem selfTest_fail (h : At d cs n t) (hcs : cs &&& 0xFF = 0) (hfail : c.data n ≠ 0x55) :
    ∃ d', Driver.selfTest c d = (some errSelfTestFailure, d') ∧
      At d' 0x0101 (n + 1) (t ++ [.writeStatus 0xAA, .data (c.data n)]) := by
  obtain ⟨d', hsend, h'⟩ := ps2SendCmdResp_at (c := c) h hcs 0xAA
  refine ⟨{ d' with channelStatus := 0x0101 }, ?_, rfl, h'.reads, h'.talk⟩
  simp only [Driver.selfTest, hsend, if_neg (response_nonneg _), response_byte, if_pos hfail]

theorem clock_iff (b : Byte) : b.setWidth 16 &&& 0xFF &&& 0x20 = 0 ↔ b &&& 0x20 = 0 := by
  revert b
  decide

theorem checkSecond_one (h : At d cs n t) (hcs : cs &&& 0xFF = 0) (hone : c.data n &&& 0x20 ≠ 0) :
    ∃ d', Driver.checkSecond c d = (none, d') ∧ At d' 0x0400 (n + 1)
      (t ++ [.writeStatus 0xA8, .writeStatus 0x20, .data (c.data n)]) := by
  obtain ⟨d', hsend, h'⟩ := ps2SendCmdResp_at (c := c) (ps2SendCmd_at (c := c) h hcs 0xA8) hcs 0x20
  refine ⟨{ d' with channelStatus := 0x0400 }, ?_, rfl, h'.reads, by simpa using h'.talk⟩
  simp only [Driver.checkSecond, hsend, if_neg (response_nonneg _),
    if_pos (mt (clock_iff _).mp hone)]

theorem checkSecond_two (h : At d cs n t) (hcs : cs &&& 0xFF = 0) (htwo : c.data n &&& 0x20 = 0) :
    ∃ d', Driver.checkSecond c d = (none, d') ∧ At d' cs (n + 1)
      (t ++ [.writeStatus 0xA8, .writeStatus 0x20, .data (c.data n), .writeStatus 0xA7]) := by
  obtain ⟨d', hsend, h'⟩ := ps2SendCmdResp_at (c := c) (ps2SendCmd_at (c := c) h hcs 0xA8) hcs 0x20
  have hdisable := ps2SendCmd_at (c := c) h' hcs 0xA7
  refine ⟨_, ?_, by simpa using hdisable⟩
  simp only [Driver.checkSecond, hsend, if_neg (response_nonneg _),
    if_neg (not_not.mpr ((clock_iff _).mpr htwo))]
  rfl

theorem testFirst_at (h : At d cs n t) (hcs : cs &&& 0xFF = 0) :
    ∃ d', Driver.testFirst c d = (none, d') ∧
      At d' cs (n + 1) (t ++ [.writeStatus 0xAB, .data (c.data n)]) := by
  obtain ⟨d', hsend, h'⟩ := ps2SendCmdResp_at (c := c) h hcs 0xAB
  refine ⟨d', ?_, h'⟩
  simp only [Driver.testFirst, hsend, if_neg (response_nonneg _)]

theorem testSecond_one (h : At d 0x0400 n t) :
    Driver.testSecond c d = (none, d) := by
  have hbroken : ¬ (0x0400 : BitVec 16) &&& 0xFF00 = 0 := by decide
  simp only [Driver.testSecond, h.channelStatus, if_neg hbroken]
  rfl

theorem testSecond_two (h : At d 0 n t) :
    ∃ d', Driver.testSecond c d = (none, d') ∧
      At d' 0 (n + 1) (t ++ [.writeStatus 0xA9, .data (c.data n)]) := by
  obtain ⟨d', hsend, h'⟩ := ps2SendCmdResp_at (c := c) h (by decide) 0xA9
  refine ⟨d', ?_, h'⟩
  have hnone : (0 : BitVec 16) &&& 0xFF00 = 0 := by decide
  simp only [Driver.testSecond, hsend, h.channelStatus, if_pos hnone, if_neg (response_nonneg _),
    h'.channelStatus]
  rfl

theorem enable_one (h : At d 0x0400 n t) :
    ∃ d', Driver.enable c d = (none, d') ∧ At d' 0x0400 (n + 1)
      (t ++ [.writeStatus 0x20, .data (c.data n), .writeStatus 0xAE, .writeStatus 0x60,
        .writeData (c.data n ||| 1)]) := by
  obtain ⟨d', hsend, h'⟩ := ps2SendCmdResp_at (c := c) h (by decide) 0x20
  have hfirst := ps2SendCmd_at (c := c) h' (by decide) 0xAE
  have hdouble := ps2SendCmdDouble_at (c := c) hfirst (by decide) 0x60 (c.data n ||| 1)
  refine ⟨_, ?_, by simpa using hdouble⟩
  have hworks : (0x0400 : BitVec 16) &&& 0xFF = 0 := by decide
  have hbroken : ¬ (0x0400 : BitVec 16) &&& 0xFF00 = 0 := by decide
  simp only [Driver.enable, hsend, if_neg (response_nonneg _), response_byte, h'.channelStatus,
    if_pos hworks, hfirst.channelStatus, if_neg hbroken]
  rfl

theorem enable_two (h : At d 0 n t) :
    ∃ d', Driver.enable c d = (none, d') ∧ At d' 0 (n + 1)
      (t ++ [.writeStatus 0x20, .data (c.data n), .writeStatus 0xAE, .writeStatus 0xA8,
        .writeStatus 0x60, .writeData (c.data n ||| 1 ||| 2)]) := by
  obtain ⟨d', hsend, h'⟩ := ps2SendCmdResp_at (c := c) h (by decide) 0x20
  have hfirst := ps2SendCmd_at (c := c) h' (by decide) 0xAE
  have hsecond := ps2SendCmd_at (c := c) hfirst (by decide) 0xA8
  have hdouble := ps2SendCmdDouble_at (c := c) hsecond (by decide) 0x60 (c.data n ||| 1 ||| 2)
  refine ⟨_, ?_, by simpa using hdouble⟩
  have hfirst' : (0 : BitVec 16) &&& 0xFF = 0 := by decide
  have hsecond' : (0 : BitVec 16) &&& 0xFF00 = 0 := by decide
  simp only [Driver.enable, hsend, if_neg (response_nonneg _), response_byte, h'.channelStatus,
    if_pos hfirst', hfirst.channelStatus, if_pos hsecond']
  rfl

theorem resetFirst_at (h : At d cs n t) (hcs : cs &&& 0xFF = 0) :
    ∃ d', Driver.resetFirst c d = (none, d') ∧
      At d' (if c.data n = 0xFA then cs else cs ||| 4) (n + 1)
        (t ++ [.writeData 0xFF, .data (c.data n)]) := by
  obtain ⟨d', hsend, h'⟩ := ps2SendDataResponse_at (c := c) h hcs 0xFF
  rw [Driver.resetFirst, h.channelStatus, if_pos hcs, hsend]
  by_cases hack : c.data n = 0xFA
  · refine ⟨d', ?_, by rw [if_pos hack]; exact h'⟩
    simp only [response_byte, if_neg (not_not.mpr hack)]
  · refine ⟨{ d' with channelStatus := d'.channelStatus ||| 4 }, ?_, ?_, h'.reads, h'.talk⟩
    · simp only [response_byte, if_pos hack]
    · rw [if_neg hack, h'.channelStatus]

theorem resetSecond_at (h : At d cs n t) (hcs : cs &&& 0xFF00 = 0) :
    ∃ d', Driver.resetSecond c d = (none, d') ∧
      At d' (if c.data n = 0xFA then cs else cs ||| 0x0400) (n + 1)
        (t ++ [.writeStatus 0xD4, .writeData 0xFF, .data (c.data n)]) := by
  obtain ⟨d', hsend, h'⟩ := ps2SendDataResponseSecond_at (c := c) h hcs 0xFF
  rw [Driver.resetSecond, h.channelStatus, if_pos hcs, hsend]
  by_cases hack : c.data n = 0xFA
  · refine ⟨d', ?_, by rw [if_pos hack]; exact h'⟩
    simp only [response_byte, if_neg (not_not.mpr hack)]
  · refine ⟨{ d' with channelStatus := d'.channelStatus ||| (4 : BitVec 16) <<< 8 }, ?_, ?_,
      h'.reads, h'.talk⟩
    · simp only [response_byte, if_pos hack]
    · rw [if_neg hack, h'.channelStatus]
      rfl

theorem resetSecond_skip (h : At d cs n t) (hcs : cs &&& 0xFF00 ≠ 0) :
    Driver.resetSecond c d = (none, d) := by
  rw [Driver.resetSecond, h.channelStatus, if_neg hcs]

end Steps

/-! ## What is said altogether -/

section Talk

variable (c : Ctrl)

/-- Up to the answer to the self-test. -/
def opening : List Event :=
  [.writeStatus 0xAD, .writeStatus 0xA7, .data (c.data 0), .writeStatus 0x20, .data (c.data 1),
    .writeStatus 0x60, .writeData (quiet (c.data 1)), .writeStatus 0xAA, .data (c.data 2)]

/-- The rest of it when there is one channel, and when there are two. -/
def single : List Event :=
  [.writeStatus 0xA8, .writeStatus 0x20, .data (c.data 3), .writeStatus 0xAB, .data (c.data 4),
    .writeStatus 0x20, .data (c.data 5), .writeStatus 0xAE, .writeStatus 0x60,
    .writeData (c.data 5 ||| 1), .writeData 0xFF, .data (c.data 6)]

def dual : List Event :=
  [.writeStatus 0xA8, .writeStatus 0x20, .data (c.data 3), .writeStatus 0xA7, .writeStatus 0xAB,
    .data (c.data 4), .writeStatus 0xA9, .data (c.data 5), .writeStatus 0x20, .data (c.data 6),
    .writeStatus 0xAE, .writeStatus 0xA8, .writeStatus 0x60, .writeData (c.data 6 ||| 1 ||| 2),
    .writeData 0xFF, .data (c.data 7), .writeStatus 0xD4, .writeData 0xFF, .data (c.data 8)]

variable {c}

theorem start_at : At { Driver.start with registered := fun _ => ⟨0, [], false⟩ } 0 0 [] :=
  ⟨rfl, rfl, rfl⟩

theorem ps2Init_failed (hfail : c.data 2 ≠ 0x55) :
    At (ps2Init c Driver.start).2 0x0101 3 (opening c) := by
  obtain ⟨d₁, h₁, at₁⟩ := disable_at (c := c) start_at (by decide)
  obtain ⟨d₂, h₂, at₂⟩ := configure_at (c := c) at₁ (by decide)
  obtain ⟨d₃, h₃, at₃⟩ := selfTest_fail (c := c) at₂ (by decide) hfail
  simp only [ps2Init, Driver.runSteps, h₁, h₂, h₃]
  exact at₃

theorem ps2Init_single (hpass : c.data 2 = 0x55) (hone : c.data 3 &&& 0x20 ≠ 0) :
    At (ps2Init c Driver.start).2 (if c.data 6 = 0xFA then 0x0400 else 0x0404) 7
      (opening c ++ single c) := by
  obtain ⟨d₁, h₁, at₁⟩ := disable_at (c := c) start_at (by decide)
  obtain ⟨d₂, h₂, at₂⟩ := configure_at (c := c) at₁ (by decide)
  obtain ⟨d₃, h₃, at₃⟩ := selfTest_pass (c := c) at₂ (by decide) hpass
  obtain ⟨d₄, h₄, at₄⟩ := checkSecond_one (c := c) at₃ (by decide) hone
  obtain ⟨d₅, h₅, at₅⟩ := testFirst_at (c := c) at₄ (by decide)
  have h₆ := testSecond_one (c := c) at₅
  obtain ⟨d₇, h₇, at₇⟩ := enable_one (c := c) at₅
  obtain ⟨d₈, h₈, at₈⟩ := resetFirst_at (c := c) at₇ (by decide)
  have h₉ := resetSecond_skip (c := c) at₈ (by split <;> decide)
  simp only [ps2Init, Driver.runSteps, h₁, h₂, h₃, h₄, h₅, h₆, h₇, h₈, h₉]
  exact at₈

theorem ps2Init_dual (hpass : c.data 2 = 0x55) (htwo : c.data 3 &&& 0x20 = 0) :
    At (ps2Init c Driver.start).2
      ((if c.data 7 = 0xFA then 0 else 4) ||| (if c.data 8 = 0xFA then 0 else 0x0400)) 9
      (opening c ++ dual c) := by
  obtain ⟨d₁, h₁, at₁⟩ := disable_at (c := c) start_at (by decide)
  obtain ⟨d₂, h₂, at₂⟩ := configure_at (c := c) at₁ (by decide)
  obtain ⟨d₃, h₃, at₃⟩ := selfTest_pass (c := c) at₂ (by decide) hpass
  obtain ⟨d₄, h₄, at₄⟩ := checkSecond_two (c := c) at₃ (by decide) htwo
  obtain ⟨d₅, h₅, at₅⟩ := testFirst_at (c := c) at₄ (by decide)
  obtain ⟨d₆, h₆, at₆⟩ := testSecond_two (c := c) at₅
  obtain ⟨d₇, h₇, at₇⟩ := enable_two (c := c) at₆
  obtain ⟨d₈, h₈, at₈⟩ := resetFirst_at (c := c) at₇ (by decide)
  obtain ⟨d₉, h₉, at₉⟩ := resetSecond_at (c := c) at₈ (by split <;> decide)
  simp only [ps2Init, Driver.runSteps, h₁, h₂, h₃, h₄, h₅, h₆, h₇, h₈, h₉]
  refine ⟨?_, at₉.reads, at₉.talk⟩
  rw [at₉.channelStatus]
  split <;> split <;> rfl

/-! What stands in it. -/

theorem passed_single : Passed (opening c ++ single c) false ↔ c.data 4 = 0 := by
  simp [Passed, opening, single, List.infix_cons_iff, List.cons_prefix_cons]
  exact eq_comm

theorem not_passed_single : ¬ Passed (opening c ++ single c) true := by
  simp [Passed, opening, single, List.infix_cons_iff, List.cons_prefix_cons]

theorem passed_dual : (Passed (opening c ++ dual c) false ↔ c.data 4 = 0) ∧
    (Passed (opening c ++ dual c) true ↔ c.data 5 = 0) := by
  constructor <;> simp [Passed, opening, dual, List.infix_cons_iff, List.cons_prefix_cons] <;>
    exact eq_comm

/-- The configuration bytes that are written. -/
theorem config_opening {b : Byte} :
    [.writeStatus 0x60, .writeData b] <:+: opening c ↔ b = quiet (c.data 1) := by
  simp [opening, List.infix_cons_iff, List.cons_prefix_cons]

theorem config_single {b : Byte} : [.writeStatus 0x60, .writeData b] <:+: opening c ++ single c ↔
    b = quiet (c.data 1) ∨ b = c.data 5 ||| 1 := by
  simp [opening, single, List.infix_cons_iff, List.cons_prefix_cons]

theorem quiet_and (b : Byte) : quiet b &&& 1 = 0 ∧ quiet b &&& 2 = 0 := by
  revert b
  decide

theorem registerAll_channelStatus (d : Driver) (calls : List (Nat × List Byte × Int)) :
    (registerAll d calls).channelStatus = d.channelStatus := by
  induction calls generalizing d with
  | nil => rfl
  | cons call calls ih =>
    have hstep : (ps2Register call.1 call.2.1 call.2.2 d).2.channelStatus = d.channelStatus := by
      unfold ps2Register
      grind
    rw [← hstep]
    exact ih _

/-- `ps2_register` succeeds only on channels without an error. -/
theorem ps2Register_success {handler : Nat} {name : List Byte} {n : Int} {d : Driver}
    (h : (ps2Register handler name n d).1 = success.setWidth 8) :
    (n = 1 ∧ d.channelStatus &&& 0xFF = 0) ∨ (n = 2 ∧ d.channelStatus &&& 0xFF00 = 0) := by
  have hinvalid : errInvalidParam.setWidth 8 ≠ success.setWidth 8 := by decide
  have hbroken : errChannelBroken.setWidth 8 ≠ success.setWidth 8 := by decide
  unfold ps2Register at h
  split at h
  · exact absurd h hinvalid
  split at h
  · exact absurd h hbroken
  split at h
  · exact absurd h hbroken
  · grind

theorem register_status {cs : BitVec 16} {m : Nat} {t : List Event} {d : Driver} (h : At d cs m t)
    {calls : List (Nat × List Byte × Int)} {handler : Nat} {name : List Byte} {n : Int}
    (hreg : (ps2Register handler name n (registerAll d calls)).1 = success.setWidth 8) :
    (n = 1 ∧ cs &&& 0xFF = 0) ∨ (n = 2 ∧ cs &&& 0xFF00 = 0) := by
  have hsuccess := ps2Register_success hreg
  rwa [registerAll_channelStatus, h.channelStatus] at hsuccess

end Talk

section Result

variable {c : Ctrl}

/-- The tests of the channels that are there pass, and the second interrupt is not on already when
there is one channel. -/
def Healthy (c : Ctrl) : Prop :=
  c.data 4 = 0 ∧ if c.data 3 &&& 0x20 = 0 then c.data 5 = 0 else c.data 5 &&& 2 = 0

theorem onlyTested_failed (hfail : c.data 2 ≠ 0x55) : OnlyTested c := by
  have h := ps2Init_failed hfail
  constructor
  · rw [h.talk]
    simp [opening]
  · rw [h.talk]
    simp [opening, fromTests]
  · intro b hb hset
    rw [h.talk, config_opening] at hb
    exact absurd (hb ▸ (quiet_and _).1) hset
  · intro b hb hset
    rw [h.talk, config_opening] at hb
    exact absurd (hb ▸ (quiet_and _).2) hset
  · intro calls handler name n hreg
    rcases register_status h hreg with ⟨_, hcs⟩ | ⟨_, hcs⟩
    · exact absurd hcs (by decide)
    · exact absurd hcs (by decide)

theorem onlyTested_single (hpass : c.data 2 = 0x55) (hone : c.data 3 &&& 0x20 ≠ 0) :
    OnlyTested c ↔ c.data 4 = 0 ∧ c.data 5 &&& 2 = 0 := by
  have h := ps2Init_single hpass hone
  have hor : (c.data 5 ||| 1) &&& 2 = c.data 5 &&& 2 := by
    generalize c.data 5 = b
    revert b
    decide
  constructor
  · intro honly
    refine ⟨?_, ?_⟩
    · have hfirst := honly.enableFirst (by rw [h.talk]; simp [single])
      rwa [h.talk, passed_single] at hfirst
    · by_contra hset
      have hsecond := honly.interruptSecond (c.data 5 ||| 1)
        (by rw [h.talk, config_single]; exact .inr rfl) (by rwa [hor])
      rw [h.talk] at hsecond
      exact not_passed_single hsecond
  · rintro ⟨htest, hclear⟩
    have hpassed := passed_single.mpr htest
    rw [← h.talk] at hpassed
    constructor
    · exact fun _ => hpassed
    · rw [h.talk]
      simp [opening, single, fromTests]
    · exact fun _ _ _ => hpassed
    · intro b hb hset
      rw [h.talk, config_single] at hb
      rcases hb with rfl | rfl
      · exact absurd (quiet_and _).2 hset
      · exact absurd (hor.trans hclear) hset
    · intro calls handler name n hreg
      rcases register_status h hreg with ⟨hn, hcs⟩ | ⟨_, hcs⟩
      · refine .inl ⟨hn, hpassed, ?_⟩
        by_cases hack : c.data 6 = 0xFA
        · rw [h.talk]
          refine ⟨opening c ++ (single c).take 10, [], ?_, by simp [single]⟩
          simp [single, hack]
        · rw [if_neg hack] at hcs
          exact absurd hcs (by decide)
      · exact absurd hcs (by split <;> decide)

theorem onlyTested_dual (hpass : c.data 2 = 0x55) (htwo : c.data 3 &&& 0x20 = 0) :
    OnlyTested c ↔ c.data 4 = 0 ∧ c.data 5 = 0 := by
  have h := ps2Init_dual hpass htwo
  constructor
  · intro honly
    have hfirst := honly.enableFirst (by rw [h.talk]; simp [dual])
    have hsecond := honly.enableSecond (by rw [h.talk]; simp [opening, dual, fromTests])
    rw [h.talk] at hfirst hsecond
    exact ⟨passed_dual.1.mp hfirst, passed_dual.2.mp hsecond⟩
  · rintro ⟨htest, htest'⟩
    have hpassed := passed_dual.1.mpr htest
    have hpassed' := passed_dual.2.mpr htest'
    rw [← h.talk] at hpassed hpassed'
    refine ⟨fun _ => hpassed, fun _ => hpassed', fun _ _ _ => hpassed, fun _ _ _ => hpassed', ?_⟩
    intro calls handler name n hreg
    rcases register_status h hreg with ⟨hn, hcs⟩ | ⟨hn, hcs⟩
    · refine .inl ⟨hn, hpassed, ?_⟩
      by_cases hack : c.data 7 = 0xFA
      · rw [h.talk]
        refine ⟨opening c ++ (dual c).take 14, (dual c).drop 16, ?_, by simp [dual]⟩
        simp [dual, hack]
      · rw [if_neg hack] at hcs
        exact absurd hcs (by split <;> decide)
    · refine .inr ⟨hn, hpassed', ?_⟩
      by_cases hack : c.data 8 = 0xFA
      · rw [h.talk]
        refine ⟨opening c ++ (dual c).take 16, [], ?_⟩
        simp [dual, hack]
      · rw [if_neg hack] at hcs
        exact absurd hcs (by split <;> decide)

/-- Only tested channels are used exactly when the self-test fails, so that none is used, or when the
controller is healthy. -/
theorem onlyTested_iff (c : Ctrl) : OnlyTested c ↔ c.data 2 ≠ 0x55 ∨ Healthy c := by
  by_cases hpass : c.data 2 = 0x55
  · by_cases htwo : c.data 3 &&& 0x20 = 0
    · rw [onlyTested_dual hpass htwo, Healthy, if_pos htwo]
      simp [hpass]
    · rw [onlyTested_single hpass htwo, Healthy, if_neg htwo]
      simp [hpass]
  · exact iff_of_true (onlyTested_failed hpass) (.inl hpass)

/-- A controller with two channels that answers the test of the first one with
`PS2_CMD_TEST_CLOCK_STUCK`: the channel is enabled, its interrupt is turned on, and the keyboard is
registered on it. -/
def stuck : Ctrl where
  status := fun _ => 1
  data := fun n => [0, 0, 0x55, 0, 1, 0, 0, 0xFA, 0xFA].getD n 0

theorem not_onlyTested_stuck : ¬ OnlyTested stuck := by
  intro h
  have hreg := onlyTested_dual (c := stuck) (by decide) (by decide)
  exact absurd (hreg.mp h).1 (by decide)

end Result
end Ps2
end Frod
