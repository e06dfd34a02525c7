import Frod.Lib.BitArray
import Frod.Layout

/-!
# Frod.Ps2.Model

The PS/2 driver of `drv/ps2.c`.

The controller is arbitrary: it is the bytes that the successive reads of the status port and of the
data port return. What the driver does is a trace of port accesses, in which the start of a wait
stands as an event of its own. `int16_t` is `BitVec 16`, negative when its top bit is set.

The interrupt handlers, the messages about failed resets and the functions that nothing calls are
left out.
-/

namespace Frod
namespace Ps2

/-- The controller: the bytes the reads of its two ports return, one after the other. -/
structure Ctrl where
  status : Nat → Byte
  data : Nat → Byte

/-- What the driver waits for: `wait_buffer_ready` for room to write, `wait_data_ready` for an
answer. -/
inductive Wait where
  | bufferReady
  | dataReady
  deriving DecidableEq

inductive Event where
  | wait (w : Wait)
  | status (b : Byte)
  | data (b : Byte)
  | writeStatus (b : Byte)
  | writeData (b : Byte)
  deriving DecidableEq

/-- How many bytes were read from the two ports, and all accesses so far. -/
structure Conn where
  polls : Nat
  reads : Nat
  trace : List Event

/-- `PS2_SUCCESS`, `PS2_ERR_INPUT_BUFFER_FULL`, `PS2_ERR_OUTPUT_BUFFER_EMPTY`,
`PS2_ERR_SELF_TEST_FAILURE`, `PS2_ERR_NO_USABLE_CHANNEL`, `PS2_ERR_INVALID_PARAM`,
`PS2_ERR_CHANNEL_BROKEN`, `PS2_ERR_CHANNEL_ACTIVE`. -/
def success : BitVec 16 := 0
def errInputBufferFull : BitVec 16 := -1
def errOutputBufferEmpty : BitVec 16 := -2
def errSelfTestFailure : BitVec 16 := -3
def errNoUsableChannel : BitVec 16 := -4
def errInvalidParam : BitVec 16 := -5
def errChannelBroken : BitVec 16 := -6
def errChannelActive : BitVec 16 := -7

/-- The condition a wait is for, and the error when it is not met in time. -/
def Wait.ready : Wait → Byte → Bool
  | .bufferReady, b => b &&& 2 = 0
  | .dataReady, b => b &&& 1 ≠ 0

def Wait.error : Wait → BitVec 16
  | .bufferReady => errInputBufferFull
  | .dataReady => errOutputBufferEmpty

/-! ## Ports -/

namespace Conn

def add (s : Conn) (e : Event) : Conn := { s with trace := s.trace ++ [e] }

/-- `inb(PS2_PORT_READ_STATUS)`, `inb(PS2_PORT_READ_DATA)`. -/
def inbStatus (c : Ctrl) (s : Conn) : Byte × Conn :=
  (c.status s.polls, { s.add (.status (c.status s.polls)) with polls := s.polls + 1 })

def inbData (c : Ctrl) (s : Conn) : Byte × Conn :=
  (c.data s.reads, { s.add (.data (c.data s.reads)) with reads := s.reads + 1 })

/-- The loop of the two waits: what is left of `ms` when it ends. -/
def waitLoop (c : Ctrl) (w : Wait) : Nat → Conn → Nat × Conn
  | 0, s => (0, s)
  | ms + 1, s =>
    let (b, s) := s.inbStatus c
    if w.ready b then (ms + 1, s) else waitLoop c w ms s

/-- `wait_buffer_ready`, `wait_data_ready`. -/
def waitReady (c : Ctrl) (w : Wait) (ms : Int) (s : Conn) : Bool × Conn :=
  let s := s.add (.wait w)
  let (ms, s) : Int × Conn :=
    if ms > 0 then
      let (ms, s) := waitLoop c w ms.toNat s
      (ms, s)
    else (ms, s)
  if ms < 0 then (false, s) else (true, s)

end Conn

/-- `PS2_SEND_MASK_DATA`, `PS2_SEND_MASK_RESPONSE`, `PS2_SEND_MASK_SECOND`,
`PS2_SEND_MASK_DOUBLE`. -/
def maskData : BitVec 16 := 1
def maskResponse : BitVec 16 := 2
def maskSecond : BitVec 16 := 4
def maskDouble : BitVec 16 := 8

/-- `PS2_TO_DEFAULT`. -/
def toDefault : Int := 10000

/-- The end of `ps2_send_internal`. -/
def readResponse (c : Ctrl) (ms : Int) (flags : BitVec 16) (s : Conn) : BitVec 16 × Conn :=
  if flags &&& maskResponse ≠ 0 then
    match s.waitReady c .dataReady ms with
    | (false, s) => (errOutputBufferEmpty, s)
    | (true, s) =>
      let (b, s) := s.inbData c
      (b.setWidth 16, s)
  else (success, s)

/-- A byte to the data port once there is room, and the end of `ps2_send_internal`. -/
def writeByte (c : Ctrl) (ms : Int) (flags : BitVec 16) (b : Byte) (s : Conn) : BitVec 16 × Conn :=
  match s.waitReady c .bufferReady ms with
  | (false, s) => (errInputBufferFull, s)
  | (true, s) => readResponse c ms flags (s.add (.writeData b))

/-- `ps2_send_internal`, with the global `channel_status`. -/
def ps2SendInternal (c : Ctrl) (channelStatus send : BitVec 16) (ms : Int) (flags : BitVec 16)
    (s : Conn) : BitVec 16 × Conn :=
  let ms := if ms = 0 then toDefault else ms
  if flags &&& maskData ≠ 0 then
    if flags &&& maskSecond ≠ 0 then
      if channelStatus &&& 0xFF00 ≠ 0 then (errNoUsableChannel, s)
      else writeByte c ms flags (send.setWidth 8) (s.add (.writeStatus 0xD4))
    else if channelStatus &&& 0xFF ≠ 0 then (errNoUsableChannel, s)
    else writeByte c ms flags (send.setWidth 8) s
  else if channelStatus &&& 0xFF ≠ 0 ∧ channelStatus &&& 0xFF00 ≠ 0 then (errNoUsableChannel, s)
  else
    let s := s.add (.writeStatus (send.setWidth 8))
    if flags &&& maskDouble ≠ 0 then writeByte c ms flags ((send >>> 8).setWidth 8) s
    else readResponse c ms flags s

/-! ## The driver -/

/-- `ps2_devices`, with the callback as an address and the name as its characters. -/
structure Device where
  callback : Nat
  name : List Byte
  active : Bool
  deriving DecidableEq

/-- The globals of the driver. -/
structure Driver where
  channelStatus : BitVec 16
  registered : Fin 2 → Device
  conn : Conn

/-- `ps2_send_internal` on the globals. -/
def send (c : Ctrl) (x : BitVec 16) (ms : Int) (flags : BitVec 16) (d : Driver) :
    BitVec 16 × Driver :=
  let (r, s) := ps2SendInternal c d.channelStatus x ms flags d.conn
  (r, { d with conn := s })

def ps2SendCmd (c : Ctrl) (cmd : Byte) (ms : Int) (d : Driver) : BitVec 8 × Driver :=
  let (r, d) := send c (cmd.setWidth 16) ms 0 d
  (r.setWidth 8, d)

def ps2SendCmdResp (c : Ctrl) (cmd : Byte) (ms : Int) (d : Driver) : BitVec 16 × Driver :=
  send c (cmd.setWidth 16) ms maskResponse d

def ps2SendCmdDouble (c : Ctrl) (cmd : Byte) (ms : Int) (cmd2 : Byte) (d : Driver) :
    BitVec 8 × Driver :=
  let (r, d) := send c (cmd2.setWidth 16 <<< 8 ||| cmd.setWidth 16) ms maskDouble d
  (r.setWidth 8, d)

def ps2SendDataResponse (c : Ctrl) (data : Byte) (ms : Int) (d : Driver) : BitVec 16 × Driver :=
  send c (data.setWidth 16) ms (maskData ||| maskResponse) d

def ps2SendDataResponseSecond (c : Ctrl) (data : Byte) (ms : Int) (d : Driver) :
    BitVec 16 × Driver :=
  send c (data.setWidth 16) ms (maskData ||| maskResponse ||| maskSecond) d

namespace Driver

/-! The steps of `ps2_init`: what it returns, when it returns there, and the globals. -/

/-- Steps 1 and 2: disable the devices and flush the output buffer. -/
def disable (c : Ctrl) (d : Driver) : Option (BitVec 16) × Driver :=
  let (_, d) := ps2SendCmd c 0xAD 0 d
  let (_, d) := ps2SendCmd c 0xA7 0 d
  let (_, s) := d.conn.inbData c
  (none, { d with conn := s })

/-- Step 3: no interrupts and no translation in the configuration byte. -/
def configure (c : Ctrl) (d : Driver) : Option (BitVec 16) × Driver :=
  let (resp, d) := ps2SendCmdResp c 0x20 0 d
  if resp.toInt < 0 then (some resp, d)
  else
    let ccb := resp.setWidth 8 &&& ~~~1 &&& ~~~2 &&& ~~~0x40
    let (_, d) := ps2SendCmdDouble c 0x60 0 ccb d
    (none, d)

/-- Step 4. -/
def selfTest (c : Ctrl) (d : Driver) : Option (BitVec 16) × Driver :=
  let (resp, d) := ps2SendCmdResp c 0xAA 0 d
  if resp.toInt < 0 then (some resp, d)
  else if resp.setWidth 8 ≠ (0x55 : Byte) then
    (some errSelfTestFailure, { d with channelStatus := 0x0101 })
  else (none, d)

/-- Step 5: is there a second channel? -/
def checkSecond (c : Ctrl) (d : Driver) : Option (BitVec 16) × Driver :=
  let (_, d) := ps2SendCmd c 0xA8 0 d
  let (resp, d) := ps2SendCmdResp c 0x20 0 d
  if resp.toInt < 0 then (some resp, { d with channelStatus := 0x0202 })
  else if resp &&& 0xFF &&& 0x20 ≠ 0 then (none, { d with channelStatus := 0x0400 })
  else
    let (_, d) := ps2SendCmd c 0xA7 0 d
    (none, d)

/-- The two halves of step 6. -/
def testFirst (c : Ctrl) (d : Driver) : Option (BitVec 16) × Driver :=
  let (resp, d) := ps2SendCmdResp c 0xAB 0 d
  if resp.toInt < 0 then (none, { d with channelStatus := d.channelStatus ||| 0x08 })
  else (none, d)

def testSecond (c : Ctrl) (d : Driver) : Option (BitVec 16) × Driver :=
  let d :=
    if d.channelStatus &&& 0xFF00 = 0 then
      let (resp, d) := ps2SendCmdResp c 0xA9 0 d
      if resp.toInt < 0 then { d with channelStatus := d.channelStatus ||| 0x0800 } else d
    else d
  if d.channelStatus &&& 0xFF00 ≠ 0 ∧ d.channelStatus &&& 0xFF ≠ 0 then (some errNoUsableChannel, d)
  else (none, d)

/-- Step 7: enable the devices and the interrupts of the channels that work. -/
def enable (c : Ctrl) (d : Driver) : Option (BitVec 16) × Driver :=
  let (resp, d) := ps2SendCmdResp c 0x20 0 d
  if resp.toInt < 0 then (some resp, d)
  else
    let ccb : Byte := resp.setWidth 8
    let (ccb, d) :=
      if d.channelStatus &&& 0xFF = 0 then (ccb ||| 1, (ps2SendCmd c 0xAE 0 d).2) else (ccb, d)
    let (ccb, d) :=
      if d.channelStatus &&& 0xFF00 = 0 then (ccb ||| 2, (ps2SendCmd c 0xA8 0 d).2) else (ccb, d)
    let (_, d) := ps2SendCmdDouble c 0x60 0 ccb d
    (none, d)

/-- The two halves of step 8: reset the devices. -/
def resetFirst (c : Ctrl) (d : Driver) : Option (BitVec 16) × Driver :=
  if d.channelStatus &&& 0xFF = 0 then
    let (resp, d) := ps2SendDataResponse c 0xFF 0 d
    if resp.setWidth 8 ≠ (0xFA : Byte) then (none, { d with channelStatus := d.channelStatus ||| 4 })
    else (none, d)
  else (none, d)

def resetSecond (c : Ctrl) (d : Driver) : Option (BitVec 16) × Driver :=
  if d.channelStatus &&& 0xFF00 = 0 then
    let (resp, d) := ps2SendDataResponseSecond c 0xFF 0 d
    if resp.setWidth 8 ≠ (0xFA : Byte) then
      (none, { d with channelStatus := d.channelStatus ||| (4 : BitVec 16) <<< 8 })
    else (none, d)
  else (none, d)

/-- The steps one after the other, until one of them returns. -/
def runSteps (d : Driver) : List (Driver → Option (BitVec 16) × Driver) → BitVec 16 × Driver
  | [] => (d.channelStatus, d)
  | f :: fs =>
    match f d with
    | (some r, d) => (r, d)
    | (none, d) => runSteps d fs

end Driver

/-- `ps2_init`. -/
def ps2Init (c : Ctrl) (d : Driver) : BitVec 16 × Driver :=
  Driver.runSteps { d with registered := fun _ => ⟨0, [], false⟩ }
    [Driver.disable c, Driver.configure c, Driver.selfTest c, Driver.checkSecond c,
      Driver.testFirst c, Driver.testSecond c, Driver.enable c, Driver.resetFirst c,
      Driver.resetSecond c]

/-- `PS2_MAX_NAME_SZ`. -/
def maxNameSz : Nat := 32

/-- `ps2_register`; `strncpy` keeps the text up to its end, and room for the end. -/
def ps2Register (handler : Nat) (name : List Byte) (n : Int) (d : Driver) : BitVec 8 × Driver :=
  if n < 1 ∨ n > 2 then (errInvalidParam.setWidth 8, d)
  else if n = 1 ∧ d.channelStatus &&& 0xFF ≠ 0 then (errChannelBroken.setWidth 8, d)
  else if n = 2 ∧ d.channelStatus &&& 0xFF00 ≠ 0 then (errChannelBroken.setWidth 8, d)
  else
    let i : Fin 2 := if n = 1 then 0 else 1
    if (d.registered i).active = true then (errChannelActive.setWidth 8, d)
    else
      let name := (name.takeWhile (· ≠ 0)).take (maxNameSz - 1)
      (success.setWidth 8,
        { d with registered := Function.update d.registered i ⟨handler, name, true⟩ })

/-- The driver before `ps2_init`. -/
def Driver.start : Driver := ⟨0, fun _ => ⟨0, [], false⟩, ⟨0, 0, []⟩⟩

end Ps2
end Frod
