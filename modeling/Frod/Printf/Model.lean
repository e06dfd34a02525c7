import Frod.Layout
import Frod.Lib.Bytes
import Frod.Lib.Machine

/-!
# Frod.Printf.Model

`do_printf` of `lib/stdio.c`, the scanner behind `kprintf`, `printf` and `sprintf`.

The output goes to a function `fn` with a state of its own, which may be part of the memory the
format is read from (`Sink`). The arguments are the 32-bit words of the variable argument list, in
their order. A pointer `where` is an index of `buf` or an address. `%s` and the format are read up
to a 0, which memory need not hold, so the loops that look for it have fuel.

`state` is 0 to 4 in the source; a `case` that falls through calls the next one. `fn` is given the
low byte of its `unsigned c`, which is all that its three instances use.
-/

namespace Frod
namespace Printf

/-- A character constant. -/
def ch (c : Char) : Byte := BitVec.ofNat 8 c.toNat

/-- The memory `do_printf` reads, and `fn` with what it changes. -/
structure Sink (σ ε : Type) where
  mem : σ → Mem
  fn : Byte → σ → Except ε σ

/-- Ways not to return: `fn` does not, a digit in front of `buf`, and no 0 within the fuel. -/
inductive Halt (ε : Type) where
  | fn (e : ε)
  | buffer
  | fuel
  deriving DecidableEq

/-- The bits of `flags`. -/
structure Flags where
  /-- `PR_LJ`, left justify. -/
  lj : Bool := false
  /-- `PR_CA`, use A-F instead of a-f for hex. -/
  ca : Bool := false
  /-- `PR_SG`, signed numeric conversion. -/
  sg : Bool := false
  /-- `PR_32`, `PR_16`, `PR_FP`: the modifiers. -/
  long : Bool := false
  short : Bool := false
  fp : Bool := false
  /-- `PR_WS`, `PR_SG` set and num was < 0. -/
  ws : Bool := false
  /-- `PR_LZ`, pad left with '0' instead of ' '. -/
  lz : Bool := false
  deriving DecidableEq

/-- `state`, by what it awaits. -/
inductive Awaits where
  | percent
  | flags
  | width
  | modifier
  | conversion
  deriving DecidableEq

/-- The variables of `do_printf` that outlive an iteration, and the state of `fn`. -/
structure St (σ : Type) where
  state : Awaits := .percent
  flags : Flags := {}
  givenWd : Nat := 0
  count : Word := 0
  fmt : Nat
  args : Nat → Word
  out : σ

/-- `PR_BUFLEN`. -/
def prBuflen : Nat := 16

/-- `where`. -/
inductive Where where
  | buf (b : Nat → Byte) (i : Nat)
  | mem (a : Nat)

namespace Where

def get (m : Mem) : Where → Byte
  | .buf b i => b i
  | .mem a => m (a % 2 ^ 32)

def next : Where → Where
  | .buf b i => .buf b (i + 1)
  | .mem a => .mem (a + 1)

def isNull : Where → Bool
  | .buf _ _ => false
  | .mem a => a == 0

end Where

variable {σ ε : Type}

/-- `while(str[ret] != 0x00) ret++`. -/
def strlenLoop (m : Mem) : Nat → Where → Nat → Except (Halt ε) Nat
  | 0, _, _ => .error .fuel
  | n + 1, w, ret => if w.get m ≠ 0 then strlenLoop m n w.next (ret + 1) else .ok ret

/-- `strlen`. -/
def strlen (m : Mem) (fuel : Nat) (w : Where) : Except (Halt ε) Nat :=
  if w.isNull then .ok 0 else strlenLoop m fuel w 0

/-- The digit `temp` of a number. -/
def digit (ca : Bool) (temp : Nat) : Byte :=
  if temp < 10 then BitVec.ofNat 8 (temp + 0x30)
  else if ca then BitVec.ofNat 8 (temp - 10 + 0x41)
  else BitVec.ofNat 8 (temp - 10 + 0x61)

/-- The conversion of a number to digits, `where` being the index `w` of `buf`. -/
def digitsLoop (radix : Nat) (ca : Bool) : Nat → Nat → (Nat → Byte) →
    Except (Halt ε) (Nat × (Nat → Byte))
  | 0, _, _ => .error .buffer
  | w + 1, num, buf =>
    let buf := Function.update buf w (digit ca (num % radix))
    if num / radix ≠ 0 then digitsLoop radix ca w (num / radix) buf else .ok (w, buf)

namespace St

/-- `state = flags = given_wd = 0`. -/
def reset (s : St σ) : St σ := { s with state := .percent, flags := {}, givenWd := 0 }

/-- `va_arg`. -/
def vaArg (s : St σ) : Word × St σ := (s.args 0, { s with args := fun i => s.args (i + 1) })

/-- `fn(c, &ptr); count++`. -/
def put (K : Sink σ ε) (c : Byte) (s : St σ) : Except (Halt ε) (St σ) :=
  match K.fn c s.out with
  | .ok o => .ok { s with out := o, count := s.count + 1 }
  | .error e => .error (.fn e)

/-- `while(given_wd > actual_wd)`, where `n` is `given_wd`. -/
def padLoop (K : Sink σ ε) (c : Byte) (actualWd : Nat) : Nat → St σ → Except (Halt ε) (St σ)
  | 0, s => .ok { s with givenWd := 0 }
  | n + 1, s =>
    if n + 1 > actualWd then do
      let s ← s.put K c
      padLoop K c actualWd n s
    else .ok { s with givenWd := n + 1 }

/-- `while(*where != '\0')`. -/
def textLoop (K : Sink σ ε) : Nat → Where → St σ → Except (Halt ε) (St σ)
  | 0, _, _ => .error .fuel
  | n + 1, w, s =>
    let c := w.get (K.mem s.out)
    if c ≠ 0 then do
      let s ← s.put K c
      textLoop K n w.next s
    else .ok s

/-- From `EMIT2` on. -/
def emit2 (K : Sink σ ε) (fuel : Nat) (w : Where) (actualWd : Nat) (s : St σ) :
    Except (Halt ε) (St σ) := do
  let s ← (if s.flags.lj then .ok s
    else padLoop K (if s.flags.lz then ch '0' else ch ' ') actualWd s.givenWd s)
  let s ← (if s.flags.ws && !s.flags.lz then s.put K (ch '-') else .ok s)
  let s ← textLoop K fuel w s
  let givenWd := if s.givenWd < actualWd then 0 else s.givenWd - actualWd
  padLoop K (ch ' ') 0 givenWd s

/-- From `EMIT` on. -/
def emit (K : Sink σ ε) (fuel : Nat) (w : Where) (s : St σ) : Except (Halt ε) (St σ) := do
  let actualWd ← strlen (K.mem s.out) fuel w
  let actualWd := if s.flags.ws then (actualWd + 1) % 2 ^ 32 else actualWd
  let s ← (if s.flags.ws && s.flags.lz then s.put K (ch '-') else .ok s)
  s.emit2 K fuel w actualWd

/-- From `DO_NUM` on. The three ways to load the value are the same 32 bits. -/
def doNum (K : Sink σ ε) (fuel : Nat) (radix : Nat) (s : St σ) : Except (Halt ε) (St σ) := do
  let (num, s) := s.vaArg
  let neg := s.flags.sg && num.slt 0
  let s := if neg then { s with flags := { s.flags with ws := true } } else s
  let num := if neg then -num else num
  let buf := Function.update (fun _ => 0) (prBuflen - 1) 0
  let (i, buf) ← digitsLoop radix s.flags.ca (prBuflen - 1) num.toNat buf
  s.emit K fuel (.buf buf i)

/-- `case 4`, up to the end of the iteration. -/
def caseConversion (K : Sink σ ε) (fuel : Nat) (s : St σ) : Except (Halt ε) (St σ) := do
  let c := K.mem s.out (s.fmt % 2 ^ 32)
  let s ← (if c = ch 'X' then doNum K fuel 16 { s with flags := { s.flags with ca := true } }
    else if c = ch 'x' ∨ c = ch 'p' ∨ c = ch 'n' then s.doNum K fuel 16
    else if c = ch 'd' ∨ c = ch 'i' then
      doNum K fuel 10 { s with flags := { s.flags with sg := true } }
    else if c = ch 'u' then s.doNum K fuel 10
    else if c = ch 'o' then s.doNum K fuel 8
    else if c = ch 'c' then
      let (num, s) := vaArg { s with flags := { s.flags with lz := false } }
      let buf := Function.update (Function.update (fun _ => 0) (prBuflen - 1) 0) (prBuflen - 2)
        (num.setWidth 8)
      s.emit2 K fuel (.buf buf (prBuflen - 2)) 1
    else if c = ch 's' then
      let (p, s) := vaArg { s with flags := { s.flags with lz := false } }
      s.emit K fuel (.mem p.toNat)
    else .ok s)
  return s.reset

/-- `case 3`. -/
def caseModifier (K : Sink σ ε) (fuel : Nat) (s : St σ) : Except (Halt ε) (St σ) :=
  let c := K.mem s.out (s.fmt % 2 ^ 32)
  if c = ch 'F' then .ok { s with flags := { s.flags with fp := true } }
  else if c = ch 'N' then .ok s
  else if c = ch 'l' then .ok { s with flags := { s.flags with long := true } }
  else if c = ch 'h' then .ok { s with flags := { s.flags with short := true } }
  else caseConversion K fuel { s with state := .conversion }

/-- `case 2`. -/
def caseWidth (K : Sink σ ε) (fuel : Nat) (s : St σ) : Except (Halt ε) (St σ) :=
  let c := K.mem s.out (s.fmt % 2 ^ 32)
  if 0x30 ≤ c.toNat ∧ c.toNat ≤ 0x39 then
    .ok { s with givenWd := (10 * s.givenWd + (c.toNat - 0x30)) % 2 ^ 32 }
  else caseModifier K fuel { s with state := .modifier }

/-- `case 1`. -/
def caseFlags (K : Sink σ ε) (fuel : Nat) (s : St σ) : Except (Halt ε) (St σ) :=
  let c := K.mem s.out (s.fmt % 2 ^ 32)
  if c = ch '%' then do
    let s ← s.put K c
    return s.reset
  else if c = ch '-' then
    .ok (if s.flags.lj then s.reset else { s with flags := { s.flags with lj := true } })
  else
    let s := { s with state := .width }
    caseWidth K fuel
      (if c = ch '0' then { s with flags := { s.flags with lz := true }, fmt := s.fmt + 1 } else s)

/-- `case 0`. -/
def casePercent (K : Sink σ ε) (fuel : Nat) (s : St σ) : Except (Halt ε) (St σ) :=
  let c := K.mem s.out (s.fmt % 2 ^ 32)
  if c ≠ ch '%' then s.put K c
  else caseFlags K fuel { s with state := .flags, fmt := s.fmt + 1 }

/-- The `switch` of an iteration. -/
def switch (K : Sink σ ε) (fuel : Nat) (s : St σ) : Except (Halt ε) (St σ) :=
  match s.state with
  | .percent => s.casePercent K fuel
  | .flags => s.caseFlags K fuel
  | .width => s.caseWidth K fuel
  | .modifier => s.caseModifier K fuel
  | .conversion => s.caseConversion K fuel

/-- `for(; *fmt; fmt++)`, with `n` iterations at most. -/
def scanLoop (K : Sink σ ε) (fuel : Nat) : Nat → St σ → Except (Halt ε) (St σ)
  | 0, _ => .error .fuel
  | n + 1, s =>
    if K.mem s.out (s.fmt % 2 ^ 32) ≠ 0 then do
      let s ← s.switch K fuel
      scanLoop K fuel n { s with fmt := s.fmt + 1 }
    else .ok s

end St

/-- `do_printf`: the number of characters, and what `fn` has done. -/
def doPrintf (K : Sink σ ε) (fuel : Nat) (fmt : Nat) (args : Nat → Word) (out : σ) :
    Except (Halt ε) (Word × σ) := do
  let s ← St.scanLoop K fuel fuel { fmt := fmt, args := args, out := out }
  return (s.count, s.out)

/-! ## The functions that print -/

/-- `vsprintf_help`: the memory and `*ptr`. -/
def vsprintfHelp : Sink (Mem × Nat) Empty where
  mem := Prod.fst
  fn c s := .ok (Function.update s.1 (s.2 % 2 ^ 32) c, s.2 + 1)

/-- `vsprintf`, which `sprintf` calls with its own arguments. -/
def vsprintf (fuel : Nat) (m : Mem) (buf fmt : Nat) (args : Nat → Word) :
    Except (Halt Empty) (Word × Mem) := do
  let (rv, m, _) ← doPrintf vsprintfHelp fuel fmt args (m, buf)
  return (rv, Function.update m ((buf + rv.toNat) % 2 ^ 32) 0)

/-- `vprintf_bochs`: the bytes that port 0xE9 has been given. -/
def vprintfBochs (ε : Type) (m : Mem) : Sink (List Byte) ε where
  mem _ := m
  fn c s := .ok (s ++ [c])

end Printf
end Frod
