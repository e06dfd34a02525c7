import Mathlib.Data.Nat.Digits.Defs
import Frod.Printf.Model

/-!
# Frod.Printf.Spec

What a format prints.

A format is read one character after the other (`Scan.step`) and is a list of pieces: characters
that are printed as they are, and directives that take an argument each. `Directive.show` is the
text of a directive, its field filled up to its width. The modifiers have no effect on it: `%hd`
prints the 32 bits of its argument.

A format may end inside a directive. `Scan.overruns` are the two places where `do_printf` has then
stepped onto the terminator and goes on behind it.
-/

namespace Frod
namespace Printf

/-- What a conversion character asks for. -/
inductive Conv where
  | number (radix : Nat) (ca sg : Bool)
  | char
  | string
  deriving DecidableEq

def conversion (c : Byte) : Option Conv :=
  if c = ch 'X' then some (.number 16 true false)
  else if c = ch 'x' ∨ c = ch 'p' ∨ c = ch 'n' then some (.number 16 false false)
  else if c = ch 'd' ∨ c = ch 'i' then some (.number 10 false true)
  else if c = ch 'u' then some (.number 10 false false)
  else if c = ch 'o' then some (.number 8 false false)
  else if c = ch 'c' then some .char
  else if c = ch 's' then some .string
  else none

structure Directive where
  lj : Bool
  lz : Bool
  width : Nat
  conv : Conv
  deriving DecidableEq

inductive Piece where
  | lit (c : Byte)
  | arg (d : Directive)
  deriving DecidableEq

/-! ## Reading a format -/

/-- How far a directive has been read. -/
inductive Scan where
  /-- Outside a directive. -/
  | text
  /-- Behind `%`, and behind `%-`. -/
  | percent
  | dash
  /-- Behind the flag `0`. -/
  | zero (lj : Bool)
  /-- Behind a digit of the width, and behind a modifier. -/
  | width (lj lz : Bool) (n : Nat)
  | modifier (lj lz : Bool) (n : Nat)
  deriving DecidableEq

def isDigit (c : Byte) : Bool := 0x30 ≤ c.toNat && c.toNat ≤ 0x39

def isModifier (c : Byte) : Bool := c = ch 'F' || c = ch 'N' || c = ch 'l' || c = ch 'h'

/-- A modifier, or the end of the directive. Any other character ends it and prints nothing. -/
def finish (lj lz : Bool) (n : Nat) (c : Byte) : Scan × List Piece :=
  if isModifier c then (.modifier lj lz n, [])
  else (.text, ((conversion c).map fun v => .arg ⟨lj, lz, n, v⟩).toList)

def field (lj lz : Bool) (n : Nat) (c : Byte) : Scan × List Piece :=
  if isDigit c then (.width lj lz ((10 * n + (c.toNat - 0x30)) % 2 ^ 32), []) else finish lj lz n c

namespace Scan

def step : Scan → Byte → Scan × List Piece
  | text, c => if c = ch '%' then (percent, []) else (text, [.lit c])
  | percent, c =>
    if c = ch '%' then (text, [.lit c])
    else if c = ch '-' then (dash, [])
    else if c = ch '0' then (zero false, [])
    else field false false 0 c
  | dash, c =>
    if c = ch '%' then (text, [.lit c])
    else if c = ch '-' then (text, [])
    else if c = ch '0' then (zero true, [])
    else field true false 0 c
  | zero lj, c => field lj true 0 c
  | width lj lz n, c => field lj lz n c
  | modifier lj lz n, c => finish lj lz n c

/-- The pieces of a format that is read on from `q`, and where its end is. -/
def pieces : Scan → List Byte → List Piece
  | _, [] => []
  | q, c :: cs => (q.step c).2 ++ (q.step c).1.pieces cs

def last : Scan → List Byte → Scan
  | q, [] => q
  | q, c :: cs => (q.step c).1.last cs

/-- The end is behind `%`, or behind the flag `0`. -/
def overruns : Scan → Bool
  | percent => true
  | zero _ => true
  | _ => false

end Scan

/-! ## Printing it -/

/-- The digits of a number, the first one first. -/
def digitsOf (radix n : Nat) : List Nat := if n = 0 then [0] else (Nat.digits radix n).reverse

def numeral (radix : Nat) (ca : Bool) (n : Nat) : List Byte := (digitsOf radix n).map (digit ca)

/-- What stands in a field: a sign, a text, and the number of characters the text counts as. -/
structure Body where
  sign : Bool
  text : List Byte
  len : Nat

/-- The character 0 prints nothing and counts as one; the text at the null pointer counts as none. -/
def Conv.body (str : Word → List Byte) (v : Conv) (w : Word) : Body :=
  match v with
  | .number radix ca sg =>
    let neg := sg && w.slt 0
    let digits := numeral radix ca (if neg then -w else w).toNat
    ⟨neg, digits, digits.length⟩
  | .char => ⟨false, if w.setWidth 8 = (0 : Byte) then [] else [w.setWidth 8], 1⟩
  | .string => ⟨false, str w, if w = 0 then 0 else (str w).length⟩

/-- Only numbers are padded with zeroes. -/
def Conv.isNumber : Conv → Bool
  | .number _ _ _ => true
  | .char => false
  | .string => false

def signText (sign : Bool) : List Byte := if sign then [ch '-'] else []

/-- A body in a field of `width`. -/
def Body.fill (b : Body) (lj lz : Bool) (width : Nat) : List Byte :=
  let pad := width - (b.len + (signText b.sign).length)
  if lj then signText b.sign ++ b.text ++ List.replicate pad (ch ' ')
  else if lz then signText b.sign ++ List.replicate pad (ch '0') ++ b.text
  else List.replicate pad (ch ' ') ++ signText b.sign ++ b.text

def Directive.show (str : Word → List Byte) (d : Directive) (w : Word) : List Byte :=
  (d.conv.body str w).fill d.lj (d.lz && d.conv.isNumber) d.width

/-- The arguments behind the first `n`. -/
def after (args : Nat → Word) (n : Nat) : Nat → Word := fun i => args (i + n)

/-- The text of the pieces. `str` are the texts at the pointers. -/
def render (str : Word → List Byte) : List Piece → (Nat → Word) → List Byte
  | [], _ => []
  | .lit c :: ps, args => c :: render str ps args
  | .arg d :: ps, args => d.show str (args 0) ++ render str ps (after args 1)

/-- The arguments of `%s`. -/
def pointers : List Piece → (Nat → Word) → List Word
  | [], _ => []
  | .lit _ :: ps, args => pointers ps args
  | .arg d :: ps, args =>
    (if d.conv = .string then [args 0] else []) ++ pointers ps (after args 1)

/-- The number of arguments. -/
def argCount : List Piece → Nat
  | [] => 0
  | .lit _ :: ps => argCount ps
  | .arg _ :: ps => argCount ps + 1

/-- The text of a format. -/
def format (str : Word → List Byte) (fs : List Byte) (args : Nat → Word) : List Byte :=
  render str (Scan.text.pieces fs) args

end Printf
end Frod
