import PatchTyping.BinaryFloat

/-!
# Values of number literals

A literal without fraction and exponent that fits 64 bits is an integer. Every other literal is a
floating point number: as many of its leading digits as fit 64 bits are taken as one integer, rounded,
and scaled by a power of ten, with one rounding for each step. The result need not be the number
nearest to the literal.
-/

namespace PatchTyping

/-- The spelling of a number, taken apart. -/
structure NumberLiteral where
  negative : Bool
  whole : List Char
  fraction : Option (List Char)
  /-- Whether the exponent is negative, and its digits. -/
  exponent : Option (Bool × List Char)
deriving DecidableEq, Repr

inductive Number where
  | int (value : Int)
  | float (value : Float)

namespace NumberLiteral

/-- Digits taken so far as an integer, the power of ten it is to be scaled by, and whether a digit has
been left out because the integer would not fit 64 bits. -/
structure Digits where
  significand : Nat
  scale : Int
  full : Bool

def digitValue (c : Char) : Nat := c.toNat - '0'.toNat

def Digits.next (d : Digits) (c : Char) : Option Nat :=
  let n := 10 * d.significand + digitValue c
  if d.full || UInt64.size ≤ n then none else some n

/-- A digit before the point that is left out still counts as a place. -/
def Digits.pushWhole (d : Digits) (c : Char) : Digits :=
  match d.next c with
  | some n => { d with significand := n }
  | none => { d with scale := d.scale + 1, full := true }

/-- A digit after the point that is left out has no effect. -/
def Digits.pushFraction (d : Digits) (c : Char) : Digits :=
  match d.next c with
  | some n => { d with significand := n, scale := d.scale - 1 }
  | none => { d with full := true }

/-- Divide by a power of ten that may be out of range itself. -/
def divideByPower (f : Float) (e : Nat) : Float :=
  if e ≤ 308 then f / powerOfTen e
  else if f == 0 then f
  else divideByPower (f / powerOfTen 308) (e - 308)
termination_by e

/-- `none` when the result is out of range. -/
def scaled (significand : Nat) (scale : Int) : Option Float :=
  let f := significand.toUInt64.toFloat
  if scale < 0 then some (divideByPower f scale.natAbs)
  else if 308 < scale then (if f == 0 then some f else none)
  else
    let g := f * powerOfTen scale.toNat
    if g.isInf then none else some g

def signed (negative : Bool) (f : Float) : Float := if negative then -f else f

/-- The exponent as a number, unless it does not fit 32 bits. -/
def exponentValue (digits : List Char) : Option Nat :=
  let n := digits.foldl (fun n c => 10 * n + digitValue c) 0
  if n < Nat.pow 2 31 then some n else none

/-- The integer that a literal without fraction and exponent denotes; minus zero is none. -/
def integer? (negative : Bool) (significand : Nat) : Option Int :=
  if !negative then some significand
  else if 0 < significand && significand ≤ Nat.pow 2 63 then some (-(significand : Int))
  else none

def value (l : NumberLiteral) : Option Number :=
  let whole := l.whole.foldl Digits.pushWhole ⟨0, 0, false⟩
  match l.fraction, l.exponent with
  | none, none =>
    match (if whole.full then none else integer? l.negative whole.significand) with
    | some i => some (.int i)
    | none => (scaled whole.significand whole.scale).map fun f => .float (signed l.negative f)
  | fraction, exponent =>
    let digits := (fraction.getD []).foldl Digits.pushFraction { whole with full := false }
    match exponent with
    | none => (scaled digits.significand digits.scale).map fun f => .float (signed l.negative f)
    | some (down, places) =>
      match exponentValue places with
      | some e =>
        (scaled digits.significand (if down then digits.scale - e else digits.scale + e)).map
          fun f => .float (signed l.negative f)
      | none =>
        if digits.significand == 0 || down then some (.float (signed l.negative 0)) else none

end NumberLiteral

end PatchTyping
