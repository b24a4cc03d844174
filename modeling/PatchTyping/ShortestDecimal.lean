import PatchTyping.BinaryFloat

/-!
# The shortest decimal that reads back

A floating point number is written with the fewest digits that still round to it, and among those with
the digits nearest to it. The search goes through the grids of multiples of powers of ten, from coarse
to fine, and looks at the two neighbours of the number on each grid.
-/

namespace PatchTyping

/-- The natural number `digits` times `10 ^ exponent`. -/
structure ShortDecimal where
  digits : Nat
  exponent : Int
deriving DecidableEq, Repr

namespace RoundingInterval

/-- The multiple of `10 ^ k` in the interval that is nearest to its middle; of two equally near ones
the even one. -/
def onGrid (x : RoundingInterval) (k : Int) : Option Nat :=
  let a := Nat.pow 2 x.exponent.toNat * Nat.pow 10 (-k).toNat
  let b := Nat.pow 2 (-x.exponent).toNat * Nat.pow 10 k.toNat
  let inside (n : Nat) : Bool :=
    if x.closed then x.low * a ≤ n * b && n * b ≤ x.high * a
    else x.low * a < n * b && n * b < x.high * a
  let d := x.middle * a / b
  let below := x.middle * a - d * b
  let above := (d + 1) * b - x.middle * a
  match inside d, inside (d + 1) with
  | true, true =>
    if below < above then some d
    else if above < below then some (d + 1)
    else some (if d % 2 == 0 then d else d + 1)
  | true, false => some d
  | false, true => some (d + 1)
  | false, false => none

/-- Try the grids of `10 ^ k`, `10 ^ (k - 1)` and so on. -/
def searchGrids (x : RoundingInterval) : Nat → Int → ShortDecimal
  | 0, k => ⟨0, k⟩
  | fuel + 1, k =>
    match x.onGrid k with
    | some d => ⟨d, k⟩
    | none => searchGrids x fuel (k - 1)

/-- No number is as large as `10 ^ 309`, and none needs a grid finer than `10 ^ -400`. -/
def shortest (x : RoundingInterval) : ShortDecimal := x.searchGrids 710 309

end RoundingInterval

/-- Where a decimal is written out in full: from `10 ^ plainFrom` up to below `10 ^ plainBelow`. -/
structure DecimalLayout where
  plainFrom : Int
  plainBelow : Int

namespace DecimalLayout

def signText (negative : Bool) : String := if negative then "-" else ""

def zeros (n : Nat) : String := String.ofList (List.replicate n '0')

/-- Without an exponent, and with at least one digit after the point. -/
def plain (d : ShortDecimal) : String :=
  let digits := Nat.toDigits 10 d.digits
  if 0 ≤ d.exponent then String.ofList digits ++ zeros d.exponent.toNat ++ ".0"
  else
    let places := (-d.exponent).toNat
    if places < digits.length then
      String.ofList (digits.take (digits.length - places)) ++ "."
        ++ String.ofList (digits.drop (digits.length - places))
    else "0." ++ zeros (places - digits.length) ++ String.ofList digits

/-- One digit before the point, a point only if more digits follow, and a signed exponent. -/
def scientific (d : ShortDecimal) : String :=
  let digits := Nat.toDigits 10 d.digits
  let exponent := d.exponent + digits.length - 1
  String.ofList (digits.take 1)
    ++ (if digits.length ≤ 1 then "" else "." ++ String.ofList (digits.drop 1))
    ++ "e" ++ (if exponent < 0 then "-" else "+") ++ toString exponent.natAbs

def text (layout : DecimalLayout) (x : Float) : String :=
  let f := BinaryFraction.ofFloat x
  if f.mantissa = 0 then signText f.negative ++ "0.0"
  else
    let d := f.interval.shortest
    let magnitude := d.exponent + (Nat.toDigits 10 d.digits).length - 1
    signText f.negative
      ++ (if layout.plainFrom ≤ magnitude && magnitude < layout.plainBelow then plain d
          else scientific d)

end DecimalLayout

end PatchTyping
