/-!
# Binary floating point numbers as exact fractions

A finite number is a mantissa times a power of two. Here it is taken apart into the interval of reals
that round to it, and natural numbers are rounded to the nearest floating point number.
-/

namespace PatchTyping

/-- Split a finite number into its sign and a fraction `mantissa * 2 ^ exponent`. -/
structure BinaryFraction where
  negative : Bool
  mantissa : Nat
  exponent : Int
deriving DecidableEq, Repr

namespace BinaryFraction

/-- The mantissa has 53 bits, except close to zero. -/
def ofFloat (x : Float) : BinaryFraction :=
  let bits := x.toBits.toNat
  let fraction : Nat := bits % Nat.pow 2 52
  let exponent : Nat := bits / Nat.pow 2 52 % Nat.pow 2 11
  let negative := bits / Nat.pow 2 63 == 1
  if exponent = 0 then ⟨negative, fraction, -1074⟩
  else ⟨negative, Nat.pow 2 52 + fraction, (exponent : Int) - 1075⟩

/-- The number just below is only half as far away as the one just above. -/
def atBoundary (f : BinaryFraction) : Bool := f.mantissa == Nat.pow 2 52 && f.exponent != -1074

end BinaryFraction

/-- The reals that round to a number, in units of `2 ^ exponent`; the ends belong to it when `closed`. -/
structure RoundingInterval where
  low : Nat
  middle : Nat
  high : Nat
  closed : Bool
  exponent : Int
deriving DecidableEq, Repr

def BinaryFraction.interval (f : BinaryFraction) : RoundingInterval where
  low := 4 * f.mantissa - (if f.atBoundary then 1 else 2)
  middle := 4 * f.mantissa
  high := 4 * f.mantissa + 2
  closed := f.mantissa % 2 == 0
  exponent := f.exponent - 2

/-- Divide by `2 ^ shift` and round to the nearest integer, a half to the even one. -/
def roundShift (n shift : Nat) : Nat :=
  let unit := Nat.pow 2 shift
  let q := n / unit
  let r := n % unit
  if 2 * r > unit || (2 * r == unit && q % 2 == 1) then q + 1 else q

/-- The floating point number nearest to a natural number. -/
def nearestFloat (n : Nat) : Float :=
  let shift := n.log2 - 52
  (roundShift n shift).toUInt64.toFloat.scaleB shift

def powerOfTen (e : Nat) : Float := nearestFloat (Nat.pow 10 e)

end PatchTyping
