namespace Conform

/-- A binary64 number, held as its 64 bits: sign, eleven bits of exponent, 52 bits of fraction. -/
structure Number where
  bits : UInt64
deriving DecidableEq

namespace Number

def signWeight : Nat := 0x8000000000000000

def exponentWeight : Nat := 0x10000000000000

def negative (n : Number) : Bool := signWeight ≤ n.bits.toNat

/-- The bits below the sign, which grow with the absolute value. -/
def magnitude (n : Number) : Nat := n.bits.toNat % signWeight

/-- The magnitude of the infinities; every larger one is a NaN. -/
def infiniteMagnitude : Nat := 2047 * exponentWeight

def ofMagnitude (negative : Bool) (magnitude : Nat) : Number :=
  ⟨UInt64.ofNat (if negative then signWeight + magnitude else magnitude)⟩

def nan : Number := ⟨0x7ff8000000000000⟩

def infinity (negative : Bool) : Number := ofMagnitude negative infiniteMagnitude

def zero : Number := ⟨0⟩

def isNaN (n : Number) : Bool := infiniteMagnitude < n.magnitude

def isFinite (n : Number) : Bool := n.magnitude < infiniteMagnitude

/-- The position on the number line: both zeros stand at 0, and NaN has no place on it. -/
def rank (n : Number) : Int := if n.negative then -n.magnitude else n.magnitude

/-- Equality by value: the zeros are equal, and NaN equals nothing. -/
def same (a b : Number) : Bool := !a.isNaN && !b.isNaN && a.rank == b.rank

def le (a b : Number) : Bool := !a.isNaN && !b.isNaN && a.rank ≤ b.rank

def lt (a b : Number) : Bool := !a.isNaN && !b.isNaN && a.rank < b.rank

def biasedExponent (n : Number) : Nat := n.magnitude / exponentWeight

/-- A finite number is its significand times two to the power `scale - 1074`. -/
def significand (n : Number) : Nat :=
  if n.biasedExponent = 0 then n.magnitude else exponentWeight + n.magnitude % exponentWeight

def scale (n : Number) : Nat := n.biasedExponent - 1

def wholeMagnitude? (n : Number) : Option Nat :=
  if n.isFinite then
    if 1074 ≤ n.scale then some (n.significand <<< (n.scale - 1074))
    else if n.significand % (1 <<< (1074 - n.scale)) = 0 then
      some (n.significand >>> (1074 - n.scale))
    else none
  else none

def toInt? (n : Number) : Option Int :=
  n.wholeMagnitude?.map fun m => if n.negative then -(m : Int) else m

/-- The quotient rounded to an integer, a tie going to the even neighbour. -/
def roundedQuotient (a b : Nat) : Nat :=
  let q := a / b
  let twice := 2 * (a % b)
  if twice < b then q
  else if b < twice then q + 1
  else if q % 2 = 0 then q
  else q + 1

/-- The power of two that leaves a 53-bit quotient, counted from the smallest positive number; a
quotient too small for that has scale 0. -/
def quotientScale (a b : Nat) : Nat :=
  let lower := a.log2 + 1021 - b.log2
  if b <<< (lower + 53) ≤ a <<< 1074 then lower + 1 else lower

/-- The magnitude nearest to `a / b`. A significand that rounds up to 54 bits carries into the
exponent field by plain addition. -/
def nearestMagnitude (a b : Nat) : Nat :=
  if a = 0 then 0
  else
    let scale := quotientScale a b
    min (scale * exponentWeight + roundedQuotient (a <<< 1074) (b <<< scale)) infiniteMagnitude

def ofDecimal (negative : Bool) (digits : Nat) (exponent : Int) : Number :=
  ofMagnitude negative <|
    nearestMagnitude (digits * Nat.pow 10 exponent.toNat) (Nat.pow 10 (-exponent).toNat)

def ofInt (i : Int) : Number := ofMagnitude (i < 0) (nearestMagnitude i.natAbs 1)

def one : Number := ⟨0x3ff0000000000000⟩

/-- Two to the 1074: one in units of the smallest positive number. -/
def unitsPerOne : Nat := 1 <<< 1074

def neg (n : Number) : Number := ofMagnitude (!n.negative) n.magnitude

/-- The exact value of a finite number in units of the smallest positive one. -/
def units (n : Number) : Int :=
  let u := n.significand <<< n.scale
  if n.negative then -(u : Int) else u

def ofUnits (negativeZero : Bool) (u : Int) : Number :=
  if u = 0 then ofMagnitude negativeZero 0
  else ofMagnitude (u < 0) (nearestMagnitude u.natAbs unitsPerOne)

/-- The sum, rounded. Infinities of different signs have none, and a zero is negative only as the
sum of negative zeros. -/
def add (a b : Number) : Number :=
  if a.isNaN || b.isNaN then nan
  else if !a.isFinite then if !b.isFinite && a.negative != b.negative then nan else a
  else if !b.isFinite then b
  else ofUnits (a.negative && b.negative) (a.units + b.units)

def trunc (n : Number) : Number :=
  if 1075 ≤ n.biasedExponent then n
  else if n.biasedExponent < 1023 then ofMagnitude n.negative 0
  else
    let width := 1075 - n.biasedExponent
    ofMagnitude n.negative (n.magnitude >>> width <<< width)

def fract (n : Number) : Number := n.add n.trunc.neg

end Number

end Conform
