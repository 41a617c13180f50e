import TraceAutomata.Number.Power

/-!
Binary floating-point numbers of 64 bits, held as their bits. Equality, the total order and the
rounding of an exact ratio are stated on the bits alone, in exact arithmetic of whole numbers.
-/

namespace TraceAutomata

/-- A 64-bit binary floating-point number: one sign bit, eleven bits of exponent and fifty-two
bits of fraction. Two are equal when their bits are, so a not-a-number equals itself here. -/
structure Double where
  bits : UInt64
deriving DecidableEq, Inhabited

namespace Double

open Number (twoPow)

def isNegative (x : Double) : Bool :=
  twoPow 63 ≤ x.bits.toNat

/-- The bits below the sign. Magnitudes are ordered as the absolute values that they stand for. -/
def magnitude (x : Double) : Nat :=
  x.bits.toNat % twoPow 63

/-- The magnitude of infinity; the finite ones lie below it and not-a-numbers above. -/
def infinityMagnitude : Nat :=
  0x7FF * twoPow 52

def ofMagnitude (negative : Bool) (magnitude : Nat) : Double :=
  ⟨UInt64.ofNat (if negative then twoPow 63 + magnitude else magnitude)⟩

def isNaN (x : Double) : Bool :=
  infinityMagnitude < x.magnitude

def isInfinite (x : Double) : Bool :=
  x.magnitude == infinityMagnitude

def isFinite (x : Double) : Bool :=
  x.magnitude < infinityMagnitude

/-- Position in the total order: negative numbers before positive ones, `-0` just before `0`,
and not-a-numbers beyond the infinities on the side of their sign. -/
def rank (x : Double) : Int :=
  if x.isNegative then -(x.magnitude : Int) - 1 else x.magnitude

/-- Numerical equality: zeros of both signs are equal, and a not-a-number equals nothing. -/
def equals (x y : Double) : Bool :=
  !x.isNaN && !y.isNaN && (x == y || (x.magnitude == 0 && y.magnitude == 0))

/-- The integer `m` of the value `m * 2 ^ e` of a finite magnitude. -/
def significand (magnitude : Nat) : Nat :=
  if magnitude < twoPow 52 then magnitude else twoPow 52 + magnitude % twoPow 52

/-- The exponent `e` of the value `m * 2 ^ e` of a finite magnitude. -/
def exponent (magnitude : Nat) : Int :=
  if magnitude < twoPow 52 then -1074 else (magnitude / twoPow 52 : Nat) - 1075

/-- A ratio of whole numbers, divided by a power of two. -/
def scaleDown (num den : Nat) (e : Int) : Nat × Nat :=
  if 0 ≤ e then (num, den * twoPow e.toNat) else (num * twoPow (-e).toNat, den)

/-- The value of a finite magnitude as a ratio of whole numbers. -/
def ratio (magnitude : Nat) : Nat × Nat :=
  let m := significand magnitude
  let e := exponent magnitude
  if 0 ≤ e then (m * twoPow e.toNat, 1) else (m, twoPow (-e).toNat)

/-- The quotient rounded to the nearest whole number, a tie going to the even one. -/
def roundDiv (num den : Nat) : Nat :=
  let q := num / den
  let r := num % den
  if 2 * r < den then q
  else if den < 2 * r then q + 1
  else if q % 2 = 0 then q else q + 1

/-- The greatest `e` for which `2 ^ e` is at most the positive ratio. -/
def binaryExponent (num den : Nat) : Int :=
  let guess : Int := (num.log2 : Int) - den.log2
  let (n, d) := scaleDown num den guess
  if n < d then guess - 1 else guess

/-- The magnitude nearest to a ratio of whole numbers, a tie going to the even one. A ratio
beyond the greatest finite number by half a unit or more gives infinity. -/
def magnitudeOfRatio (num den : Nat) : Nat :=
  if num = 0 then 0
  else
    let e := max (-1074) (binaryExponent num den - 52)
    let (n, d) := scaleDown num den e
    min infinityMagnitude ((e + 1074).toNat * twoPow 52 + roundDiv n d)

/-- The product of two finite magnitudes, rounded. -/
def mulMagnitude (a b : Nat) : Nat :=
  magnitudeOfRatio ((ratio a).1 * (ratio b).1) ((ratio a).2 * (ratio b).2)

/-- The quotient of two finite magnitudes, rounded; the second one is not zero. -/
def divMagnitude (a b : Nat) : Nat :=
  magnitudeOfRatio ((ratio a).1 * (ratio b).2) ((ratio a).2 * (ratio b).1)

def ofInt (n : Int) : Double :=
  ofMagnitude (n < 0) (magnitudeOfRatio n.natAbs 1)

end Double

end TraceAutomata
