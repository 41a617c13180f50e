import TraceAutomata.Number.Decimal

/-!
Numerals read in floating-point steps, as in JSON texts. As many digits as 64 bits hold make up
a whole number, which is rounded and then multiplied or divided by a rounded power of ten. What
comes out is near to the exact value, and is the number nearest to it as long as all steps are
exact but the last.
-/

namespace TraceAutomata.Numeral

open Number (twoPow tenPow)

/-- Appends digits to a whole number as long as 64 bits hold the outcome, and counts the digits
that are left over. -/
def appendDigits (n : Nat) : List Char → Nat × Nat
  | [] => (n, 0)
  | c :: rest =>
      let longer := 10 * n + (c.toNat - '0'.toNat)
      if longer < twoPow 64 then appendDigits longer rest else (n, rest.length + 1)

/-- The magnitude of a power of ten. -/
def tenMagnitude (exponent : Nat) : Nat :=
  Double.magnitudeOfRatio (tenPow exponent) 1

/-- The greatest exponent of a finite power of ten. -/
def maxTen : Nat := 308

/-- A magnitude times a power of ten; none if that is beyond the finite numbers. A divisor that
is not finite is divided off in two steps, and one that needs three leaves nothing. -/
def scale? (magnitude : Nat) (exponent : Int) : Option Nat :=
  let down := (-exponent).toNat
  if magnitude = 0 then some 0
  else if (maxTen : Int) < exponent then none
  else if 0 ≤ exponent then
    let product := Double.mulMagnitude magnitude (tenMagnitude exponent.toNat)
    if product < Double.infinityMagnitude then some product else none
  else if down ≤ maxTen then some (Double.divMagnitude magnitude (tenMagnitude down))
  else if down ≤ 2 * maxTen then
    some (Double.divMagnitude (Double.divMagnitude magnitude (tenMagnitude maxTen))
      (tenMagnitude (down - maxTen)))
  else some 0

/-- The magnitude that a numeral is read as, if it is finite. Digits before the point that are
left over still count as places; those after it do not. -/
def stepwise? (n : Numeral) : Option Nat :=
  let (high, skipped) := appendDigits 0 n.whole
  let (all, left) := appendDigits high n.fraction
  scale? (Double.magnitudeOfRatio all 1)
    (n.exponent + skipped - (n.fraction.length - left : Nat))

end TraceAutomata.Numeral
