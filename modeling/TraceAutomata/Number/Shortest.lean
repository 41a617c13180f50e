import TraceAutomata.Number.Decimal

/-!
The shortest decimal that reads back as a given floating-point number, and the two notations in
which numbers are written: plain digits for names and messages, and the notation of JSON texts.
-/

namespace TraceAutomata

namespace Decimal

open Number (twoPow tenPow)

/-- Which of two decimals that lie equally near to a number is written. -/
inductive Tie
  | up
  | even
deriving DecidableEq

/-- The greatest `e` for which `10 ^ e` is at most the positive ratio. -/
def decimalExponent (num den : Nat) : Int :=
  let guess : Int := (digitCount num : Int) - digitCount den
  let atLeast :=
    if 0 ≤ guess then den * tenPow guess.toNat ≤ num else den ≤ num * tenPow (-guess).toNat
  if atLeast then guess else guess - 1

/-- Of the two neighbours of a magnitude among the multiples of `10 ^ exponent`, the nearer one
that reads back as the magnitude. -/
def neighbour? (tie : Tie) (magnitude : Nat) (exponent : Int) : Option (Nat × Int) :=
  let (num, den) := Double.ratio magnitude
  let (n, d) :=
    if 0 ≤ exponent then (num, den * tenPow exponent.toNat)
    else (num * tenPow (-exponent).toNat, den)
  let low := n / d
  let rest := n % d
  let lowReads := Decimal.magnitude low exponent == magnitude
  let highReads := Decimal.magnitude (low + 1) exponent == magnitude
  let lowNearer :=
    2 * rest < d || (2 * rest == d && tie == .even && low % 2 == 0)
  if lowReads && (!highReads || lowNearer) then some (low, exponent)
  else if highReads then some (low + 1, exponent)
  else none

/-- All digits of a finite magnitude. -/
def exact (magnitude : Nat) : Nat × Int :=
  let m := Double.significand magnitude
  let e := Double.exponent magnitude
  if 0 ≤ e then (m * twoPow e.toNat, 0) else (m * Nat.pow 5 (-e).toNat, e)

/-- The decimal with the fewest digits that reads back as a positive finite magnitude, as its
digits and the power of ten that scales them; of several, the nearest. -/
def shortest (tie : Tie) (magnitude : Nat) : Nat × Int :=
  let (num, den) := Double.ratio magnitude
  let top := decimalExponent num den
  ((List.range 18).findSome? fun (places : Nat) =>
    neighbour? tie magnitude (top + 1 - (places : Int))).getD
    (exact magnitude)

end Decimal

namespace Double

/-- Digits with the point after the first `point` of them; zeros fill up on either side, and a
number without a fraction ends in `whole`. -/
def placePoint (digits : List Char) (point : Int) (whole : List Char) : List Char :=
  if point ≤ 0 then '0' :: '.' :: (List.replicate (-point).toNat '0' ++ digits)
  else
    let before := point.toNat
    if digits.length ≤ before then
      digits ++ List.replicate (before - digits.length) '0' ++ whole
    else digits.take before ++ '.' :: digits.drop before

def signed (negative : Bool) (text : List Char) : List Char :=
  if negative then '-' :: text else text

/-- Plain notation: the shortest digits without an exponent, and no point in a whole number. -/
def plainText (x : Double) : String :=
  if x.isNaN then "NaN"
  else
    String.ofList <| signed x.isNegative <|
      if x.isInfinite then ['i', 'n', 'f']
      else if x.magnitude = 0 then ['0']
      else
        let (digits, scale) := Decimal.shortest .up x.magnitude
        let ds := Nat.toDigits 10 digits
        placePoint ds (ds.length + scale) []

/-- One digit, a point before further ones, and the exponent with its sign. -/
def scientific (digits : List Char) (exponent : Int) : List Char :=
  digits.take 1 ++ (if digits.length ≤ 1 then [] else '.' :: digits.drop 1) ++
    'e' :: (if exponent < 0 then '-' else '+') :: Nat.toDigits 10 exponent.natAbs

/-- The notation of JSON texts: the shortest digits, with a point or an exponent always. Numbers
of at least `10 ^ 16`, and those below `10 ^ -5`, have an exponent. -/
def jsonChars (x : Double) : List Char :=
  if x.isFinite then
    signed x.isNegative <|
      if x.magnitude = 0 then ['0', '.', '0']
      else
        let (digits, scale) := Decimal.shortest .even x.magnitude
        let ds := Nat.toDigits 10 digits
        let point := ds.length + scale
        if -5 < point ∧ point ≤ 16 then placePoint ds point ['.', '0']
        else scientific ds (point - 1)
  else ['n', 'u', 'l', 'l']

end Double

end TraceAutomata
