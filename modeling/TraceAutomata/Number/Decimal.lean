import TraceAutomata.Number.Double

namespace TraceAutomata

/-- The parts of a decimal numeral that no sign precedes. -/
structure Numeral where
  /-- The digits before the point. -/
  whole : List Char
  /-- The digits after the point. -/
  fraction : List Char
  exponent : Int
deriving DecidableEq

namespace Numeral

/-- The exponent that a numeral ends with: none, or a mark, at most one sign and digits. -/
def exponentPart? : List Char → Option Int
  | [] => some 0
  | mark :: rest =>
      if mark != 'e' && mark != 'E' then none
      else
        let (negative, digits) := match rest with
          | '-' :: digits => (true, digits)
          | '+' :: digits => (false, digits)
          | digits => (false, digits)
        if digits.isEmpty || !digits.all Char.isDigit then none
        else
          let n : Int := Nat.ofDigitChars 10 digits 0
          some (if negative then -n else n)

/-- Digits, at most one point among or beside them, and perhaps an exponent; at least one digit
stands before the exponent. -/
def ofChars? (text : List Char) : Option Numeral :=
  let whole := text.takeWhile Char.isDigit
  let rest := text.dropWhile Char.isDigit
  let (fraction, rest) := match rest with
    | '.' :: after => (after.takeWhile Char.isDigit, after.dropWhile Char.isDigit)
    | rest => ([], rest)
  if whole.isEmpty && fraction.isEmpty then none
  else (exponentPart? rest).map fun exponent => ⟨whole, fraction, exponent⟩

end Numeral

/-- The decimal number `± digits * 10 ^ exponent`. -/
structure Decimal where
  negative : Bool
  digits : Nat
  exponent : Int
deriving DecidableEq

namespace Decimal

def digitCount (n : Nat) : Nat :=
  (Nat.toDigits 10 n).length

/-- The magnitude nearest to `digits * 10 ^ exponent`. Numbers of at least `10 ^ 310` are
infinite and those below `10 ^ -325` are zero, whatever their digits. -/
def magnitude (digits : Nat) (exponent : Int) : Nat :=
  if digits = 0 then 0
  else if 310 < exponent + digitCount digits then Double.infinityMagnitude
  else if exponent + digitCount digits < -325 then 0
  else if 0 ≤ exponent then Double.magnitudeOfRatio (digits * Number.tenPow exponent.toNat) 1
  else Double.magnitudeOfRatio digits (Number.tenPow (-exponent).toNat)

def toDouble (d : Decimal) : Double :=
  Double.ofMagnitude d.negative (magnitude d.digits d.exponent)

/-- The exact value of a numeral. -/
def ofNumeral (negative : Bool) (n : Numeral) : Decimal :=
  ⟨negative, Nat.ofDigitChars 10 (n.whole ++ n.fraction) 0, n.exponent - n.fraction.length⟩

/-- The decimal of a numeral that at most one minus sign precedes. -/
def ofChars? : List Char → Option Decimal
  | '-' :: text => (Numeral.ofChars? text).map (ofNumeral true)
  | text => (Numeral.ofChars? text).map (ofNumeral false)

end Decimal

end TraceAutomata
