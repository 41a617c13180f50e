import TraceAutomata.Number.Power

namespace TraceAutomata.Number

/-- The word that holds an integer in the range of 64 signed bits. -/
def int64? (n : Int) : Option Int64 :=
  if -(twoPow 63 : Int) ≤ n ∧ n < twoPow 63 then some (Int64.ofInt n) else none

/-- The word that holds an integer in the range of 32 signed bits. -/
def int32? (n : Int) : Option Int32 :=
  if -(twoPow 31 : Int) ≤ n ∧ n < twoPow 31 then some (Int32.ofInt n) else none

/-- The word that holds an integer in the range of 8 signed bits. -/
def int8? (n : Int) : Option Int8 :=
  if -(twoPow 7 : Int) ≤ n ∧ n < twoPow 7 then some (Int8.ofInt n) else none

def count? (n : Int) : Option Nat :=
  if 0 ≤ n ∧ n < twoPow 64 then some n.toNat else none

def hexDigit? (c : Char) : Option Nat :=
  if c.isDigit then some (c.toNat - '0'.toNat)
  else if 'a' ≤ c ∧ c ≤ 'f' then some (c.toNat - 'a'.toNat + 10)
  else if 'A' ≤ c ∧ c ≤ 'F' then some (c.toNat - 'A'.toNat + 10)
  else none

/-- The number of a numeral in a radix of at most 16: one digit or more and nothing else. -/
def naturalIn? (radix : Nat) (text : List Char) : Option Nat :=
  if text.isEmpty then none
  else text.foldlM (fun n c => (hexDigit? c).bind fun d =>
    if d < radix then some (n * radix + d) else none) 0

/-- The natural number of a decimal numeral: one digit or more and nothing else. -/
def natural? (text : List Char) : Option Nat :=
  if !text.isEmpty && text.all Char.isDigit then some (Nat.ofDigitChars 10 text 0) else none

/-- The integer of a numeral with at most one sign before its digits. -/
def integer? : List Char → Option Int
  | '-' :: digits => (natural? digits).map fun n => -(n : Int)
  | '+' :: digits => (natural? digits).map Int.ofNat
  | digits => (natural? digits).map Int.ofNat

/-- The number below `2 ^ 64` of a numeral, which a plus sign may precede. -/
def countOfText? : List Char → Option Nat
  | '+' :: digits => (natural? digits).bind fun n => count? n
  | digits => (natural? digits).bind fun n => count? n

/-- The 64-bit word of a numeral, which a sign may precede. -/
def int64OfText? (text : List Char) : Option Int64 :=
  (integer? text).bind int64?

theorem int64?_toInt (w : Int64) : int64? w.toInt = some w := by
  have hlow := w.minValue_le_toInt
  have hhigh := w.toInt_le
  have hmin : Int64.minValue.toInt = -(twoPow 63 : Int) := by decide
  have hmax : Int64.maxValue.toInt = twoPow 63 - 1 := by decide
  unfold int64?
  rw [if_pos (by omega), Int64.ofInt_toInt]

theorem int32?_toInt (w : Int32) : int32? w.toInt = some w := by
  have hlow := w.minValue_le_toInt
  have hhigh := w.toInt_le
  have hmin : Int32.minValue.toInt = -(twoPow 31 : Int) := by decide
  have hmax : Int32.maxValue.toInt = twoPow 31 - 1 := by decide
  unfold int32?
  rw [if_pos (by omega), Int32.ofInt_toInt]

theorem int8?_toInt (w : Int8) : int8? w.toInt = some w := by
  have hlow := w.minValue_le_toInt
  have hhigh := w.toInt_le
  have hmin : Int8.minValue.toInt = -(twoPow 7 : Int) := by decide
  have hmax : Int8.maxValue.toInt = twoPow 7 - 1 := by decide
  unfold int8?
  rw [if_pos (by omega), Int8.ofInt_toInt]

end TraceAutomata.Number
