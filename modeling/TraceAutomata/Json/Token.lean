import TraceAutomata.Json.Basic
import TraceAutomata.Number.Integer
import TraceAutomata.Number.Stepwise

/-!
The tokens of JSON texts: brackets, separators, words, numbers and quoted strings. Splitting a
text into tokens settles which strings and numerals are well formed; their arrangement is left
to the reader of whole documents.
-/

namespace TraceAutomata.Json

inductive Token where
  | openList
  | closeList
  | openObject
  | closeObject
  | colon
  | comma
  | null
  | bool (b : Bool)
  | int (n : Int)
  | double (x : Double)
  | str (s : String)
deriving DecidableEq

def unit? (a b c d : Char) : Option Nat :=
  Number.naturalIn? 16 [a, b, c, d]

def escaped? : Char → Option Char
  | '"' => some '"'
  | '\\' => some '\\'
  | '/' => some '/'
  | 'b' => some '\x08'
  | 'f' => some '\x0c'
  | 'n' => some '\n'
  | 'r' => some '\r'
  | 't' => some '\t'
  | _ => none

/-- Whether the unit is the first half of a pair that stands for one character. -/
def isHighHalf (unit : Nat) : Bool :=
  0xD800 ≤ unit && unit < 0xDC00

/-- Whether the unit is the second half of a pair that stands for one character. -/
def isLowHalf (unit : Nat) : Bool :=
  0xDC00 ≤ unit && unit < 0xE000

/-- The characters up to the closing quote, and the text after it. An escaped pair of units is
one character, a half without its partner is refused, and so is a bare control character. -/
def quoted? : List Char → Option (List Char × List Char)
  | [] => none
  | '"' :: rest => some ([], rest)
  | '\\' :: 'u' :: a :: b :: c :: d :: rest =>
      match unit? a b c d with
      | none => none
      | some unit =>
          if isLowHalf unit then none
          else if isHighHalf unit then
            match rest with
            | '\\' :: 'u' :: e :: f :: g :: h :: rest' =>
                match unit? e f g h with
                | none => none
                | some low =>
                    if isLowHalf low then
                      (quoted? rest').map fun (s, after) =>
                        (Char.ofNat (0x10000 + (unit - 0xD800) * 0x400 + (low - 0xDC00)) :: s,
                          after)
                    else none
            | _ => none
          else (quoted? rest).map fun (s, after) => (Char.ofNat unit :: s, after)
  | '\\' :: e :: rest =>
      match escaped? e with
      | none => none
      | some c => (quoted? rest).map fun (s, after) => (c :: s, after)
  | c :: rest =>
      if c == '\\' || c.toNat < 0x20 then none
      else (quoted? rest).map fun (s, after) => (c :: s, after)

theorem length_quoted {text s rest : List Char} (h : quoted? text = some (s, rest)) :
    rest.length < text.length := by
  fun_induction quoted? text generalizing s <;> simp_all <;> grind

def isWordChar (c : Char) : Bool :=
  c.isAlphanum || c == '-' || c == '+' || c == '.'

/-- The token of a number that is not whole, if it is finite. -/
def fractional? (negative : Bool) (n : Numeral) : Option Token :=
  n.stepwise?.map fun magnitude => .double (Double.ofMagnitude negative magnitude)

/-- The number of a numeral without its sign. A numeral without point and exponent is a whole
number as long as 64 bits hold it; zero with a minus sign is not one. -/
def unsignedNumber? (negative : Bool) (text : List Char) : Option Token :=
  let whole := text.takeWhile Char.isDigit
  let rest := text.dropWhile Char.isDigit
  if whole.isEmpty || (whole.length > 1 && whole.head? == some '0') then none
  else if rest.isEmpty then
    let n : Int := Nat.ofDigitChars 10 whole 0
    let n := if negative then -n else n
    if (negative && n == 0) || n < -(Number.twoPow 63 : Int) || Number.twoPow 64 ≤ n then
      fractional? negative ⟨whole, [], 0⟩
    else some (.int n)
  else if rest.head? == some '.' && !((rest.drop 1).head?.any Char.isDigit) then none
  else (Numeral.ofChars? text).bind (fractional? negative)

def number? : List Char → Option Token
  | '-' :: text => unsignedNumber? true text
  | text => unsignedNumber? false text

def word? (text : List Char) : Option Token :=
  if text = ['n', 'u', 'l', 'l'] then some .null
  else if text = ['t', 'r', 'u', 'e'] then some (.bool true)
  else if text = ['f', 'a', 'l', 's', 'e'] then some (.bool false)
  else number? text

def isSpace (c : Char) : Bool :=
  c == ' ' || c == '\n' || c == '\t' || c == '\r'

def mark? : Char → Option Token
  | '[' => some .openList
  | ']' => some .closeList
  | '{' => some .openObject
  | '}' => some .closeObject
  | ':' => some .colon
  | ',' => some .comma
  | _ => none

/-- The tokens of a text; spaces between them do not count. -/
def tokens? (text : List Char) : Option (List Token) :=
  match text with
  | [] => some []
  | c :: rest =>
      if isSpace c then tokens? rest
      else
        match mark? c with
        | some mark => (tokens? rest).map (mark :: ·)
        | none =>
            if c = '"' then
              match _h : quoted? rest with
              | none => none
              | some (s, after) => (tokens? after).map (.str (String.ofList s) :: ·)
            else if isWordChar c then
              match word? (c :: rest.takeWhile isWordChar) with
              | none => none
              | some word => (tokens? (rest.dropWhile isWordChar)).map (word :: ·)
            else none
termination_by text.length
decreasing_by
  · simp
  · simp
  · have := length_quoted _h
    simp
    omega
  · have := (List.dropWhile_suffix (l := rest) isWordChar).length_le
    simp
    omega

end TraceAutomata.Json
