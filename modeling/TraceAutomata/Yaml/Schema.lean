import TraceAutomata.Json.Basic
import TraceAutomata.Yaml.Reader

/-!
The meaning of YAML documents: which plain scalars are null, truth values and numbers, and the
JSON document that a YAML document stands for. A quoted scalar is always a text.
-/

namespace TraceAutomata.Yaml

def isNull (text : String) : Bool :=
  ["", "null", "Null", "NULL", "~"].contains text

def bool? (text : String) : Option Bool :=
  if ["true", "True", "TRUE"].contains text then some true
  else if ["false", "False", "FALSE"].contains text then some false
  else none

/-- Whether the text has nothing but digits after its sign, and a zero before further ones. Such
a text is no number. -/
def hasLeadingZero (text : List Char) : Bool :=
  let digits := match text with
    | '-' :: digits => digits
    | '+' :: digits => digits
    | digits => digits
  1 < digits.length && digits.head? == some '0' && digits.all Char.isDigit

/-- The number of a numeral without a sign; a letter after a zero gives the radix. -/
def natural? : List Char → Option Nat
  | '0' :: 'x' :: digits => Number.naturalIn? 16 digits
  | '0' :: 'o' :: digits => Number.naturalIn? 8 digits
  | '0' :: 'b' :: digits => Number.naturalIn? 2 digits
  | digits => if hasLeadingZero digits then none else Number.naturalIn? 10 digits

def unsigned? : List Char → Option Nat
  | '+' :: text => natural? text
  | text => natural? text

def integer? : List Char → Option Int
  | '-' :: text => (natural? text).map fun n => -(n : Int)
  | text => (unsigned? text).map Int.ofNat

/-- The floating-point number of a numeral that may have a sign, or of the word for one that is
not finite. Numerals of numbers that are too large are texts. -/
def double? (text : List Char) : Option Double :=
  let unsigned := match text with
    | '+' :: rest => rest
    | rest => rest
  if text.head? == some '+' && unsigned.head? == some '-' then none
  else if [".inf", ".Inf", ".INF"].contains (String.ofList unsigned) then
    some (.ofMagnitude false Double.infinityMagnitude)
  else if ["-.inf", "-.Inf", "-.INF"].contains (String.ofList text) then
    some (.ofMagnitude true Double.infinityMagnitude)
  else if [".nan", ".NaN", ".NAN"].contains (String.ofList text) then
    some (.ofMagnitude false (Double.infinityMagnitude + Number.twoPow 51))
  else
    ((Decimal.ofChars? unsigned).map Decimal.toDouble).filter Double.isFinite

/-- The JSON value of a plain scalar. Integers that need more than 64 bits but not more than 128
have none; those beyond are floating-point numbers, as far as they have a decimal numeral. -/
def plainJson? (text : String) : Option Json :=
  let chars := text.toList
  let other : Json :=
    if hasLeadingZero chars then .str text
    else
      match double? chars with
      | some x => if x.isFinite then .double x else .null
      | none => .str text
  if isNull text then some .null
  else
    match bool? text, integer? chars with
    | some b, _ => some (.bool b)
    | none, some n =>
        if -(Number.twoPow 63 : Int) ≤ n ∧ n < Number.twoPow 64 then some (.int n)
        else if -(Number.twoPow 127 : Int) ≤ n ∧ n < Number.twoPow 128 then none
        else some other
    | none, none => some other

namespace Node

mutual

/-- The JSON document that a document stands for. Of entries of one name the last one counts. -/
def toJson? : Node → Option Json
  | .plain text => plainJson? text
  | .quoted text => some (.str text)
  | .list items => (itemsToJson? items).map .list
  | .map entries => (entriesToJson? entries).map fun es => .object (Dict.ofList es).entries

def itemsToJson? : List Node → Option (List Json)
  | [] => some []
  | n :: rest => do return (← toJson? n) :: (← itemsToJson? rest)

def entriesToJson? : List (String × Node) → Option (List (String × Json))
  | [] => some []
  | (name, n) :: rest => do return (name, ← toJson? n) :: (← entriesToJson? rest)

end

end Node

def jsonOfText? (text : String) : Option Json :=
  (Node.ofText? text).bind Node.toJson?

end TraceAutomata.Yaml
