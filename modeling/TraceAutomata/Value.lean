import TraceAutomata.Json.Decode

/-!
The values that events carry and attributes hold. Numbers of all kinds share one natural order,
texts have their own, and nothing else can be compared.
-/

namespace TraceAutomata

inductive Value where
  | null
  | string (s : String)
  | int (n : Int32)
  | long (n : Int64)
  | double (x : Double)
deriving DecidableEq

namespace Value

instance : Inhabited Value := ⟨.null⟩

/-- The word for the kind of a value in messages and documents. -/
def kind : Value → String
  | .null => "null"
  | .string _ => "string"
  | .int _ => "int"
  | .long _ => "long"
  | .double _ => "double"

def isNull : Value → Bool
  | .null => true
  | _ => false

def string? : Value → Option String
  | .string s => some s
  | _ => none

/-- The integer that a value of one of the two integral kinds stands for. -/
def integer? : Value → Option Int
  | .int n => some n.toInt
  | .long n => some n.toInt
  | _ => none

/-- An integer in the narrower of the two kinds that hold it. -/
def ofInt64 (n : Int64) : Value :=
  match Number.int32? n.toInt with
  | some small => .int small
  | none => .long n

/-- The integer of a value of integral kind, as a word of 64 bits. -/
def int64? (v : Value) : Option Int64 :=
  v.integer?.map Int64.ofInt

/-- The natural order. An integer that meets a floating-point number is rounded to one first,
and floating-point numbers are in their total order. -/
def compare : Value → Value → Option Ordering
  | .string a, .string b => some (Ord.compare a b)
  | .double a, .double b => some (Ord.compare a.rank b.rank)
  | .double a, b => b.integer?.map fun n => Ord.compare a.rank (Double.ofInt n).rank
  | a, .double b => a.integer?.map fun n => Ord.compare (Double.ofInt n).rank b.rank
  | a, b => do return Ord.compare (← a.integer?) (← b.integer?)

/-- Equality under the natural order; `null` equals itself alone. -/
def sameAs (a b : Value) : Bool :=
  (a.isNull && b.isNull) || a.compare b == some .eq

/-- Equality of values of one kind, floating-point numbers by their numerical equality. -/
def coincides : Value → Value → Bool
  | .double a, .double b => a.equals b
  | a, b => a == b

def text : Value → String
  | .null => "null"
  | .string s => s
  | .int n => toString n.toInt
  | .long n => toString n.toInt
  | .double x => x.plainText

/-- The text of a value as a name; `null` names nothing. -/
def name? : Value → Option String
  | .null => none
  | v => some v.text

/-- A value as a document: the word `null`, or the value under the word for its kind. -/
def toJson : Value → Json
  | .null => .str "null"
  | .string s => .tag "string" (.str s)
  | .int n => .tag "int" (.int n.toInt)
  | .long n => .tag "long" (.int n.toInt)
  | .double x => .tag "double" (.double x)

def ofJson? (j : Json) : Option Value :=
  match j.tagged? with
  | some ("null", .null) => some .null
  | some ("string", content) => content.string?.map .string
  | some ("int", content) => content.int32?.map .int
  | some ("long", content) => content.int64?.map .long
  | some ("double", content) => content.double?.map .double
  | _ => none

end Value

end TraceAutomata
