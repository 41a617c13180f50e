import TraceAutomata.Json.Basic
import TraceAutomata.Number.Integer

/-!
Taking JSON documents apart: members that must be there, members with a default, lists of names
that may be written as one text, and alternatives that are told apart by a tag.
-/

namespace TraceAutomata.Json

universe u

variable {α : Type u}

def string? : Json → Option String
  | .str s => some s
  | _ => none

def bool? : Json → Option Bool
  | .bool b => some b
  | _ => none

def int64? : Json → Option Int64
  | .int n => Number.int64? n
  | _ => none

def int32? : Json → Option Int32
  | .int n => Number.int32? n
  | _ => none

def int8? : Json → Option Int8
  | .int n => Number.int8? n
  | _ => none

/-- The number below `2 ^ 64` that the document is. -/
def count? : Json → Option Nat
  | .int n => Number.count? n
  | _ => none

/-- The floating-point number that the document is or that is nearest to it. -/
def double? : Json → Option Double
  | .int n => some (Double.ofInt n)
  | .double x => some x
  | _ => none

def listOf? (decode : Json → Option α) : Json → Option (List α)
  | .list items => items.mapM decode
  | _ => none

def dictOf? (decode : Json → Option α) : Json → Option (Dict α)
  | .object members =>
      (members.mapM fun (m : String × Json) => (decode m.2).map fun v => (m.1, v)).map Dict.ofList
  | _ => none

/-- Names in a list, or one name by itself. -/
def names? : Json → Option (List String)
  | .str s => some [s]
  | j => listOf? string? j

/-- The member under a name, which must be there. The records of a document are read from objects alone:
a list that gives the members of a record in their order is not taken for the record. -/
def required (j : Json) (name : String) (decode : Json → Option α) : Option α :=
  (j.member? name).bind decode

/-- The member under a name, or a default where an object has no such member. -/
def withDefault (j : Json) (name : String) (decode : Json → Option α) (default : α) : Option α :=
  match j, j.member? name with
  | .object _, none => some default
  | _, some v => decode v
  | _, none => none

/-- The member under a name; no such member, and `null` in its place, stand for none. -/
def optional (j : Json) (name : String) (decode : Json → Option α) : Option (Option α) :=
  match j, j.member? name with
  | .object _, none => some none
  | _, some .null => some none
  | _, some v => (decode v).map some
  | _, none => none

/-- A tag and its content: an object with one member, or the tag alone, whose content is then
`null`. -/
def tagged? : Json → Option (String × Json)
  | .str tag => some (tag, .null)
  | .object [(tag, content)] => some (tag, content)
  | _ => none

def tag (name : String) (content : Json) : Json :=
  .object [(name, content)]

/-- Which of the named alternatives without content the document is. -/
def oneOf? (alternatives : List (String × α)) (j : Json) : Option α :=
  match tagged? j with
  | some (tag, .null) => alternatives.lookup tag
  | _ => none

def names (names : List String) : Json :=
  .list (names.map .str)

def ofDict (encode : α → Json) (d : Dict α) : Json :=
  .object (d.entries.map fun e => (e.1, encode e.2))

/-- A member that is left out where there is nothing to write. -/
def memberOfOption (name : String) (encode : α → Json) : Option α → List (String × Json)
  | none => []
  | some v => [(name, encode v)]

end TraceAutomata.Json
