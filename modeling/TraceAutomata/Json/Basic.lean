import TraceAutomata.Dict
import TraceAutomata.Number.Shortest

/-!
JSON documents. Whole numbers are kept apart from numbers with a fraction or an exponent, and
the members of an object are listed in the order in which they are written.
-/

namespace TraceAutomata

inductive Json where
  | null
  | bool (b : Bool)
  /-- A whole number from `-2 ^ 63` up to, not including, `2 ^ 64`. -/
  | int (n : Int)
  | double (x : Double)
  | str (s : String)
  | list (items : List Json)
  | object (members : List (String × Json))
deriving Inhabited

namespace Json

def member? (name : String) : Json → Option Json
  | .object members => members.lookup name
  | _ => none

mutual

/-- The document with the members of every object in increasing order of their names. -/
def sortMembers : Json → Json
  | .list items => .list (sortItems items)
  | .object members => .object (sortNamed members)
  | j => j

def sortItems : List Json → List Json
  | [] => []
  | j :: rest => sortMembers j :: sortItems rest

def sortNamed : List (String × Json) → List (String × Json)
  | [] => []
  | (name, j) :: rest => insertEntry name (sortMembers j) (sortNamed rest)

end

end Json

end TraceAutomata
