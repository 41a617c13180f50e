import TraceAutomata.Time.Range
import TraceAutomata.Value

/-!
Conditions on an event and on the scenario that receives it: trees of comparisons and of checks
of time. The values that are compared come from the event, from the scenario's scratch slots or
from attributes of the store, which are reached along computed paths.
-/

namespace TraceAutomata

inductive CompareOp where
  | eq
  | ne
  | ge
  | gt
  | le
  | lt
deriving DecidableEq

namespace CompareOp

/-- Whether the comparison holds of two values in a given order. -/
def holds : CompareOp → Ordering → Bool
  | .eq, o => o == .eq
  | .ne, o => o != .eq
  | .ge, o => o != .lt
  | .gt, o => o == .gt
  | .le, o => o != .gt
  | .lt, o => o == .lt

end CompareOp

/-- One step of a path of attributes. -/
inductive PathSegment where
  | name (name : String)
  /-- The value of a field of the event, as a name. -/
  | field (field : String)
  /-- The ongoing value of the attribute at another path, as a name. -/
  | query (path : List PathSegment)
  /-- The two steps to the subtree of the scenario. -/
  | scenario

abbrev AttributePath := List PathSegment

namespace AttributePath

mutual

def segmentText : PathSegment → String
  | .name name => name
  | .field field => "$\x7b" ++ field ++ "\x7d"
  | .query path => "[" ++ text path ++ "]"
  | .scenario => "<scenario>"

def text : List PathSegment → String
  | [] => ""
  | [segment] => segmentText segment
  | segment :: rest => segmentText segment ++ "/" ++ text rest

end

def ofNames (names : List String) : AttributePath :=
  names.map .name

end AttributePath

/-- Where a value comes from. -/
inductive ValueSource where
  | literal (value : Value)
  | field (field : String)
  | eventName
  /-- The time of the event in nanoseconds. -/
  | timestamp
  /-- What the scenario saved in a scratch slot. -/
  | scratch (slot : String)
  /-- The ongoing value of an attribute. -/
  | query (path : AttributePath)

inductive Condition where
  | not (inner : Condition)
  | and (children : List Condition)
  | or (children : List Condition)
  | compare (left : ValueSource) (op : CompareOp) (right : ValueSource)
  | equal (first second : ValueSource)
  | timeRange (range : TimeRange)
  | elapsed (elapsed : Elapsed)

namespace Condition

mutual

/-- The condition and all conditions in it, an outer one before its parts. -/
def subconditions : Condition → List Condition
  | .not inner => .not inner :: subconditions inner
  | .and children => .and children :: allSubconditions children
  | .or children => .or children :: allSubconditions children
  | c => [c]

def allSubconditions : List Condition → List Condition
  | [] => []
  | c :: rest => subconditions c ++ allSubconditions rest

end

/-- Whether the condition compares values, by itself. -/
def comparesValues : Condition → Bool
  | .compare .. => true
  | .equal .. => true
  | _ => false

end Condition

end TraceAutomata
