import TraceAutomata.Store.Error
import TraceAutomata.Value

/-!
A tree of attributes, each with the history of its values. Attributes are numbered in the order
of their creation, so a parent has a smaller number than its children. A history only grows at
its end, and a write that changes nothing adds nothing to it.
-/

namespace TraceAutomata

abbrev Quark := Nat

/-- A value that holds from a time on, until the next interval begins. -/
structure Interval where
  start : Int64
  value : Value
deriving DecidableEq, Inhabited

structure Node where
  name : String
  /-- None for the root alone. -/
  parent : Option Quark
  children : Dict Quark
  /-- The values in the order of their beginnings; the last one is the ongoing value. -/
  intervals : Array Interval

structure Store where
  nodes : Array Node
  startTime : Int64
  /-- The latest time that the store has heard of. -/
  endTime : Int64
  /-- A name; writes to attributes at or below that name are refused. -/
  lockedName : Option String := none

namespace Store

def root : Quark := 0

/-- The segment of a pattern that every name matches. -/
def wildcard : String := "*"

def empty (startTime : Int64) : Store where
  nodes := #[⟨"", none, ∅, #[]⟩]
  startTime := startTime
  endTime := startTime

def size (st : Store) : Nat :=
  st.nodes.size

def node (st : Store) (q : Quark) : Except StoreError Node :=
  match st.nodes[q]? with
  | some n => .ok n
  | none => .error (.invalidQuark q)

/-- The names from the root down to an attribute. Parents have smaller numbers, so the way up
ends. -/
def segments (st : Store) (q : Quark) : List String :=
  match st.nodes[q]? with
  | none => []
  | some n =>
      match n.parent with
      | none => []
      | some p => if p < q then st.segments p ++ [n.name] else [n.name]
termination_by q

def pathText (names : List String) : String :=
  "/".intercalate names

def name (st : Store) (q : Quark) : Except StoreError String :=
  (st.node q).map Node.name

def fullPath (st : Store) (q : Quark) : Except StoreError String :=
  (st.node q).map fun _ => pathText (st.segments q)

/-- The children of an attribute in increasing order of their names. -/
def children (st : Store) (q : Quark) : Except StoreError (List Quark) :=
  (st.node q).map fun n => n.children.values

def resolve (st : Store) (q : Quark) : List String → Except StoreError Quark
  | [] => .ok q
  | name :: rest => do
      match (← st.node q).children.find? name with
      | some child => st.resolve child rest
      | none => .error (.attributeNotFound (pathText (st.segments q) ++ "/" ++ name))

def addChild (st : Store) (q : Quark) (name : String) : Store :=
  let child : Quark := st.nodes.size
  { st with
    nodes := (st.nodes.modify q fun n => { n with children := n.children.insert name child }).push
      ⟨name, some q, ∅, #[]⟩ }

/-- The attribute that a path leads to from another one; what is missing on the way is added. -/
def ensure (st : Store) (q : Quark) : List String → Except StoreError (Store × Quark)
  | [] => .ok (st, q)
  | name :: rest => do
      match (← st.node q).children.find? name with
      | some child => st.ensure child rest
      | none => (st.addChild q name).ensure st.nodes.size rest

/-- Moves the end of the observed time forward, never back. -/
def extendTo (st : Store) (time : Int64) : Store :=
  if st.endTime < time then { st with endTime := time } else st

def isLocked (st : Store) (q : Quark) : Bool :=
  match st.lockedName with
  | none => false
  | some name => ((pathText (st.segments q)).splitOn "/").contains name

def addInterval (st : Store) (q : Quark) (interval : Interval) : Store :=
  { st with
    nodes := st.nodes.modify q fun n => { n with intervals := n.intervals.push interval } }

/-- Sets the value of an attribute from a time on. The value that holds already adds no
interval, and neither does `null` to an attribute without one. -/
def write (st : Store) (q : Quark) (time : Int64) (value : Value) : Except StoreError Store := do
  let n ← st.node q
  if st.isLocked q then
    throw (.locked (pathText (st.segments q)))
  match n.intervals.back? with
  | some last =>
      if time < last.start then
        throw (.timeOrdering (pathText (st.segments q)) last.start time)
      else if last.value.coincides value then
        return st.extendTo time
      else
        return (st.addInterval q ⟨time, value⟩).extendTo time
  | none =>
      if value.isNull then return st.extendTo time
      else return (st.addInterval q ⟨time, value⟩).extendTo time

def ongoing (st : Store) (q : Quark) : Except StoreError Value :=
  (st.node q).map fun n => (n.intervals.back?.map Interval.value).getD .null

/-- The value at a time and the beginning of the interval that holds it; before the first
interval that is `null` since the start of the store. -/
def valueAt (st : Store) (q : Quark) (time : Int64) : Except StoreError (Value × Int64) :=
  (st.node q).map fun n =>
    match (n.intervals.toList.takeWhile fun i => i.start ≤ time).getLast? with
    | some i => (i.value, i.start)
    | none => (.null, st.startTime)

def history (st : Store) (q : Quark) : Except StoreError (List Interval) :=
  (st.node q).map fun n => n.intervals.toList

/-- The attributes one step below another one that a segment of a pattern matches. -/
def matching (st : Store) (segment : String) (q : Quark) : Except StoreError (List Quark) :=
  if segment = wildcard then st.children q
  else
    match st.resolve q [segment] with
    | .ok child => .ok [child]
    | .error _ => .ok []

/-- The attributes below another one whose paths match a pattern segment by segment. -/
def scan (st : Store) (q : Quark) (pattern : List String) : Except StoreError (List Quark) :=
  pattern.foldlM (fun found segment => do return (← found.mapM (st.matching segment)).flatten) [q]

end Store

end TraceAutomata
