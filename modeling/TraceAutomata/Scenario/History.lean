import TraceAutomata.Scenario.Layout
import TraceAutomata.Scenario.Status
import TraceAutomata.Store.Basic

/-!
The record of a scenario in the store: what is written as the scenario goes on, and how it is
read back. Attributes that a write needs are created first and stay, even if the write itself is
refused.
-/

namespace TraceAutomata

/-- A change of the store that may be refused halfway. -/
abbrev StoreM := EStateM StoreError Store

namespace StoreM

def ensure (q : Quark) (path : List String) : StoreM Quark := fun st =>
  match st.ensure q path with
  | .ok (st, q) => .ok q st
  | .error e => .error e st

def write (q : Quark) (time : Int64) (value : Value) : StoreM Unit := fun st =>
  match st.write q time value with
  | .ok st => .ok () st
  | .error e => .error e st

end StoreM

namespace History

/-- The subtree of a scenario below the root of its pattern, created if it is missing. -/
def openScenario (root : Quark) (scenario : String) : StoreM Quark :=
  StoreM.ensure root (Layout.scenarioPath scenario)

def write (subtree : Quark) (time : Int64) (path : List String) (value : Value) :
    StoreM Unit := do
  let q ← StoreM.ensure subtree path
  StoreM.write q time value

/-- Records the fsm of a scenario and the fsm that started it, if any did. -/
def setIdentity (subtree : Quark) (time : Int64) (fsm : String) (parent : Option String) :
    StoreM Unit := do
  write subtree time [Layout.fsm] (.string fsm)
  match parent with
  | some parent => write subtree time [Layout.parent] (.string parent)
  | none => pure ()

def setState (subtree : Quark) (time : Int64) (state : String) (status : ScenarioStatus) :
    StoreM Unit := do
  write subtree time [Layout.state] (.string state)
  write subtree time [Layout.status] (.string status.text)

def setStartTime (subtree : Quark) (time : Int64) : StoreM Unit :=
  write subtree time [Layout.startTime] (.long time)

def setEndTime (subtree : Quark) (time : Int64) : StoreM Unit :=
  write subtree time [Layout.endTime] (.long time)

def enterState (subtree : Quark) (time : Int64) (state : String) : StoreM Unit :=
  write subtree time (Layout.statePath state) (.long time)

def saveSlot (subtree : Quark) (time : Int64) (slot : String) (value : Value) : StoreM Unit :=
  write subtree time (Layout.slotPath slot) value

def clearSlot (subtree : Quark) (time : Int64) (slot : String) : StoreM Unit :=
  write subtree time (Layout.slotPath slot) .null

def scratchValues (st : Store) (subtree : Quark) : Except StoreError (Dict Value) :=
  match st.resolve subtree [Layout.scratch] with
  | .error _ => .ok ∅
  | .ok scratch => do
      (← st.children scratch).foldlM (fun found slot => do
        let value ← st.ongoing slot
        if value.isNull then return found else return found.insert (← st.name slot) value) ∅

end History

/-- A scenario as the store records it. -/
structure ScenarioRecord where
  name : String
  fsm : String
  parent : Option String
  state : String
  status : String
  startTime : Option Int64
  endTime : Option Int64
  scratch : Dict Value
deriving DecidableEq

namespace ScenarioRecord

/-- The ongoing value of a child of a scenario's subtree; null if there is no such child. -/
def childValue (st : Store) (subtree : Quark) (name : String) : Value :=
  match st.resolve subtree [name] with
  | .error _ => .null
  | .ok q =>
      match st.ongoing q with
      | .error _ => .null
      | .ok value => value

def read (st : Store) (subtree : Quark) : Except StoreError ScenarioRecord := do
  let text := fun name => (childValue st subtree name).string?
  let time := fun name => (childValue st subtree name).int64?
  return ⟨← st.name subtree, (text Layout.fsm).getD "", text Layout.parent,
    (text Layout.state).getD "", (text Layout.status).getD "", time Layout.startTime,
    time Layout.endTime, ← History.scratchValues st subtree⟩

/-- The number after the last `#` of a name, 0 where there is none. -/
def sequenceOf (name : String) : Nat :=
  let digits := (name.toList.reverse.takeWhile (· != '#')).reverse
  if name.toList.contains '#' then (Number.countOfText? digits).getD 0 else 0

def sequence (r : ScenarioRecord) : Nat :=
  sequenceOf r.name

def isTerminal (r : ScenarioRecord) : Bool :=
  r.status == ScenarioStatus.matched.text || r.status == ScenarioStatus.abandoned.text

/-- Records are ordered by their fsm, and by their number within it. -/
def notAfter (a b : ScenarioRecord) : Bool :=
  a.fsm < b.fsm || (a.fsm == b.fsm && a.sequence ≤ b.sequence)

def list (st : Store) (root : Quark) : Except StoreError (List ScenarioRecord) := do
  let records ← (← st.scan root [Layout.scenarios, Store.wildcard]).mapM (read st)
  return records.mergeSort notAfter

def toJson (r : ScenarioRecord) : Json :=
  .object <|
    [("name", .str r.name), ("fsm", .str r.fsm)] ++
    Json.memberOfOption "parent" .str r.parent ++
    [("state", .str r.state), ("status", .str r.status)] ++
    Json.memberOfOption "start_time" (fun t => .int t.toInt) r.startTime ++
    Json.memberOfOption "end_time" (fun t => .int t.toInt) r.endTime ++
    (if r.scratch.isEmpty then [] else [("scratch", .ofDict Value.toJson r.scratch)])

def ofJson? (j : Json) : Option ScenarioRecord := do
  return ⟨← j.required "name" Json.string?, ← j.required "fsm" Json.string?,
    ← j.optional "parent" Json.string?, ← j.required "state" Json.string?,
    ← j.required "status" Json.string?, ← j.optional "start_time" Json.int64?,
    ← j.optional "end_time" Json.int64?,
    ← j.withDefault "scratch" (Json.dictOf? Value.ofJson?) ∅⟩

end ScenarioRecord

end TraceAutomata
