import TraceAutomata.Definition.Compile
import TraceAutomata.Scenario.Basic
import TraceAutomata.Scenario.History

/-!
The state of a run: the store, the scenarios that are remembered, what has been emitted, and for
each fsm which of its scenarios are in line to handle events.
-/

namespace TraceAutomata

structure RunSettings where
  /-- What the name of every synthetic event begins with. -/
  eventNamePrefix : String := "seg_"
  /-- How many times a scenario may handle one event once more; by default as often as its fsm
  has states. -/
  chainLimit : Option Nat := none
  /-- How deeply starts of scenarios by scenarios may be nested on one event. -/
  spawnLimit : Nat := 16
deriving DecidableEq

/-- The scenarios of one fsm. -/
structure FsmSchedule where
  id : String
  /-- The scenarios that the next events are handed to, oldest first. -/
  active : List ScenarioId := []
  /-- The scenarios that were started since the fsm was last visited. -/
  pending : List ScenarioId := []
  /-- How many of these scenarios have not left their initial state. -/
  waiting : Nat := 0
  /-- How many scenarios were started. -/
  created : Nat := 0
  matched : Nat := 0
  abandoned : Nat := 0
  /-- Whether a scenario is to be started with the next event. -/
  startNext : Bool := false
  /-- Whether the fsm is one of the initial ones. -/
  isRoot : Bool := false
deriving DecidableEq

namespace FsmSchedule

/-- All scenarios in line, in the order in which they were started. -/
def tracked (s : FsmSchedule) : List ScenarioId :=
  s.active ++ s.pending

def mergePending (s : FsmSchedule) : FsmSchedule :=
  { s with active := s.tracked, pending := [] }

end FsmSchedule

/-- The counts that are reported of an fsm. -/
structure FsmStats where
  id : String
  created : Nat
  live : Nat
  waiting : Nat
  matched : Nat
  abandoned : Nat
deriving DecidableEq

structure Run where
  defs : DefinitionSet
  settings : RunSettings
  store : Store
  /-- The synthetic events in the order of their emission. -/
  emitted : Array SyntheticEvent := #[]
  /-- The root attribute of the pattern. -/
  root : Quark
  /-- One schedule for each fsm, in the order of the definition. -/
  fsms : List FsmSchedule
  /-- The scenarios that are remembered, in the order in which they were started. -/
  scenarios : List Scenario := []
  /-- How many scenarios were started. -/
  created : Nat := 0
  /-- Whether the initial fsms have been started. -/
  begun : Bool := false
  /-- How many events were received. -/
  received : Nat := 0
  /-- Whether the run has ended and receives no more events. -/
  disposed : Bool := false

namespace Run

/-- A run that has received nothing yet. -/
def start (defs : DefinitionSet) (store : Store) (settings : RunSettings) :
    Except Fault Run := do
  let (store, root) ← Fault.ofStore (store.ensure Store.root [defs.id])
  return { defs, settings, store, root, fsms := defs.fsms.map fun f => { id := f.id } }

def scenario? (r : Run) (id : ScenarioId) : Option Scenario :=
  r.scenarios.find? fun s => s.id == id

def scenarioNamed? (r : Run) (name : String) : Option Scenario :=
  r.scenarios.find? fun s => s.name == name

def modifyScenario (r : Run) (id : ScenarioId) (f : Scenario → Scenario) : Run :=
  { r with scenarios := r.scenarios.map fun s => if s.id == id then f s else s }

def modifyFsm (r : Run) (index : Nat) (f : FsmSchedule → FsmSchedule) : Run :=
  { r with fsms := r.fsms.modify index f }

def isLive (r : Run) (id : ScenarioId) : Bool :=
  (r.scenario? id).any Scenario.isLive

/-- How many scenarios of an fsm are neither matched nor abandoned. -/
def liveCount (r : Run) (index : Nat) : Nat :=
  match r.fsms[index]? with
  | some f => f.tracked.countP r.isLive
  | none => 0

def stats (r : Run) : List FsmStats :=
  r.fsms.mapIdx fun index f =>
    ⟨f.id, f.created, r.liveCount index, f.waiting, f.matched, f.abandoned⟩

/-- The scenarios in line that are neither matched nor abandoned. -/
def liveScenarios (r : Run) : List Scenario :=
  (r.fsms.flatMap FsmSchedule.tracked).filterMap fun id =>
    (r.scenario? id).filter Scenario.isLive

def records (r : Run) : Except Fault (List ScenarioRecord) :=
  Fault.ofStore (ScenarioRecord.list r.store r.root)

/-- Changes the store. A change that is refused keeps what it did before it was, and the run
goes on. -/
def record (r : Run) (change : StoreM Unit) : Run :=
  match change r.store with
  | .ok _ st => { r with store := st }
  | .error _ st => { r with store := st }

/-- What conditions are evaluated against for one scenario. -/
def context (r : Run) (scenario : String) (event : Event) : GuardContext :=
  ⟨r.store, r.root, scenario, event⟩

/-- Lets a new scenario of an initial fsm start with the next event, if none is live. -/
def restartIfIdle (r : Run) (index : Nat) : Run :=
  if r.liveCount index = 0 then
    r.modifyFsm index fun f => if f.isRoot then { f with startNext := true } else f
  else r

end Run

end TraceAutomata
