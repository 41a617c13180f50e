import TraceAutomata.Run.Action
import TraceAutomata.Run.Resolution

/-!
How one event takes a scenario from state to state. A scenario takes at most one transition,
unless that enters an automatic state: then it handles the same event once more. Scenarios that
are started on the way handle the event at once, and how deeply that may be nested is bounded.
-/

namespace TraceAutomata

/-- How a step of a scenario ended. -/
inductive StepOutcome where
  | settled
  /-- The scenario entered an automatic state and handles the event once more. -/
  | again
  | failed (fault : Fault)
deriving DecidableEq

namespace Run

/-- Whether taking a transition from one state to another is the start of a waiting
scenario. -/
def leavesInitial (f : FsmDefinition) (s : Scenario) (current next : String) : Bool :=
  next != current && current == f.initial && s.isWaiting

/-- The scenario after a transition at a time. -/
def moved (f : FsmDefinition) (current next : String) (time : Int64) (s : Scenario) :
    Scenario :=
  let s :=
    if leavesInitial f s current next then
      { s.advance .inProgress with startTime := some time }
    else s
  let s :=
    if f.isAbandon next then { s.advance .abandoned with endTime := some time }
    else if f.isFinal next then { s.advance .matched with endTime := some time }
    else s
  { s with state := next }

/-- The schedule of an fsm after a transition of one of its scenarios. -/
def counted (f : FsmDefinition) (left : Bool) (status : ScenarioStatus) (c : FsmSchedule) :
    FsmSchedule :=
  let c :=
    if left then
      { c with waiting := c.waiting - 1, startNext := c.startNext || f.concurrent }
    else c
  match status with
  | .matched => { c with matched := c.matched + 1 }
  | .abandoned => { c with abandoned := c.abandoned + 1 }
  | _ => c

def recordMove (r : Run) (subtree : Quark) (time : Int64) (left changed : Bool) (next : String)
    (status : ScenarioStatus) : Run :=
  let r := if left then r.record (History.setStartTime subtree time) else r
  let r := if changed then r.record (History.enterState subtree time next) else r
  let r := if status.isTerminal then r.record (History.setEndTime subtree time) else r
  r.record (History.setState subtree time next status)

/-- Takes a transition whose actions have run. -/
def enter (r : Run) (index : Nat) (f : FsmDefinition) (id : ScenarioId) (current next : String)
    (time : Int64) : Run × StepOutcome :=
  match r.scenario? id with
  | none => (r, .settled)
  | some s =>
      let left := leavesInitial f s current next
      let after := moved f current next time s
      let r := r.modifyScenario id fun _ => after
      let r := r.modifyFsm index (counted f left after.status)
      let r := r.recordMove after.subtree time left (next != current) next after.status
      if after.status.isTerminal then (r.restartIfIdle index, .settled)
      else if next != current && (f.state? next).any (·.automatic) then (r, .again)
      else (r, .settled)

/-- Notes that the scenario handles an event, and records its initial state if it is the
first. -/
def receive (r : Run) (f : FsmDefinition) (s : Scenario) (event : Event) : Run :=
  let r := r.modifyScenario s.id fun s => { s with lastEvent := some r.received }
  if !s.hasStarted && s.state == f.initial then
    let r := r.record (History.setState s.subtree event.nanos s.state .waitingStart)
    r.record (History.enterState s.subtree event.nanos s.state)
  else r

/-- Lets a scenario take at most one transition on an event. Its actions run before it changes
its state. -/
def step (spawn : Spawn) (event : Event) (id : ScenarioId) (r : Run) : Run × StepOutcome :=
  match (r.scenario? id).filter Scenario.isLive with
  | none => (r, .settled)
  | some s =>
      match r.defs.fsmIndex? s.fsm, r.defs.fsm? s.fsm with
      | some index, some f =>
          let r := r.receive f s event
          match f.state? s.state with
          | none => (r, .failed (.unknownState f.id s.state))
          | some state =>
              let resolution := r.defs.resolve state (r.context s.name event)
              if resolution.matched then
                let r := runActions spawn id event resolution.actions r
                r.enter index f id s.state resolution.next event.nanos
              else (r, .settled)
      | _, _ => (r, .failed (.unknownFsm s.fsm))

/-- How often a scenario may handle one event once more. -/
def chainLimit (r : Run) (id : ScenarioId) : Nat :=
  r.settings.chainLimit.getD <|
    match (r.scenario? id).bind fun s => r.defs.fsm? s.fsm with
    | some f => f.states.length
    | none => 0

/-- Lets a scenario handle an event, and once more after each automatic state that it enters,
as often as is allowed. -/
def chain (spawn : Spawn) (event : Event) (id : ScenarioId) : (allowed : Nat) → Run → Run
  | 0, r => (r.step spawn event id).1
  | allowed + 1, r =>
      match r.step spawn event id with
      | (r, .again) => chain spawn event id allowed r
      | (r, _) => r

def handle (spawn : Spawn) (event : Event) (id : ScenarioId) (r : Run) : Run :=
  chain spawn event id (r.chainLimit id) r

/-- Whether an fsm takes another scenario: it has no live one, or it is concurrent and none of
its scenarios is still waiting. -/
def takesScenario (r : Run) (index : Nat) (f : FsmDefinition) (c : FsmSchedule) : Bool :=
  r.liveCount index == 0 || (f.concurrent && c.waiting == 0)

def addScenario (r : Run) (index : Nat) (f : FsmDefinition) (sequence : Nat)
    (parent : Option String) (subtree : Quark) : Run :=
  let id := r.created + 1
  let s : Scenario :=
    { id, name := Scenario.nameOf f.id sequence, fsm := f.id, parent, state := f.initial,
      subtree }
  let r := { r with created := id, scenarios := r.scenarios ++ [s] }
  r.modifyFsm index fun c =>
    { c with created := sequence, pending := c.pending ++ [id], waiting := c.waiting + 1 }

/-- Starts a scenario of an fsm, if the fsm takes one. The event that caused the start is
handled at once; without one, the scenario first waits for the next event. Starts are nested at
most as deeply as the budget says. -/
def launch : (budget : Nat) → (parent : Option String) → (trigger : Option Event) → Run →
    (index : Nat) → Run
  | 0, _, _, r, _ => r
  | budget + 1, parent, trigger, r, index =>
      match r.defs.fsms[index]?, r.fsms[index]? with
      | some f, some c =>
          if r.takesScenario index f c then
            let sequence := c.created + 1
            let time := (trigger.map Event.nanos).getD r.store.endTime
            match History.openScenario r.root (Scenario.nameOf f.id sequence) r.store with
            | .error _ st => { r with store := st }
            | .ok subtree st =>
                let r := { r with store := st }
                let r := r.record (History.setIdentity subtree time f.id parent)
                let r := r.addScenario index f sequence parent subtree
                match trigger with
                | none => r
                | some event =>
                    r.handle (fun r index parent =>
                      launch budget (some parent) (some event) r index) event r.created
          else r
      | _, _ => r

/-- Starts a scenario that no other one asked for. -/
def launchRoot (r : Run) (index : Nat) : Run :=
  launch (r.settings.spawnLimit + 1) none none r index

/-- How a scenario that an event is handed to starts other ones. -/
def spawnOn (event : Event) : Spawn := fun r index parent =>
  launch r.settings.spawnLimit (some parent) (some event) r index

end Run

end TraceAutomata
