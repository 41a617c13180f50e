import TraceAutomata.Run.Dispatch

/-!
The moments that a run goes through. Each call of a run is accompanied by the list of what happens
during it, one elementary act after the other, each with the run as it is just before the act. All
runs in the list are those that the call itself goes through.
-/

namespace TraceAutomata

/-- What is about to happen at a moment of a run. -/
inductive Act where
  | arrive
  | begin
  | appoint (index : Nat)
  | takeDue (index : Nat)
  /-- It is decided whether a scenario is started, with so many nested starts left. -/
  | decide (left index : Nat) (parent : Option String) (trigger : Option Event)
  /-- The subtree of a new scenario cannot be opened. -/
  | abort (index : Nat)
  | enroll (index : Nat) (parent : Option String) (trigger : Option Event)
  | handle (id : ScenarioId)
  | receive (f : FsmDefinition) (s : Scenario)
  | operate (scope : ActionScope) (op : Operation)
  | change (scope : ActionScope) (names : List String) (value : Value)
  /-- A scratch slot is written, with `null` if it is cleared. -/
  | save (scope : ActionScope) (slot : String) (value : Value)
  | emit (scope : ActionScope) (synthetic : SyntheticEvent)
  /-- A scenario enters a state, after the actions of its transition. -/
  | enter (index : Nat) (f : FsmDefinition) (s : Scenario) (next : String)
  | merge (index : Nat)
  | retire (index : Nat)
  | cancel (s : Scenario)
  | dispose

/-- An act with the run just before it and the event that is being handled, if any. -/
structure Moment where
  run : Run
  event : Option Event
  act : Act

/-- A call of a run from outside. -/
inductive Call where
  | event (e : Event)
  | cancel (id : ScenarioId)
  | dispose

namespace Scenario

def scope (s : Scenario) : ActionScope :=
  ⟨s.name, s.fsm, s.subtree, s.startTime⟩

end Scenario

namespace Run

def savedSlots (r : Run) (event : Event) : List (String × Value) :=
  r.defs.scratchFields.entries.filterMap fun (field, slot) =>
    (event.field? field).map fun value => (slot, value)

def clearedSlots (r : Run) : List (String × Value) :=
  r.defs.scratchFields.values.map fun slot => (slot, .null)

def saveSlot (scope : ActionScope) (event : Event) (r : Run) (entry : String × Value) : Run :=
  r.record (History.saveSlot scope.subtree event.nanos entry.1 entry.2)

/-- A new scenario of an fsm, recorded in a subtree that has been opened. -/
def admitted (r : Run) (index : Nat) (f : FsmDefinition) (c : FsmSchedule)
    (parent : Option String) (time : Int64) (subtree : Quark) (st : Store) : Run :=
  let r := { r with store := st }
  (r.record (History.setIdentity subtree time f.id parent)).addScenario index f (c.created + 1)
    parent subtree

/-- The moments of a repeated change, in the order of the list that it runs over. -/
def foldMoments {α : Type} (f : Run → α → Run) (moments : Run → α → List Moment) :
    Run → List α → List Moment
  | _, [] => []
  | r, a :: rest => moments r a ++ foldMoments f moments (f r a) rest

section Handle

variable (spawn : Spawn) (spawned : Run → Nat → String → List Moment) (event : Event)

def spawnAllMoments (parent : String) : List String → Run → List Moment
  | [], _ => []
  | fsm :: rest, r =>
      match r.defs.fsmIndex? fsm with
      | none => []
      | some index =>
          spawned r index parent ++ spawnAllMoments parent rest (spawn r index parent)

def slotMoments (scope : ActionScope) : Run → List (String × Value) → List Moment :=
  foldMoments (saveSlot scope event) fun r entry =>
    [⟨r, some event, .save scope entry.1 entry.2⟩]

def operateMoments (scope : ActionScope) (r : Run) (op : Operation) : List Moment :=
  ⟨r, some event, .operate scope op⟩ ::
    match op with
    | .stateChange path value =>
        let ctx := r.context scope.scenario event
        match AttributePath.names ctx path, value.resolve ctx with
        | .ok names, .ok value => [⟨r, some event, .change scope names value⟩]
        | _, _ => []
    | .saveScratch => slotMoments event scope r (r.savedSlots event)
    | .clearScratch => slotMoments event scope r r.clearedSlots
    | .synthetic name fields =>
        match r.synthesize scope event name fields with
        | .ok synthetic => [⟨r, some event, .emit scope synthetic⟩]
        | .error _ => []
    | .spawn fsms => spawnAllMoments spawn spawned scope.fsm fsms r

def actionMoments (scope : ActionScope) (r : Run) (id : String) : List Moment :=
  match r.defs.action id with
  | .ok ops =>
      foldMoments (fun r op => attempt (operate spawn scope event op) r)
        (operateMoments spawn spawned event scope) r ops
  | .error _ => []

def actionsMoments (id : ScenarioId) (actions : List String) (r : Run) : List Moment :=
  match r.scenario? id with
  | none => []
  | some s =>
      foldMoments (runAction spawn s.scope event) (actionMoments spawn spawned event s.scope) r
        actions

def stepMoments (id : ScenarioId) (r : Run) : List Moment :=
  match (r.scenario? id).filter Scenario.isLive with
  | none => []
  | some s =>
      match r.defs.fsmIndex? s.fsm, r.defs.fsm? s.fsm with
      | some index, some f =>
          let received := r.receive f s event
          ⟨r, some event, .receive f s⟩ ::
            match f.state? s.state with
            | none => []
            | some state =>
                let resolution := received.defs.resolve state (received.context s.name event)
                if resolution.matched then
                  actionsMoments spawn spawned event id resolution.actions received ++
                    [⟨runActions spawn id event resolution.actions received, some event,
                      .enter index f { s with lastEvent := some received.received }
                        resolution.next⟩]
                else []
      | _, _ => []

def chainMoments (id : ScenarioId) : (allowed : Nat) → Run → List Moment
  | 0, r => stepMoments spawn spawned event id r
  | allowed + 1, r =>
      stepMoments spawn spawned event id r ++
        match r.step spawn event id with
        | (r, .again) => chainMoments id allowed r
        | _ => []

def handleMoments (id : ScenarioId) (r : Run) : List Moment :=
  ⟨r, some event, .handle id⟩ :: chainMoments spawn spawned event id (r.chainLimit id) r

end Handle

def launchMoments (now : Event) : (budget : Nat) → (parent : Option String) →
    (trigger : Option Event) → Run → (index : Nat) → List Moment
  | 0, parent, trigger, r, index => [⟨r, some now, .decide 0 index parent trigger⟩]
  | budget + 1, parent, trigger, r, index =>
      ⟨r, some now, .decide (budget + 1) index parent trigger⟩ ::
        match r.defs.fsms[index]?, r.fsms[index]? with
        | some f, some c =>
            if r.takesScenario index f c then
              let time := (trigger.map Event.nanos).getD r.store.endTime
              match History.openScenario r.root (Scenario.nameOf f.id (c.created + 1)) r.store with
              | .error _ _ => [⟨r, some now, .abort index⟩]
              | .ok subtree st =>
                  let after := r.admitted index f c parent time subtree st
                  ⟨r, some now, .enroll index parent trigger⟩ ::
                    match trigger with
                    | none => []
                    | some event =>
                        handleMoments
                          (fun r index parent => launch budget (some parent) (some event) r index)
                          (fun r index parent =>
                            launchMoments now budget (some parent) (some event) r index)
                          event after.created after
            else []
        | _, _ => []

def launchRootMoments (now : Event) (r : Run) (index : Nat) : List Moment :=
  launchMoments now (r.settings.spawnLimit + 1) none none r index

def spawnOnMoments (event : Event) : Run → Nat → String → List Moment := fun r index parent =>
  launchMoments event r.settings.spawnLimit (some parent) (some event) r index

def beginMoments (event : Event) (r : Run) : List Moment :=
  ⟨r, some event, .begin⟩ ::
    foldMoments (fun r id =>
        match r.defs.fsmIndex? id with
        | some index => (r.modifyFsm index fun c => { c with isRoot := true }).launchRoot index
        | none => r)
      (fun r id =>
        match r.defs.fsmIndex? id with
        | some index =>
            ⟨r, some event, .appoint index⟩ ::
              launchRootMoments event (r.modifyFsm index fun c => { c with isRoot := true }) index
        | none => [])
      { r with begun := true } r.defs.initial

def startDueMoments (event : Event) (r : Run) (index : Nat) : List Moment :=
  match r.fsms[index]? with
  | some c =>
      if c.startNext then
        ⟨r, some event, .takeDue index⟩ ::
          launchRootMoments event (r.modifyFsm index fun c => { c with startNext := false }) index
      else []
  | none => []

def offerMoments (f : FsmDefinition) (event : Event) (r : Run) (id : ScenarioId) :
    List Moment :=
  match r.scenario? id with
  | some s =>
      if s.isLive && s.lastEvent != some r.received &&
          r.defs.preconditionsPass (r.context s.name event) f.preconditions then
        handleMoments (spawnOn event) (spawnOnMoments event) event id r
      else []
  | none => []

def visitMoments (event : Event) (r : Run) (index : Nat) : List Moment :=
  let merged := r.modifyFsm index FsmSchedule.mergePending
  let retired := merged.retire index
  [⟨r, some event, .merge index⟩, ⟨merged, some event, .retire index⟩] ++
    match retired.defs.fsms[index]?, retired.fsms[index]? with
    | some f, some c => foldMoments (offer f event) (offerMoments f event) retired c.active
    | _, _ => []

def arrived (r : Run) (event : Event) : Run :=
  { r with received := r.received + 1, store := r.store.extendTo event.nanos }

def opened (r : Run) : Run :=
  if r.begun then r else r.begin

/-- The moments of an event that arrives, up to the dispatch to the scenarios. -/
def onEventMoments (r : Run) (event : Event) : List Moment :=
  if r.disposed then []
  else
    let indices := List.range (r.arrived event).opened.fsms.length
    let due := indices.foldl startDue (r.arrived event).opened
    ⟨r, some event, .arrive⟩ ::
      (if (r.arrived event).begun then [] else beginMoments event (r.arrived event)) ++
      foldMoments startDue (startDueMoments event) (r.arrived event).opened indices ++
      if due.defs.preconditionsPass (due.context "" event) due.defs.preconditions then
        foldMoments (visit event) (visitMoments event) due indices
      else []

def cancelMoments (r : Run) (id : ScenarioId) : List Moment :=
  match (r.scenario? id).filter Scenario.isLive with
  | some s => [⟨r, none, .cancel s⟩]
  | none => []

def disposeMoments (r : Run) : List Moment :=
  if r.disposed then []
  else
    let ids := r.fsms.flatMap FsmSchedule.tracked
    foldMoments (fun r id => (r.cancel id).1) cancelMoments r ids ++
      [⟨ids.foldl (fun r id => (r.cancel id).1) r, none, .dispose⟩]

def perform (r : Run) : Call → Run
  | .event e => r.onEvent e
  | .cancel id => (r.cancel id).1
  | .dispose => r.dispose

def performMoments (r : Run) : Call → List Moment
  | .event e => r.onEventMoments e
  | .cancel id => r.cancelMoments id
  | .dispose => r.disposeMoments

def performAll (r : Run) (calls : List Call) : Run :=
  calls.foldl perform r

def moments (r : Run) (calls : List Call) : List Moment :=
  foldMoments perform performMoments r calls

end Run

end TraceAutomata
