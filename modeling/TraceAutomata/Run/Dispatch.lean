import TraceAutomata.Run.Step

/-!
Receiving events, cancelling scenarios and ending a run. Each event visits the fsms in the order
of the definition, and in each of them the scenarios in the order in which they were started.
-/

namespace TraceAutomata.Run

def begin (r : Run) : Run :=
  r.defs.initial.foldl (fun r id =>
    match r.defs.fsmIndex? id with
    | some index => (r.modifyFsm index fun c => { c with isRoot := true }).launchRoot index
    | none => r) { r with begun := true }

/-- Starts a scenario of the fsm if one is due. -/
def startDue (r : Run) (index : Nat) : Run :=
  match r.fsms[index]? with
  | some c =>
      if c.startNext then
        (r.modifyFsm index fun c => { c with startNext := false }).launchRoot index
      else r
  | none => r

def retire (r : Run) (index : Nat) : Run :=
  match r.fsms[index]? with
  | some c =>
      let ended := c.active.filter fun id => !r.isLive id
      let r := { r with scenarios := r.scenarios.filter fun s => !ended.contains s.id }
      r.modifyFsm index fun c => { c with active := c.active.filter fun id => !ended.contains id }
  | none => r

/-- Hands an event to one scenario, if it is live, has not handled the event yet, and the
preconditions of its fsm hold. -/
def offer (f : FsmDefinition) (event : Event) (r : Run) (id : ScenarioId) : Run :=
  match r.scenario? id with
  | some s =>
      if s.isLive && s.lastEvent != some r.received &&
          r.defs.preconditionsPass (r.context s.name event) f.preconditions then
        r.handle (spawnOn event) event id
      else r
  | none => r

def visit (event : Event) (r : Run) (index : Nat) : Run :=
  let r := (r.modifyFsm index FsmSchedule.mergePending).retire index
  match r.defs.fsms[index]?, r.fsms[index]? with
  | some f, some c => c.active.foldl (offer f event) r
  | _, _ => r

/-- Receives an event. A run that has ended ignores it. -/
def onEvent (r : Run) (event : Event) : Run :=
  if r.disposed then r
  else
    let r := { r with received := r.received + 1, store := r.store.extendTo event.nanos }
    let r := if r.begun then r else r.begin
    let indices := List.range r.fsms.length
    let r := indices.foldl startDue r
    if r.defs.preconditionsPass (r.context "" event) r.defs.preconditions then
      indices.foldl (visit event) r
    else r

def feed (r : Run) (events : List Event) : Run :=
  events.foldl onEvent r

/-- Abandons a live scenario at the latest time that the store has heard of. -/
def cancelLive (r : Run) (s : Scenario) : Run :=
  let time := r.store.endTime
  let r := r.modifyScenario s.id fun s => { s.advance .abandoned with endTime := some time }
  let r :=
    match r.defs.fsmIndex? s.fsm with
    | some index =>
        (r.modifyFsm index fun c =>
          { c with
            waiting := if s.isWaiting then c.waiting - 1 else c.waiting
            abandoned := c.abandoned + 1 }).restartIfIdle index
    | none => r
  let r := r.record (History.setEndTime s.subtree time)
  r.record (History.setState s.subtree time s.state .abandoned)

/-- Abandons a scenario, and tells whether it was a live one. -/
def cancel (r : Run) (id : ScenarioId) : Run × Bool :=
  match (r.scenario? id).filter Scenario.isLive with
  | some s => (r.cancelLive s, true)
  | none => (r, false)

def dispose (r : Run) : Run :=
  if r.disposed then r
  else
    let ids := r.fsms.flatMap FsmSchedule.tracked
    { ids.foldl (fun r id => (r.cancel id).1) r with disposed := true }

end TraceAutomata.Run
