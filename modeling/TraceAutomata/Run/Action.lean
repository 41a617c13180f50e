import TraceAutomata.Run.Basic

/-!
Running the actions of a transition. Operations run in order; one that fails leaves what it has
done so far, and the next one still runs.
-/

namespace TraceAutomata

/-- A change of a run that may fail halfway. -/
abbrev RunM := EStateM Fault Run

/-- What operations know of the scenario that runs them. -/
structure ActionScope where
  scenario : String
  fsm : String
  subtree : Quark
  startTime : Option Int64

/-- Starts a scenario of the fsm at an index, on behalf of another fsm. -/
abbrev Spawn := Run → (index : Nat) → (parent : String) → Run

namespace Run

/-- Changes the store; a refused change is a fault. -/
def change (m : StoreM Unit) : RunM Unit := fun r =>
  match m r.store with
  | .ok _ st => .ok () { r with store := st }
  | .error e st => .error (.store e) { r with store := st }

/-- Copies the chosen fields that the event has into their slots. -/
def saveFields (r : Run) (scope : ActionScope) (event : Event) : Run :=
  r.defs.scratchFields.entries.foldl (fun r (field, slot) =>
    match event.field? field with
    | some value => r.record (History.saveSlot scope.subtree event.nanos slot value)
    | none => r) r

def clearSlots (r : Run) (scope : ActionScope) (event : Event) : Run :=
  r.defs.scratchFields.values.foldl (fun r slot =>
    r.record (History.clearSlot scope.subtree event.nanos slot)) r

def syntheticName (ctx : GuardContext) : SyntheticName → Except Fault String
  | .literal text => .ok text
  | .value source => (source.resolve ctx).map Value.text

/-- The declared fields of a synthetic event that have a value other than null. -/
def syntheticFields (ctx : GuardContext) (fields : Dict ValueSource) : Dict Value :=
  .ofList <| fields.entries.filterMap fun (name, source) =>
    match source.resolve ctx with
    | .ok value => if value.isNull then none else some (name, value)
    | .error _ => none

/-- The synthetic event of a scenario: from the time at which the scenario left its initial
state to the end of the event, with the scratch slots as further fields. -/
def synthesize (r : Run) (scope : ActionScope) (event : Event) (name : SyntheticName)
    (fields : Dict ValueSource) : Except Fault SyntheticEvent := do
  let ctx := r.context scope.scenario event
  let suffix ← syntheticName ctx name
  let scratch ← Fault.ofStore (History.scratchValues r.store scope.subtree)
  return {
    name := r.settings.eventNamePrefix ++ suffix
    start := (scope.startTime.map Timestamp.ofNanos).getD event.timestamp
    stop := event.stop.getD event.timestamp
    fields := scratch.entries.foldl (fun all (slot, value) => all.insertNew slot value)
      (syntheticFields ctx fields) }

/-- Starts a scenario of each of the fsms, up to the first that is unknown. -/
def spawnAll (spawn : Spawn) (parent : String) : List String → RunM Unit
  | [] => pure ()
  | fsm :: rest => do
      match (← get).defs.fsmIndex? fsm with
      | none => throw (.unknownFsm fsm)
      | some index =>
          modify fun r => spawn r index parent
          spawnAll spawn parent rest

def operate (spawn : Spawn) (scope : ActionScope) (event : Event) : Operation → RunM Unit
  | .stateChange path value => fun r =>
      let ctx := r.context scope.scenario event
      match AttributePath.names ctx path, value.resolve ctx with
      | .error e, _ => .error e r
      | .ok _, .error e => .error e r
      | .ok names, .ok value =>
          change (History.write scope.subtree event.nanos names value) r
  | .saveScratch => modify fun r => r.saveFields scope event
  | .clearScratch => modify fun r => r.clearSlots scope event
  | .synthetic name fields => fun r =>
      match r.synthesize scope event name fields with
      | .error e => .error e r
      | .ok synthetic => .ok () { r with emitted := r.emitted.push synthetic }
  | .spawn fsms => spawnAll spawn scope.fsm fsms

/-- Carries out a change and goes on, whether it fails or not. -/
def attempt (m : RunM Unit) (r : Run) : Run :=
  match m r with
  | .ok _ r => r
  | .error _ r => r

/-- Runs the operations of an action; an unknown action has none. -/
def runAction (spawn : Spawn) (scope : ActionScope) (event : Event) (r : Run) (id : String) :
    Run :=
  match r.defs.action id with
  | .ok ops => ops.foldl (fun r op => attempt (operate spawn scope event op) r) r
  | .error _ => r

def runActions (spawn : Spawn) (id : ScenarioId) (event : Event) (actions : List String)
    (r : Run) : Run :=
  match r.scenario? id with
  | none => r
  | some s =>
      actions.foldl (runAction spawn ⟨s.name, s.fsm, s.subtree, s.startTime⟩ event) r

end Run

end TraceAutomata
