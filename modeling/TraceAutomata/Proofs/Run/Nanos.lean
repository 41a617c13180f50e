import TraceAutomata.Proofs.Condition.Algebra
import TraceAutomata.Proofs.Run.Span

namespace TraceAutomata

namespace Timestamp

def normal (t : Timestamp) : Timestamp :=
  .ofNanos t.nanos

@[simp] theorem nanos_normal (t : Timestamp) : t.normal.nanos = t.nanos :=
  nanos_ofNanos _

@[simp] theorem normal_ofNanos (time : Int64) : (ofNanos time).normal = ofNanos time := by
  rw [normal, nanos_ofNanos]

theorem sameTime_iff {a b : Timestamp} : a.sameTime b = true ↔ a.normal = b.normal := by
  rw [sameTime, beq_iff_eq]
  constructor
  · intro h
    rw [normal, h, normal]
  · intro h
    rw [← nanos_normal a, h, nanos_normal]

end Timestamp

namespace Event

def normal (e : Event) : Event :=
  { e with timestamp := e.timestamp.normal, stop := e.stop.map Timestamp.normal }

@[simp] theorem nanos_normal (e : Event) : e.normal.nanos = e.nanos :=
  e.timestamp.nanos_normal

/-- Two events that differ at most in how their times are spelled. -/
structure Alike (e e' : Event) : Prop where
  name : e'.name = e.name
  fields : e'.fields = e.fields
  timestamp : e'.timestamp.nanos = e.timestamp.nanos
  stop : e'.stop.map Timestamp.nanos = e.stop.map Timestamp.nanos

theorem Alike.normal_eq {e e' : Event} (h : e.Alike e') : e'.normal = e.normal := by
  have hstop : ∀ stop : Option Timestamp,
      stop.map Timestamp.normal = (stop.map Timestamp.nanos).map Timestamp.ofNanos :=
    fun stop => (Option.map_map _ _ stop).symm
  rw [normal, normal, h.name, h.fields, hstop, h.stop, ← hstop, Timestamp.normal, h.timestamp,
    ← Timestamp.normal]

end Event

namespace SyntheticEvent

def normal (e : SyntheticEvent) : SyntheticEvent :=
  { e with start := e.start.normal, stop := e.stop.normal }

/-- Two synthetic events that differ at most in how their times are spelled. -/
structure Alike (e e' : SyntheticEvent) : Prop where
  name : e'.name = e.name
  fields : e'.fields = e.fields
  start : e'.start.sameTime e.start = true
  stop : e'.stop.sameTime e.stop = true

theorem alike_of_normal_eq {e e' : SyntheticEvent} (h : e'.normal = e.normal) : e.Alike e' := by
  obtain ⟨hname, hstart, hstop, hfields⟩ := SyntheticEvent.mk.inj h
  exact ⟨hname, hfields, Timestamp.sameTime_iff.mpr hstart, Timestamp.sameTime_iff.mpr hstop⟩

end SyntheticEvent

namespace GuardContext

/-- The context with the times of its event as numbers of nanoseconds. -/
def normal (ctx : GuardContext) : GuardContext :=
  { ctx with event := ctx.event.normal }

variable (ctx : GuardContext)

mutual

theorem segmentNames_normal : ∀ segment : PathSegment,
    AttributePath.segmentNames ctx.normal segment = AttributePath.segmentNames ctx segment
  | .name _ => by simp only [AttributePath.segmentNames]
  | .field _ | .scenario => by
      rw [AttributePath.segmentNames, AttributePath.segmentNames]
      rfl
  | .query path => by
      rw [AttributePath.segmentNames, AttributePath.segmentNames, names_normal path]
      rfl

theorem names_normal : ∀ path : AttributePath,
    AttributePath.names ctx.normal path = AttributePath.names ctx path
  | [] => by simp only [AttributePath.names]
  | segment :: rest => by
      rw [AttributePath.names, AttributePath.names, segmentNames_normal segment,
        names_normal rest]

end

theorem resolve_normal (source : ValueSource) : source.resolve ctx.normal = source.resolve ctx := by
  cases source with
  | literal | field | eventName | scratch => rfl
  | timestamp =>
      change Except.ok (Value.long ctx.event.normal.nanos) = _
      rw [Event.nanos_normal]
      rfl
  | query path =>
      change (do ctx.query (← AttributePath.names ctx.normal path)) = _
      rw [names_normal]
      rfl

theorem elapsed_normal (e : Elapsed) : e.evaluate ctx.normal = e.evaluate ctx := by
  have htime : ctx.normal.event.nanos = ctx.event.nanos := ctx.event.nanos_normal
  rw [Elapsed.evaluate, Elapsed.evaluate, htime]
  rfl

theorem evaluate_normal (c : Condition) : c.evaluate ctx.normal = c.evaluate ctx := by
  have htime : ctx.normal.event.nanos = ctx.event.nanos := ctx.event.nanos_normal
  refine Condition.evaluate_congr c fun part _ hleaf => ?_
  cases part with
  | compare left op right =>
      rw [Condition.evaluate, Condition.evaluate, resolve_normal, resolve_normal]
  | equal first second =>
      rw [Condition.evaluate, Condition.evaluate, resolve_normal, resolve_normal]
  | timeRange range =>
      rw [Condition.evaluate, Condition.evaluate, TimeRange.evaluate, TimeRange.evaluate, htime]
      rfl
  | elapsed e => rw [Condition.evaluate, Condition.evaluate, elapsed_normal]
  | not | and | or => cases hleaf

theorem input_normal (input : TransitionInput) :
    input.evaluate ctx.normal = input.evaluate ctx := by
  cases input with
  | event test =>
      simp only [TransitionInput.evaluate, evaluate_normal]
      rfl
  | time condition => exact evaluate_normal ctx condition

variable (d : DefinitionSet)

theorem inputPasses_normal : d.inputPasses ctx.normal = d.inputPasses ctx := by
  funext id
  simp only [DefinitionSet.inputPasses, input_normal]

theorem preconditionsPass_normal (ids : List String) :
    d.preconditionsPass ctx.normal ids = d.preconditionsPass ctx ids := by
  simp only [DefinitionSet.preconditionsPass, input_normal]

theorem transition_normal (state : StateDefinition) :
    d.resolve state ctx.normal = d.resolve state ctx := by
  rw [DefinitionSet.resolve, DefinitionSet.resolve, inputPasses_normal]

end GuardContext

namespace Run

/-- The run with the times of what it has emitted as numbers of nanoseconds. -/
def normal (r : Run) : Run :=
  { r with emitted := r.emitted.map SyntheticEvent.normal }

section Fields

variable (r : Run)

theorem defs_normal : r.normal.defs = r.defs := rfl

theorem fsms_normal : r.normal.fsms = r.fsms := rfl

theorem store_normal : r.normal.store = r.store := rfl

theorem root_normal : r.normal.root = r.root := rfl

theorem begun_normal : r.normal.begun = r.begun := rfl

theorem disposed_normal : r.normal.disposed = r.disposed := rfl

theorem scenario?_normal (id : ScenarioId) : r.normal.scenario? id = r.scenario? id := rfl

theorem context_normal (name : String) (event : Event) :
    r.normal.context name event.normal = (r.context name event).normal := rfl

end Fields

theorem record_normal (r : Run) (m : StoreM Unit) : r.normal.record m = (r.record m).normal := by
  rw [record_eq, record_eq]
  rfl

theorem recordAll_normal (r : Run) (changes : List (StoreM Unit)) :
    r.normal.recordAll changes = (r.recordAll changes).normal := by
  rw [recordAll_eq, recordAll_eq]
  rfl

theorem restartIfIdle_normal (r : Run) (index : Nat) :
    r.normal.restartIfIdle index = (r.restartIfIdle index).normal := by
  rw [restartIfIdle, restartIfIdle]
  change (if r.liveCount index = 0 then _ else _) = _
  split <;> rfl

section Handle

variable (event : Event)

theorem saveSlot_normal (scope : ActionScope) (r : Run) (entry : String × Value) :
    saveSlot scope event.normal r.normal entry = (saveSlot scope event r entry).normal := by
  rw [saveSlot, saveSlot, Event.nanos_normal, record_normal]

theorem slots_normal (scope : ActionScope) (r : Run) (slots : List (String × Value)) :
    slots.foldl (saveSlot scope event.normal) r.normal =
      (slots.foldl (saveSlot scope event) r).normal :=
  List.foldl_hom normal fun r entry => saveSlot_normal event scope r entry

theorem syntheticName_normal (ctx : GuardContext) (name : SyntheticName) :
    syntheticName ctx.normal name = syntheticName ctx name := by
  cases name with
  | literal text => rfl
  | value source => rw [syntheticName, syntheticName, ctx.resolve_normal]

theorem syntheticFields_normal (ctx : GuardContext) (fields : Dict ValueSource) :
    syntheticFields ctx.normal fields = syntheticFields ctx fields := by
  simp only [syntheticFields, ctx.resolve_normal]

theorem synthesize_normal (r : Run) (scope : ActionScope) (name : SyntheticName)
    (fields : Dict ValueSource) :
    r.normal.synthesize scope event.normal name fields =
      (r.synthesize scope event name fields).map SyntheticEvent.normal := by
  have hstart : (scope.startTime.map Timestamp.ofNanos).getD event.timestamp.normal =
      ((scope.startTime.map Timestamp.ofNanos).getD event.timestamp).normal := by
    cases scope.startTime with
    | none => rfl
    | some time => exact (Timestamp.normal_ofNanos time).symm
  have hstop : (event.stop.map Timestamp.normal).getD event.timestamp.normal =
      (event.stop.getD event.timestamp).normal := by
    cases event.stop <;> rfl
  rw [synthesize, synthesize, context_normal, syntheticName_normal, syntheticFields_normal]
  cases syntheticName (r.context scope.scenario event) name with
  | error e => rfl
  | ok suffix =>
      change (do
        let scratch ← Fault.ofStore (History.scratchValues r.store scope.subtree)
        return _) = _
      cases Fault.ofStore (History.scratchValues r.store scope.subtree) with
      | error e => rfl
      | ok scratch =>
          simp only [bind, Except.bind, pure, Except.pure, Except.map, SyntheticEvent.normal,
            Except.ok.injEq, SyntheticEvent.mk.injEq, and_true]
          exact ⟨rfl, hstart, hstop⟩

variable {spawn spawn' : Spawn}
  (hspawn : ∀ r index parent, spawn' r.normal index parent = (spawn r index parent).normal)

include hspawn

theorem spawnAll_normal (parent : String) (fsms : List String) (r : Run) :
    attempt (spawnAll spawn' parent fsms) r.normal =
      (attempt (spawnAll spawn parent fsms) r).normal := by
  induction fsms generalizing r with
  | nil => rfl
  | cons fsm rest ih =>
      rw [attempt, attempt, spawnAll_cons, spawnAll_cons, defs_normal]
      cases r.defs.fsmIndex? fsm with
      | none => rfl
      | some index =>
          simp only [hspawn]
          exact ih (spawn r index parent)

theorem operate_normal (scope : ActionScope) (op : Operation) (r : Run) :
    attempt (operate spawn' scope event.normal op) r.normal =
      (attempt (operate spawn scope event op) r).normal := by
  cases op with
  | stateChange path value =>
      rw [Lockstep.attempt_stateChange, Lockstep.attempt_stateChange, context_normal,
        GuardContext.names_normal, GuardContext.resolve_normal, Event.nanos_normal]
      cases AttributePath.names (r.context scope.scenario event) path with
      | error e => rfl
      | ok names =>
          cases (value.resolve (r.context scope.scenario event)).toOption with
          | none => rfl
          | some value => exact record_normal _ _
  | saveScratch =>
      change r.normal.saveFields scope event.normal = (r.saveFields scope event).normal
      rw [saveFields_eq, saveFields_eq]
      exact slots_normal event scope r _
  | clearScratch =>
      change r.normal.clearSlots scope event.normal = (r.clearSlots scope event).normal
      rw [clearSlots_eq, clearSlots_eq]
      exact slots_normal event scope r _
  | synthetic name fields =>
      rw [Lockstep.attempt_synthetic, Lockstep.attempt_synthetic, synthesize_normal]
      cases r.synthesize scope event name fields with
      | error e => rfl
      | ok synthetic =>
          change ({ r with
            emitted := (r.emitted.map SyntheticEvent.normal).push synthetic.normal } : Run) = _
          rw [← Array.map_push]
          rfl
  | spawn fsms => exact spawnAll_normal hspawn scope.fsm fsms r

theorem runAction_normal (scope : ActionScope) (r : Run) (id : String) :
    runAction spawn' scope event.normal r.normal id =
      (runAction spawn scope event r id).normal := by
  rw [runAction, runAction, defs_normal]
  cases r.defs.action id with
  | error e => rfl
  | ok ops => exact List.foldl_hom normal fun r op => operate_normal event hspawn scope op r

theorem runActions_normal (id : ScenarioId) (actions : List String) (r : Run) :
    runActions spawn' id event.normal actions r.normal =
      (runActions spawn id event actions r).normal := by
  rw [runActions, runActions, scenario?_normal]
  cases r.scenario? id with
  | none => rfl
  | some s => exact List.foldl_hom normal fun r id => runAction_normal event hspawn _ r id

omit hspawn in
theorem receive_normal (r : Run) (f : FsmDefinition) (s : Scenario) :
    r.normal.receive f s event.normal = (r.receive f s event).normal := by
  rw [receive_eq, receive_eq, Event.nanos_normal, ← recordAll_normal]
  rfl

omit event hspawn in
theorem enter_normal (r : Run) (index : Nat) (f : FsmDefinition) (id : ScenarioId)
    (current next : String) (time : Int64) :
    r.normal.enter index f id current next time =
      ((r.enter index f id current next time).1.normal,
        (r.enter index f id current next time).2) := by
  rw [enter, enter, scenario?_normal]
  cases r.scenario? id with
  | none => rfl
  | some s =>
      simp only [recordMove_eq]
      have hmove : ∀ changes : List (StoreM Unit),
          ((r.normal.modifyScenario id fun _ => moved f current next time s).modifyFsm index
            (counted f (leavesInitial f s current next)
              (moved f current next time s).status)).recordAll changes =
          (((r.modifyScenario id fun _ => moved f current next time s).modifyFsm index
            (counted f (leavesInitial f s current next)
              (moved f current next time s).status)).recordAll changes).normal :=
        fun changes => by
          rw [← recordAll_normal]
          rfl
      rw [hmove, restartIfIdle_normal]
      split
      · rfl
      · split <;> rfl

theorem step_normal (id : ScenarioId) (r : Run) :
    r.normal.step spawn' event.normal id =
      ((r.step spawn event id).1.normal, (r.step spawn event id).2) := by
  rw [step, step, scenario?_normal, defs_normal]
  cases (r.scenario? id).filter Scenario.isLive with
  | none => rfl
  | some s =>
      simp only
      split
      · next index f hindex hf =>
        simp only [receive_normal]
        cases f.state? s.state with
        | none => rfl
        | some state =>
            simp only [context_normal, GuardContext.transition_normal, Event.nanos_normal]
            change (if (((r.receive f s event).defs.resolve state
              ((r.receive f s event).context s.name event))).matched then _ else _) = _
            split
            · rw [← enter_normal, ← runActions_normal event hspawn]
              rfl
            · rfl
      · rfl

theorem chain_normal (id : ScenarioId) (allowed : Nat) (r : Run) :
    chain spawn' event.normal id allowed r.normal = (chain spawn event id allowed r).normal := by
  induction allowed generalizing r with
  | zero => rw [chain, chain, step_normal event hspawn]
  | succ allowed ih =>
      rw [chain, chain, step_normal event hspawn]
      rcases r.step spawn event id with ⟨next, outcome⟩
      cases outcome with
      | settled | failed => rfl
      | again => exact ih next

theorem handle_normal (id : ScenarioId) (r : Run) :
    handle spawn' event.normal id r.normal = (handle spawn event id r).normal :=
  chain_normal event hspawn id (r.chainLimit id) r

end Handle

theorem admitted_normal (r : Run) (index : Nat) (f : FsmDefinition) (c : FsmSchedule)
    (parent : Option String) (time : Int64) (subtree : Quark) (st : Store) :
    r.normal.admitted index f c parent time subtree st =
      (r.admitted index f c parent time subtree st).normal := by
  rw [admitted_eq, admitted_eq]
  rfl

theorem launch_normal (budget : Nat) (parent : Option String) (trigger : Option Event) (r : Run)
    (index : Nat) :
    launch budget parent (trigger.map Event.normal) r.normal index =
      (launch budget parent trigger r index).normal := by
  induction budget generalizing parent trigger r index with
  | zero => rfl
  | succ budget ih =>
      have htakes : ∀ f c, r.normal.takesScenario index f c = r.takesScenario index f c :=
        fun _ _ => rfl
      have htime : (trigger.map Event.normal).map Event.nanos = trigger.map Event.nanos := by
        cases trigger with
        | none => rfl
        | some event => exact congrArg some event.nanos_normal
      rw [launch, launch, defs_normal, fsms_normal]
      split
      · next f c hf hc =>
        simp only [htakes, htime, store_normal, root_normal]
        split
        · cases History.openScenario r.root (Scenario.nameOf f.id (c.created + 1)) r.store with
          | error e st => rfl
          | ok subtree st =>
              let time := (trigger.map Event.nanos).getD r.store.endTime
              have hadmitted := admitted_normal r index f c parent time subtree st
              cases trigger with
              | none => exact hadmitted
              | some event =>
                  change handle _ event.normal
                    (r.normal.admitted index f c parent time subtree st).created
                    (r.normal.admitted index f c parent time subtree st) = _
                  rw [hadmitted]
                  exact handle_normal event
                    (fun r index parent => ih (some parent) (some event) r index) _
                    (r.admitted index f c parent time subtree st)
        · rfl
      · rfl

theorem launchRoot_normal (r : Run) (index : Nat) :
    r.normal.launchRoot index = (r.launchRoot index).normal :=
  launch_normal _ none none r index

theorem spawnOn_normal (event : Event) (r : Run) (index : Nat) (parent : String) :
    spawnOn event.normal r.normal index parent = (spawnOn event r index parent).normal :=
  launch_normal _ (some parent) (some event) r index

theorem begin_normal (r : Run) : r.normal.begin = r.begin.normal := by
  -- The fold starts at the run with its mark set, which is such a run itself.
  change List.foldl _ ({ r with begun := true } : Run).normal _ = _
  refine List.foldl_hom normal fun r id => ?_
  rw [defs_normal]
  cases r.defs.fsmIndex? id with
  | none => rfl
  | some index =>
      exact launchRoot_normal (r.modifyFsm index fun c => { c with isRoot := true }) index

theorem startDue_normal (r : Run) (index : Nat) :
    r.normal.startDue index = (r.startDue index).normal := by
  rw [startDue, startDue, fsms_normal]
  cases r.fsms[index]? with
  | none => rfl
  | some c =>
      simp only
      split
      · exact launchRoot_normal (r.modifyFsm index fun c => { c with startNext := false }) index
      · rfl

theorem retire_normal (r : Run) (index : Nat) :
    r.normal.retire index = (r.retire index).normal := by
  rw [retire, retire, fsms_normal]
  cases r.fsms[index]? <;> rfl

section Events

variable (event : Event)

theorem offer_normal (f : FsmDefinition) (r : Run) (id : ScenarioId) :
    offer f event.normal r.normal id = (offer f event r id).normal := by
  rw [offer, offer, scenario?_normal]
  cases r.scenario? id with
  | none => rfl
  | some s =>
      simp only [context_normal, GuardContext.preconditionsPass_normal]
      change (if (s.isLive && s.lastEvent != some r.received &&
        r.defs.preconditionsPass (r.context s.name event) f.preconditions) then _ else _) = _
      split
      · exact handle_normal event (spawnOn_normal event) id r
      · rfl

theorem visit_normal (r : Run) (index : Nat) :
    visit event.normal r.normal index = (visit event r index).normal := by
  have hlined : (r.normal.modifyFsm index FsmSchedule.mergePending).retire index =
      ((r.modifyFsm index FsmSchedule.mergePending).retire index).normal :=
    retire_normal (r.modifyFsm index FsmSchedule.mergePending) index
  rw [visit, visit, hlined]
  generalize (r.modifyFsm index FsmSchedule.mergePending).retire index = lined
  rw [defs_normal, fsms_normal]
  split
  · next f c _ _ => exact List.foldl_hom normal fun r id => offer_normal event f r id
  · rfl

theorem opened_normal (r : Run) : r.normal.opened = r.opened.normal := by
  rw [opened, opened, begun_normal]
  split
  · rfl
  · exact begin_normal r

theorem onEvent_normal (r : Run) : r.normal.onEvent event.normal = (r.onEvent event).normal := by
  cases hdisposed : r.disposed with
  | true =>
      rw [onEvent, onEvent, disposed_normal, hdisposed]
      rfl
  | false =>
      have harrived : r.normal.arrived event.normal = (r.arrived event).normal := by
        rw [arrived, arrived, Event.nanos_normal]
        rfl
      have hdue : ∀ (indices : List Nat) (r : Run),
          indices.foldl startDue r.normal = (indices.foldl startDue r).normal :=
        fun indices r => List.foldl_hom normal fun r index => startDue_normal r index
      rw [onEvent_eq event hdisposed, onEvent_eq event.normal (r.disposed_normal.trans hdisposed),
        harrived, opened_normal]
      simp only [fsms_normal, hdue]
      generalize (List.range (r.arrived event).opened.fsms.length).foldl startDue
        (r.arrived event).opened = due
      rw [context_normal, GuardContext.preconditionsPass_normal]
      change (if due.defs.preconditionsPass (due.context "" event) due.defs.preconditions then _
        else _) = _
      split
      · exact List.foldl_hom normal fun r index => visit_normal event r index
      · rfl

end Events

theorem cancelLive_normal (r : Run) (s : Scenario) :
    r.normal.cancelLive s = (r.cancelLive s).normal := by
  let abandon : Scenario → Scenario := fun s =>
    { s.advance .abandoned with endTime := some r.store.endTime }
  let count : FsmSchedule → FsmSchedule := fun c =>
    { c with
      waiting := if s.isWaiting then c.waiting - 1 else c.waiting
      abandoned := c.abandoned + 1 }
  let marked := r.modifyScenario s.id abandon
  have hdefs : ∀ f, (r.normal.modifyScenario s.id f).defs = (r.modifyScenario s.id f).defs :=
    fun _ => rfl
  rw [cancelLive, cancelLive]
  simp only [hdefs, store_normal, ← record_normal]
  congr 2
  cases marked.defs.fsmIndex? s.fsm with
  | none => rfl
  | some index => exact restartIfIdle_normal (marked.modifyFsm index count) index

theorem cancel_normal (r : Run) (id : ScenarioId) :
    r.normal.cancel id = ((r.cancel id).1.normal, (r.cancel id).2) := by
  rw [cancel, cancel, scenario?_normal]
  cases (r.scenario? id).filter Scenario.isLive with
  | none => rfl
  | some s => exact congrArg (·, true) (cancelLive_normal r s)

theorem dispose_normal (r : Run) : r.normal.dispose = r.dispose.normal := by
  have hall : ∀ (ids : List ScenarioId) (r : Run),
      ids.foldl (fun r id => (r.cancel id).1) r.normal =
        (ids.foldl (fun r id => (r.cancel id).1) r).normal :=
    fun ids r => List.foldl_hom normal fun r id => congrArg Prod.fst (cancel_normal r id)
  rw [dispose, dispose, disposed_normal]
  split
  · rfl
  · simp only [fsms_normal, hall]
    rfl

end Run

/-- The call with the times of its event as numbers of nanoseconds. -/
def Call.normal : Call → Call
  | .event e => .event e.normal
  | call => call

/-- Two calls that differ at most in how the times of their events are spelled. -/
inductive Call.Alike : Call → Call → Prop
  | event {e e' : Event} (h : e.Alike e') : Alike (.event e) (.event e')
  | cancel (id : ScenarioId) : Alike (.cancel id) (.cancel id)
  | dispose : Alike .dispose .dispose

theorem Call.Alike.normal_eq {call call' : Call} (h : call.Alike call') :
    call'.normal = call.normal := by
  cases h with
  | event h => rw [Call.normal, Call.normal, h.normal_eq]
  | cancel | dispose => rfl

namespace Run

theorem perform_normal (r : Run) (call : Call) :
    r.normal.perform call.normal = (r.perform call).normal := by
  cases call with
  | event e => exact onEvent_normal e r
  | cancel id => exact congrArg Prod.fst (cancel_normal r id)
  | dispose => exact dispose_normal r

theorem performAll_normal (r : Run) (calls : List Call) :
    r.normal.performAll (calls.map Call.normal) = (r.performAll calls).normal := by
  rw [performAll, performAll, List.foldl_map]
  exact List.foldl_hom normal fun r call => perform_normal r call

/-- Calls that differ only in how times are spelled lead to the same run, but for how the times of
what it emits are spelled. -/
theorem performAll_alike (r : Run) {calls calls' : List Call}
    (h : List.Forall₂ Call.Alike calls calls') :
    (r.performAll calls').normal = (r.performAll calls).normal := by
  have hcalls : calls'.map Call.normal = calls.map Call.normal := by
    induction h with
    | nil => rfl
    | cons hcall _ ih => rw [List.map_cons, List.map_cons, hcall.normal_eq, ih]
  rw [← performAll_normal, ← performAll_normal, hcalls]

/-- However the times of events are spelled, runs that start alike record the same, count the same and
emit the same, as long as the spellings stand for the same nanoseconds. -/
theorem nanos_decide (defs : DefinitionSet) (settings : RunSettings) (time : Int64) :
    ∃ r, Run.start defs (Store.empty time) settings = .ok r ∧
      ∀ calls calls' : List Call, List.Forall₂ Call.Alike calls calls' →
        let last := r.performAll calls
        let last' := r.performAll calls'
        last'.store = last.store ∧ last'.records = last.records ∧ last'.stats = last.stats ∧
          List.Forall₂ SyntheticEvent.Alike last.emitted.toList last'.emitted.toList := by
  obtain ⟨r, hstart, -⟩ := exists_start defs settings time
  refine ⟨r, hstart, fun calls calls' hcalls => ?_⟩
  intro last last'
  have hnormal : last'.normal = last.normal := performAll_alike r hcalls
  have hseen : ∀ {α : Type} (f : Run → α), f last'.normal = f last.normal := fun f =>
    congrArg f hnormal
  have hemitted : last'.emitted.toList.map SyntheticEvent.normal =
      last.emitted.toList.map SyntheticEvent.normal := by
    rw [← Array.toList_map, ← Array.toList_map]
    exact hseen (·.emitted.toList)
  refine ⟨hseen (·.store), hseen records, hseen stats, ?_⟩
  rw [← List.forall₂_eq_eq_eq, List.forall₂_map_left_iff, List.forall₂_map_right_iff] at hemitted
  exact (hemitted.imp fun _ _ heq => SyntheticEvent.alike_of_normal_eq heq).flip

/-- Seconds on the one hand, and on the other hand a thousand milliseconds for each of them, or a time
that is cut off to whole nanoseconds. -/
theorem nanos_decide_sample :
    let calls : List Call :=
      [.event ⟨⟨1, 0⟩, "begin", .ofList [("pid", .int 7)], some ⟨5, 0⟩⟩,
        .event ⟨⟨2, 0⟩, "end", ∅, none⟩, .event ⟨⟨3, 0⟩, "begin", ∅, none⟩, .cancel 4, .dispose]
    let calls' : List Call :=
      [.event ⟨⟨1000, -3⟩, "begin", .ofList [("pid", .int 7)], some (.ofNanos 5000000000)⟩,
        .event ⟨⟨2000, -3⟩, "end", ∅, none⟩, .event ⟨⟨3000000000001, -12⟩, "begin", ∅, none⟩,
        .cancel 4, .dispose]
    ∃ defs r, DefinitionDocument.sample.compile = .ok defs ∧
      Run.start defs (Store.empty 0) {} = .ok r ∧ List.Forall₂ Call.Alike calls calls' ∧
      (r.performAll calls).emitted.size = 2 ∧
      (r.performAll calls').emitted ≠ (r.performAll calls).emitted ∧
      (r.performAll calls').store = (r.performAll calls).store ∧
      (r.performAll calls').records = (r.performAll calls).records ∧
      (r.performAll calls').stats = (r.performAll calls).stats ∧
      List.Forall₂ SyntheticEvent.Alike (r.performAll calls).emitted.toList
        (r.performAll calls').emitted.toList := by
  intro calls calls'
  obtain ⟨defs, r, hcompile, hstart, hcheck⟩ := DefinitionDocument.sample.exists_of_checks {} 0
    (fun _ r => decide ((r.performAll calls).emitted.size = 2 ∧
      (r.performAll calls').emitted ≠ (r.performAll calls).emitted))
    (by decide +kernel)
  obtain ⟨htwo, hspelled⟩ := of_decide_eq_true hcheck
  obtain ⟨r', hstart', hsame⟩ := nanos_decide defs {} 0
  obtain rfl : r = r' := Except.ok.inj (hstart.symm.trans hstart')
  have hcalls : List.Forall₂ Call.Alike calls calls' :=
    .cons (.event ⟨rfl, rfl, by decide, by decide⟩) <|
      .cons (.event ⟨rfl, rfl, by decide, rfl⟩) <|
      .cons (.event ⟨rfl, rfl, by decide, rfl⟩) <| .cons (.cancel 4) <| .cons .dispose .nil
  exact ⟨defs, r, hcompile, hstart, hcalls, htwo, hspelled, hsame calls calls' hcalls⟩

end Run

end TraceAutomata
