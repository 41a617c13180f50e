import TraceAutomata.Proofs.Definition.Compiled
import TraceAutomata.Proofs.Dict
import TraceAutomata.Run.Resolution

namespace TraceAutomata

namespace PathSegment

def isLocal : PathSegment → Bool
  | .query _ => false
  | _ => true

end PathSegment

namespace ValueSource

def isLocal : ValueSource → Bool
  | .query _ => false
  | _ => true

end ValueSource

namespace Condition

mutual

def isLocal : Condition → Bool
  | .not inner => isLocal inner
  | .and children => allLocal children
  | .or children => allLocal children
  | .compare left _ right => left.isLocal && right.isLocal
  | .equal first second => first.isLocal && second.isLocal
  | .timeRange _ => true
  | .elapsed _ => true

def allLocal : List Condition → Bool
  | [] => true
  | c :: rest => isLocal c && allLocal rest

end

end Condition

namespace TransitionInput

def isLocal : TransitionInput → Bool
  | .event test => test.condition.all Condition.isLocal
  | .time condition => condition.isLocal

end TransitionInput

namespace SyntheticName

def isLocal : SyntheticName → Bool
  | .literal _ => true
  | .value source => source.isLocal

end SyntheticName

namespace Operation

def isLocal : Operation → Bool
  | .stateChange path value => path.all PathSegment.isLocal && value.isLocal
  | .saveScratch => true
  | .clearScratch => true
  | .synthetic name fields => name.isLocal && fields.values.all ValueSource.isLocal
  | .spawn _ => false

end Operation

/-- No test and no action reads an attribute by its path, and no action starts a scenario. -/
structure DefinitionSet.Local (d : DefinitionSet) : Prop where
  tests : ∀ input ∈ d.tests.values, input.isLocal = true
  actions : ∀ ops ∈ d.actions.values, ∀ op ∈ ops, op.isLocal = true

namespace Except

variable {ε α β : Type}

theorem toOption_bind (x : Except ε α) (f : α → Except ε β) :
    (x >>= f).toOption = x.toOption.bind fun a => (f a).toOption := by
  cases x <;> rfl

theorem toOption_map (x : Except ε α) (f : α → β) : (x.map f).toOption = x.toOption.map f := by
  cases x <;> rfl

end Except

/-- Two contexts show the same event, the same times and the same attributes of a scenario. -/
structure GuardContext.Agree (ctx ctx' : GuardContext) : Prop where
  scenario : ctx'.scenario = ctx.scenario
  event : ctx'.event = ctx.event
  startTime : ctx'.store.startTime = ctx.store.startTime
  endTime : ctx'.store.endTime = ctx.store.endTime
  query : ∀ path, (ctx'.query (Layout.scenarioPath ctx.scenario ++ path)).toOption =
    (ctx.query (Layout.scenarioPath ctx.scenario ++ path)).toOption

namespace GuardContext.Agree

variable {ctx ctx' : GuardContext}

theorem segmentNames_eq (h : ctx.Agree ctx') {segment : PathSegment}
    (hlocal : segment.isLocal = true) :
    AttributePath.segmentNames ctx' segment = AttributePath.segmentNames ctx segment := by
  cases segment with
  | name name => simp only [AttributePath.segmentNames]
  | field field => simp only [AttributePath.segmentNames, GuardContext.fieldName, h.event]
  | query path => cases hlocal
  | scenario => simp only [AttributePath.segmentNames, h.scenario]

theorem names_eq (h : ctx.Agree ctx') {path : AttributePath}
    (hlocal : path.all PathSegment.isLocal = true) :
    AttributePath.names ctx' path = AttributePath.names ctx path := by
  induction path with
  | nil => simp only [AttributePath.names]
  | cons segment rest ih =>
      rw [List.all_cons, Bool.and_eq_true] at hlocal
      rw [AttributePath.names, AttributePath.names, h.segmentNames_eq hlocal.1, ih hlocal.2]

theorem resolve_eq (h : ctx.Agree ctx') {source : ValueSource} (hlocal : source.isLocal = true) :
    (source.resolve ctx').toOption = (source.resolve ctx).toOption := by
  cases source with
  | literal value => rfl
  | field name => simp only [ValueSource.resolve, GuardContext.field, h.event]
  | eventName => simp only [ValueSource.resolve, h.event]
  | timestamp => simp only [ValueSource.resolve, h.event]
  | scratch slot =>
      rw [ValueSource.resolve, ValueSource.resolve, h.scenario]
      exact h.query _
  | query path => cases hlocal

theorem elapsed_eq (h : ctx.Agree ctx') (e : Elapsed) :
    (e.evaluate ctx').toOption = (e.evaluate ctx).toOption := by
  have hreference : (e.reference ctx').toOption = (e.reference ctx).toOption := by
    rw [Elapsed.reference, Elapsed.reference, Except.toOption_bind, Except.toOption_bind,
      h.scenario, h.query]
  rw [Elapsed.evaluate, Elapsed.evaluate, Except.toOption_bind, Except.toOption_bind, hreference,
    h.event]

mutual

theorem evaluate_eq (h : ctx.Agree ctx') : ∀ c : Condition, c.isLocal = true →
    (c.evaluate ctx').toOption = (c.evaluate ctx).toOption
  | .not inner, hlocal => by
      rw [Condition.isLocal] at hlocal
      rw [Condition.evaluate, Condition.evaluate, Except.toOption_map, Except.toOption_map,
        evaluate_eq h inner hlocal]
  | .and children, hlocal => by
      rw [Condition.isLocal] at hlocal
      rw [Condition.evaluate, Condition.evaluate, evaluateAll_eq h children hlocal]
  | .or children, hlocal => by
      rw [Condition.isLocal] at hlocal
      rw [Condition.evaluate, Condition.evaluate, evaluateAny_eq h children hlocal]
  | .compare left op right, hlocal => by
      rw [Condition.isLocal, Bool.and_eq_true] at hlocal
      rw [Condition.evaluate, Condition.evaluate]
      simp only [Except.toOption_bind, h.resolve_eq hlocal.1, h.resolve_eq hlocal.2]
  | .equal first second, hlocal => by
      rw [Condition.isLocal, Bool.and_eq_true] at hlocal
      rw [Condition.evaluate, Condition.evaluate]
      simp only [Except.toOption_bind, h.resolve_eq hlocal.1, h.resolve_eq hlocal.2]
  | .timeRange range, _ => by
      rw [Condition.evaluate, Condition.evaluate, TimeRange.evaluate, TimeRange.evaluate,
        h.startTime, h.endTime, h.event]
  | .elapsed e, _ => by
      rw [Condition.evaluate, Condition.evaluate, h.elapsed_eq e]

theorem evaluateAll_eq (h : ctx.Agree ctx') :
    ∀ list : List Condition, Condition.allLocal list = true →
      (Condition.evaluateAll ctx' list).toOption = (Condition.evaluateAll ctx list).toOption
  | [], _ => rfl
  | c :: rest, hlocal => by
      rw [Condition.allLocal, Bool.and_eq_true] at hlocal
      rw [Condition.evaluateAll, Condition.evaluateAll, Except.toOption_bind,
        Except.toOption_bind, evaluate_eq h c hlocal.1]
      congr
      funext holds
      cases holds with
      | false => rfl
      | true => exact evaluateAll_eq h rest hlocal.2

theorem evaluateAny_eq (h : ctx.Agree ctx') :
    ∀ list : List Condition, Condition.allLocal list = true →
      (Condition.evaluateAny ctx' list).toOption = (Condition.evaluateAny ctx list).toOption
  | [], _ => rfl
  | c :: rest, hlocal => by
      rw [Condition.allLocal, Bool.and_eq_true] at hlocal
      rw [Condition.evaluateAny, Condition.evaluateAny, Except.toOption_bind,
        Except.toOption_bind, evaluate_eq h c hlocal.1]
      congr
      funext holds
      cases holds with
      | false => exact evaluateAny_eq h rest hlocal.2
      | true => rfl

end

theorem input_eq (h : ctx.Agree ctx') {input : TransitionInput} (hlocal : input.isLocal = true) :
    (input.evaluate ctx').toOption = (input.evaluate ctx).toOption := by
  cases input with
  | event test =>
      rw [TransitionInput.evaluate, TransitionInput.evaluate, h.event]
      split
      · cases hcondition : test.condition with
        | none => rfl
        | some c =>
            rw [TransitionInput.isLocal, hcondition, Option.all_some] at hlocal
            exact h.evaluate_eq c hlocal
      · rfl
  | time condition => exact h.evaluate_eq condition hlocal

end GuardContext.Agree

theorem accepted_eq (x : Except Fault Bool) : accepted x = x.toOption.getD false := by
  cases x <;> rfl

namespace DefinitionSet.Local

variable {d : DefinitionSet} (hlocal : d.Local) {ctx ctx' : GuardContext} (h : ctx.Agree ctx')

include hlocal

theorem of_test {id : String} {input : TransitionInput} (hinput : d.test id = .ok input) :
    input.isLocal = true := by
  apply hlocal.tests
  rw [Dict.mem_values_iff]
  exact ⟨id, test_eq_ok_iff.mp hinput⟩

theorem of_action {id : String} {ops : List Operation} (hops : d.action id = .ok ops) :
    ∀ op ∈ ops, op.isLocal = true := by
  apply hlocal.actions
  rw [Dict.mem_values_iff]
  exact ⟨id, action_eq_ok_iff.mp hops⟩

include h

theorem inputPasses_eq (id : String) : d.inputPasses ctx' id = d.inputPasses ctx id := by
  rw [inputPasses, inputPasses]
  split
  · rfl
  · cases hinput : d.test id with
    | error e => rfl
    | ok input => simp only [accepted_eq, h.input_eq (hlocal.of_test hinput)]

theorem preconditionsPass_eq (ids : List String) :
    d.preconditionsPass ctx' ids = d.preconditionsPass ctx ids := by
  rw [preconditionsPass, preconditionsPass]
  congr
  funext id
  cases hinput : d.test id with
  | error e => rfl
  | ok input => simp only [accepted_eq, h.input_eq (hlocal.of_test hinput)]

theorem resolve_eq (state : StateDefinition) : d.resolve state ctx' = d.resolve state ctx := by
  have hpasses : d.inputPasses ctx' = d.inputPasses ctx := by
    funext id
    exact hlocal.inputPasses_eq h id
  rw [resolve, resolve, hpasses]

end DefinitionSet.Local

end TraceAutomata
