import TraceAutomata.Definition.Compile

namespace TraceAutomata

/-- The outcome of looking for a transition. -/
structure Resolution where
  /-- The state in which the scenario is afterwards. -/
  next : String
  /-- The ids of the actions to run. -/
  actions : List String
  matched : Bool
deriving DecidableEq

namespace DefinitionSet

/-- Whether an input passes. One that cannot be evaluated does not pass. -/
def inputPasses (d : DefinitionSet) (ctx : GuardContext) (id : String) : Bool :=
  if id = TransitionInput.other then true
  else
    match d.test id with
    | .ok input => accepted (input.evaluate ctx)
    | .error _ => false

/-- Whether one of the tests passes, or there are none. -/
def preconditionsPass (d : DefinitionSet) (ctx : GuardContext) (ids : List String) : Bool :=
  ids.isEmpty || ids.any fun id =>
    match d.test id with
    | .ok input => accepted (input.evaluate ctx)
    | .error _ => false

def resolve (d : DefinitionSet) (state : StateDefinition) (ctx : GuardContext) : Resolution :=
  match state.transitions.find? fun t => t.inputs.all (d.inputPasses ctx) with
  | some t => ⟨t.target, t.actionIds, true⟩
  | none => ⟨state.name, [], false⟩

end DefinitionSet

end TraceAutomata
