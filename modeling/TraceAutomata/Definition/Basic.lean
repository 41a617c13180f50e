import TraceAutomata.Checksum
import TraceAutomata.Definition.Action
import TraceAutomata.Definition.Input

/-!
Definition documents: the fsms of a pattern with their states and transitions, and the tests
and actions that transitions refer to by name. A document is held as it was written; its
canonical text and checksum are those of the document with all defaults written out.
-/

namespace TraceAutomata

structure Transition where
  /-- The tests that must all pass. -/
  inputs : List String
  target : String
  actions : List String := []
  /-- Whether scratch fields are saved before the actions. -/
  saveScratch : Bool := false
  /-- Whether scratch fields are cleared after the actions. -/
  clearScratch : Bool := false
deriving DecidableEq

namespace Transition

/-- Whether the transition is taken on every event. -/
def isUnconditional (t : Transition) : Bool :=
  t.inputs.all (· == TransitionInput.other)

/-- The actions of the transition, with saving of scratch fields first and clearing last. -/
def actionIds (t : Transition) : List String :=
  (if t.saveScratch then [Operation.saveScratchId] else []) ++ t.actions ++
    (if t.clearScratch then [Operation.clearScratchId] else [])

def toJson (t : Transition) : Json :=
  .object <|
    [("inputs", .names t.inputs), ("target", .str t.target)] ++
    (if t.actions.isEmpty then [] else [("actions", .names t.actions)]) ++
    [("save_scratch", .bool t.saveScratch), ("clear_scratch", .bool t.clearScratch)]

def ofJson? (j : Json) : Option Transition := do
  return ⟨← j.withDefault "inputs" Json.names? [], ← j.required "target" Json.string?,
    ← j.withDefault "actions" (Json.listOf? Json.string?) [],
    ← j.withDefault "save_scratch" Json.bool? false,
    ← j.withDefault "clear_scratch" Json.bool? false⟩

end Transition

structure StateDefinition where
  name : String
  /-- Whether a scenario that enters the state handles the same event once more. -/
  automatic : Bool := false
  transitions : List Transition := []
deriving DecidableEq

namespace StateDefinition

def toJson (s : StateDefinition) : Json :=
  .object [("name", .str s.name), ("automatic", .bool s.automatic),
    ("transitions", .list (s.transitions.map Transition.toJson))]

def ofJson? (j : Json) : Option StateDefinition := do
  return ⟨← j.required "name" Json.string?, ← j.withDefault "automatic" Json.bool? false,
    ← j.withDefault "transitions" (Json.listOf? Transition.ofJson?) []⟩

end StateDefinition

structure FsmDefinition where
  id : String
  initial : String
  finalState : Option String := none
  abandonState : Option String := none
  /-- The tests of which one must pass before a scenario handles an event. -/
  preconditions : List String := []
  /-- Whether several scenarios may be in progress at once. -/
  concurrent : Bool := false
  states : List StateDefinition
deriving DecidableEq

namespace FsmDefinition

def state? (f : FsmDefinition) (name : String) : Option StateDefinition :=
  f.states.find? fun s => s.name == name

def isFinal (f : FsmDefinition) (state : String) : Bool :=
  f.finalState == some state

def isAbandon (f : FsmDefinition) (state : String) : Bool :=
  f.abandonState == some state

/-- The final state and the abandon state, as far as there are any. -/
def terminals (f : FsmDefinition) : List String :=
  f.finalState.toList ++ f.abandonState.toList

def toJson (f : FsmDefinition) : Json :=
  .object <|
    [("id", .str f.id), ("initial", .str f.initial)] ++
    Json.memberOfOption "final" .str f.finalState ++
    Json.memberOfOption "abandon" .str f.abandonState ++
    (if f.preconditions.isEmpty then [] else [("preconditions", .names f.preconditions)]) ++
    [("concurrent", .bool f.concurrent), ("states", .list (f.states.map StateDefinition.toJson))]

/-- The member that allows several scenarios at once has two names, of which a document may use
one. -/
def concurrentOfJson? (j : Json) : Option Bool :=
  match j.member? "concurrent", j.member? "allow_concurrent_instances" with
  | none, none => some false
  | some v, none => v.bool?
  | none, some v => v.bool?
  | some _, some _ => none

def ofJson? (j : Json) : Option FsmDefinition := do
  return ⟨← j.required "id" Json.string?, ← j.required "initial" Json.string?,
    ← j.optional "final" Json.string?, ← j.optional "abandon" Json.string?,
    ← j.withDefault "preconditions" (Json.listOf? Json.string?) [], ← concurrentOfJson? j,
    ← j.required "states" (Json.listOf? StateDefinition.ofJson?)⟩

end FsmDefinition

/-- A definition document as it was written. -/
structure DefinitionDocument where
  /-- The name of the pattern and of its root attribute. -/
  id : String
  /-- The fsms that start with the first event; an entry may list several. -/
  initial : List String
  /-- The tests of which one must pass before an event is handed to any scenario. -/
  preconditions : List String
  /-- The event fields that are saved, each with its scratch slot. -/
  scratchFields : Dict String
  tests : Dict TransitionInput
  actions : Dict (List Operation)
  fsms : List FsmDefinition

namespace DefinitionDocument

def toJson (d : DefinitionDocument) : Json :=
  .object [("id", .str d.id), ("initial", .names d.initial),
    ("preconditions", .names d.preconditions),
    ("scratch_fields", .ofDict .str d.scratchFields),
    ("tests", .ofDict TransitionInput.toJson d.tests),
    ("actions", .ofDict (fun ops => .list (ops.map Operation.toJson)) d.actions),
    ("fsms", .list (d.fsms.map FsmDefinition.toJson))]

def ofJson? (j : Json) : Option DefinitionDocument := do
  return ⟨← j.required "id" Json.string?, ← j.required "initial" Json.names?,
    ← j.withDefault "preconditions" Json.names? [],
    ← j.withDefault "scratch_fields" (Json.dictOf? Json.string?) ∅,
    ← j.withDefault "tests" (Json.dictOf? TransitionInput.ofJson?) ∅,
    ← j.withDefault "actions" (Json.dictOf? (Json.listOf? Operation.ofJson?)) ∅,
    ← j.required "fsms" (Json.listOf? FsmDefinition.ofJson?)⟩

def canonical (d : DefinitionDocument) : String :=
  d.toJson.compact

def checksum (d : DefinitionDocument) : String :=
  Checksum.hex (Checksum.ofText d.canonical)

end DefinitionDocument

end TraceAutomata
