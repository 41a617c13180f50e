import TraceAutomata.Definition.Basic

/-!
From a definition document to the definition set that a run uses. Compilation reads textual
conditions, adds the terminal states that a document does not list, and refuses documents in
which a name is missing or leads nowhere, or whose automatic states chain forever.
-/

namespace TraceAutomata

namespace StateDefinition

/-- Where an automatic state goes on every event: the target of its first transition, if that
is unconditional and leaves the state. -/
def forcedTarget? (s : StateDefinition) : Option String :=
  if s.automatic then
    match s.transitions.head? with
    | some t => if t.isUnconditional && t.target != s.name then some t.target else none
    | none => none
  else none

end StateDefinition

namespace FsmDefinition

def isBlankName (name : String) : Bool :=
  (Text.trimChars name.toList).isEmpty

/-- The terminal states that are not listed, as states without transitions. -/
def implicitStates (f : FsmDefinition) : List StateDefinition :=
  (f.terminals.filter fun name => !f.states.any fun s => s.name == name).map fun name => { name }

def withImplicitStates (f : FsmDefinition) : FsmDefinition :=
  { f with states := f.states ++ f.implicitStates }

/-- The first state that has no name or the name of an earlier one is refused. -/
def checkNames (fsm : String) (earlier : List String) :
    List StateDefinition → Except Fault Unit
  | [] => .ok ()
  | s :: rest =>
      if isBlankName s.name then .error (.definition (.unnamedState fsm))
      else if earlier.contains s.name then .error (.definition (.duplicateState fsm s.name))
      else checkNames fsm (s.name :: earlier) rest

/-- Follows automatic states from one to the next as long as each goes on to another one on
every event, and gives the name of the first one that is reached again. -/
def findCycle (f : FsmDefinition) (unvisited : List String) (s : StateDefinition) :
    Option String :=
  match s.forcedTarget? with
  | none => none
  | some target =>
      if _h : s.name ∈ unvisited then
        match f.state? target with
        | some next =>
            if next.automatic then f.findCycle (unvisited.erase s.name) next else none
        | none => none
      else some s.name
termination_by unvisited.length
decreasing_by
  rw [List.length_erase_of_mem _h]
  have := List.length_pos_of_mem _h
  omega

/-- Refuses automatic states that chain forever. -/
def checkCycles (f : FsmDefinition) : Except Fault Unit :=
  match (f.states.filter (·.automatic)).findSome? (f.findCycle (f.states.map (·.name))) with
  | some state => .error (.automaticCycle f.id state)
  | none => .ok ()

/-- Refuses a state that is both the initial and a terminal one. -/
def checkTerminals (f : FsmDefinition) : Except Fault Unit :=
  match f.terminals.find? (· == f.initial) with
  | some state => .error (.definition (.initialAndTerminal f.id state))
  | none =>
      if f.finalState.isSome && f.finalState == f.abandonState then
        .error (.definition (.sameTerminals f.id))
      else .ok ()

/-- Refuses an initial state or a target that is no state of the fsm. -/
def checkTargets (f : FsmDefinition) : Except Fault Unit :=
  let named := f.initial :: f.states.flatMap fun s => s.transitions.map (·.target)
  match named.find? fun name => !(f.state? name).isSome with
  | some name => .error (.unknownState f.id name)
  | none => .ok ()

def compile (f : FsmDefinition) : Except Fault FsmDefinition := do
  if isBlankName f.id then
    throw (.definition .blankFsmId)
  f.checkTerminals
  let f := f.withImplicitStates
  checkNames f.id [] f.states
  f.checkTargets
  f.checkCycles
  return f

end FsmDefinition

/-- A definition document that has been found well formed, with everything that is derived from
it. -/
structure DefinitionSet where
  document : DefinitionDocument
  /-- The fsms that start with the first event. -/
  initial : List String
  /-- The tests, their textual conditions read. -/
  tests : Dict TransitionInput
  /-- The actions, the reserved ones included. -/
  actions : Dict (List Operation)
  /-- The fsms, with all of their states. -/
  fsms : List FsmDefinition

namespace DefinitionSet

def id (d : DefinitionSet) : String :=
  d.document.id

def preconditions (d : DefinitionSet) : List String :=
  d.document.preconditions

def scratchFields (d : DefinitionSet) : Dict String :=
  d.document.scratchFields

def test (d : DefinitionSet) (id : String) : Except Fault TransitionInput :=
  match d.tests.find? id with
  | some input => .ok input
  | none => .error (.unknownTest id)

def action (d : DefinitionSet) (id : String) : Except Fault (List Operation) :=
  match d.actions.find? id with
  | some ops => .ok ops
  | none => .error (.unknownAction id)

def fsmIndex? (d : DefinitionSet) (id : String) : Option Nat :=
  d.fsms.findIdx? fun f => f.id == id

def fsm? (d : DefinitionSet) (id : String) : Option FsmDefinition :=
  d.fsms.find? fun f => f.id == id

end DefinitionSet

namespace DefinitionDocument

def compileTests (d : DefinitionDocument) : Except Fault (Dict TransitionInput) := do
  let tests ← d.tests.entries.mapM fun (t : String × TransitionInput) => do
    return (t.1, ← t.2.compile t.1)
  return .ofList tests

/-- The fsms as they are run, in the order of the document; no two may have the same id. -/
def compileFsms (earlier : List String) : List FsmDefinition → Except Fault (List FsmDefinition)
  | [] => .ok []
  | f :: rest => do
      let f ← f.compile
      if earlier.contains f.id then
        throw (.definition (.duplicateFsm f.id))
      return f :: (← compileFsms (f.id :: earlier) rest)

/-- The fsms that an entry of the initial ones lists, between commas or bars. -/
def initialNames (entry : String) : List String :=
  ((Text.split (fun c => c == ',' || c == '|') entry.toList).map Text.trimChars).filterMap
    fun name => if name.isEmpty then none else some (String.ofList name)

/-- The reserved actions and what they do. -/
def reservedActions : List (String × Operation) :=
  [(Operation.saveScratchId, .saveScratch), (Operation.clearScratchId, .clearScratch)]

/-- The first of some names that is not known. -/
def checkKnown (known : String → Bool) (fault : String → Fault) (names : List String) :
    Except Fault Unit :=
  match names.find? fun name => !known name with
  | some name => .error (fault name)
  | none => .ok ()

def compile (d : DefinitionDocument) : Except Fault DefinitionSet := do
  if FsmDefinition.isBlankName d.id then
    throw (.definition .blankId)
  if d.tests.contains TransitionInput.other then
    throw (.definition (.reservedTest TransitionInput.other))
  let tests ← d.compileTests
  let checkTests := checkKnown (fun id => id == TransitionInput.other || tests.contains id)
    .unknownTest
  checkTests d.preconditions
  let fsms ← compileFsms [] d.fsms
  let knownFsm := fun id => fsms.any fun f => f.id == id
  let initial := d.initial.flatMap initialNames
  if initial.isEmpty then
    throw (.definition .noInitialFsm)
  checkKnown knownFsm .unknownFsm initial
  if let some (id, _) := reservedActions.find? fun r => d.actions.contains r.1 then
    throw (.definition (.reservedAction id))
  d.actions.entries.forM fun (id, ops) => ops.forM (Operation.check id knownFsm)
  let actions := reservedActions.foldl (fun all r => all.insert r.1 [r.2]) d.actions
  let checkActions := checkKnown actions.contains .unknownAction
  fsms.forM fun f => do
    checkTests f.preconditions
    f.states.forM fun s => s.transitions.forM fun t => do
      checkTests t.inputs
      checkActions t.actions
  return ⟨d, initial, tests, actions, fsms⟩

def load (j : Json) : Except Fault DefinitionSet :=
  match ofJson? j with
  | none => .error .json
  | some d => d.compile

end DefinitionDocument

end TraceAutomata
