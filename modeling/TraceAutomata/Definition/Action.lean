import TraceAutomata.Condition.Document
import TraceAutomata.Fault

namespace TraceAutomata

/-- The name of a synthetic event, as far as the definition gives it. -/
inductive SyntheticName where
  | literal (text : String)
  | value (source : ValueSource)

namespace SyntheticName

def toJson : SyntheticName → Json
  | .literal text => .tag "literal" (.str text)
  | .value source => .tag "value" source.toJson

def ofJson? (j : Json) : Option SyntheticName :=
  match j.tagged? with
  | some ("literal", content) => content.string?.map .literal
  | some ("value", content) => (ValueSource.ofJson? content).map .value
  | _ => none

end SyntheticName

inductive Operation where
  /-- Sets the attribute at a path below the subtree of the scenario. -/
  | stateChange (path : AttributePath) (value : ValueSource)
  /-- Copies the chosen fields of the event into their scratch slots. -/
  | saveScratch
  /-- Sets all scratch slots to null. -/
  | clearScratch
  | synthetic (name : SyntheticName) (fields : Dict ValueSource)
  /-- Starts scenarios of other fsms, which receive the event at once. -/
  | spawn (fsms : List String)

namespace Operation

/-- Whether the segment leads to the subtree of the scenario. -/
def isScenario : PathSegment → Bool
  | .scenario => true
  | _ => false

/-- Refuses a change without a path or with one that leaves the scenario, and a start of no
fsm or of an unknown one. -/
def check (action : String) (knownFsm : String → Bool) : Operation → Except Fault Unit
  | .stateChange path _ =>
      if path.isEmpty then .error (.definition (.emptyStatePath action))
      else if path.any isScenario then .error (.definition (.scenarioInStatePath action))
      else .ok ()
  | .spawn fsms =>
      if fsms.isEmpty then .error (.definition (.emptySpawn action))
      else
        match fsms.find? fun fsm => !knownFsm fsm with
        | some fsm => .error (.unknownFsm fsm)
        | none => .ok ()
  | _ => .ok ()

def toJson : Operation → Json
  | .stateChange path value =>
      .tag "state_change" (.object [("path", path.toJson), ("value", value.toJson)])
  | .saveScratch => .str "save_scratch_fields"
  | .clearScratch => .str "clear_scratch_fields"
  | .synthetic name fields =>
      .tag "synthetic_event" <| .object <|
        ("name", name.toJson) ::
          (if fields.isEmpty then [] else [("fields", .ofDict ValueSource.toJson fields)])
  | .spawn fsms => .tag "spawn" (.object [("fsms", .names fsms)])

def ofJson? (j : Json) : Option Operation :=
  match j.tagged? with
  | some ("state_change", content) => do
      return .stateChange (← content.required "path" AttributePath.ofJson?)
        (← content.required "value" ValueSource.ofJson?)
  | some ("save_scratch_fields", .null) => some .saveScratch
  | some ("clear_scratch_fields", .null) => some .clearScratch
  | some ("synthetic_event", content) => do
      return .synthetic (← content.required "name" SyntheticName.ofJson?)
        (← content.withDefault "fields" (Json.dictOf? ValueSource.ofJson?) ∅)
  | some ("spawn", content) => (content.required "fsms" Json.names?).map .spawn
  | _ => none

/-- The action that saves the scratch fields; definitions may not use its id. -/
def saveScratchId : String := "#save_scratch_fields"

/-- The action that clears the scratch fields; definitions may not use its id. -/
def clearScratchId : String := "#clear_scratch_fields"

end Operation

end TraceAutomata
