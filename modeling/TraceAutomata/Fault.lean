import TraceAutomata.Condition.Text
import TraceAutomata.Store.Error

/-!
What can go wrong between a definition document and the run that it defines. Each cause is a
case of its own, and the wording of all of them is in one place.
-/

namespace TraceAutomata

/-- What a lookup did not find, other than an attribute of the store. -/
inductive Missing where
  | eventField (field : String)
  /-- The time at which a state was entered. -/
  | stateStart (state : String)
  /-- The value of a path is null, so it names nothing. -/
  | nullName (path : String)
deriving DecidableEq

namespace Missing

def text : Missing → String
  | .eventField field => s!"event field '{field}'"
  | .stateStart state => s!"start time of state '{state}'"
  | .nullName path => s!"{path} (null)"

end Missing

/-- Why a definition document is refused. -/
inductive DefinitionFault where
  | blankId
  | reservedTest (id : String)
  | noEventNames (test : String)
  | valueConditionInTimeTest (test : String)
  | blankFsmId
  | initialAndTerminal (fsm state : String)
  | sameTerminals (fsm : String)
  | unnamedState (fsm : String)
  | duplicateState (fsm state : String)
  | duplicateFsm (fsm : String)
  | noInitialFsm
  | reservedAction (id : String)
  | emptyStatePath (action : String)
  | scenarioInStatePath (action : String)
  | emptySpawn (action : String)
  | condition (fault : ConditionFault)
deriving DecidableEq

namespace DefinitionFault

def message : DefinitionFault → String
  | .blankId => "definition set id must not be empty"
  | .reservedTest id => s!"test id '{id}' is reserved"
  | .noEventNames test => s!"event test '{test}' has no event names"
  | .valueConditionInTimeTest test => s!"time test '{test}' contains a value condition"
  | .blankFsmId => "fsm id must not be empty"
  | .initialAndTerminal fsm state =>
      s!"fsm '{fsm}': state '{state}' cannot be both initial and terminal"
  | .sameTerminals fsm => s!"fsm '{fsm}': final and abandon states must differ"
  | .unnamedState fsm => s!"fsm '{fsm}' has a state without a name"
  | .duplicateState fsm state => s!"fsm '{fsm}': duplicate state '{state}'"
  | .duplicateFsm fsm => s!"duplicate fsm '{fsm}'"
  | .noInitialFsm => "no initial fsm"
  | .reservedAction id => s!"action id '{id}' is reserved"
  | .emptyStatePath action => s!"action '{action}': state change with an empty path"
  | .scenarioInStatePath action =>
      s!"action '{action}': state change paths are already relative to the scenario"
  | .emptySpawn action => s!"action '{action}': spawn without fsms"
  | .condition fault => fault.message

end DefinitionFault

/-- Why a document is no record of an event. -/
inductive RecordFault where
  | notAnObject
  | missingTime
  | missingName
  | fieldsNotAnObject
deriving DecidableEq

namespace RecordFault

def message : RecordFault → String
  | .notAnObject => "event record must be a JSON object"
  | .missingTime => "missing 'ts'"
  | .missingName => "missing or non-string 'name'"
  | .fieldsNotAnObject => "'fields' must be an object"

end RecordFault

inductive Fault where
  | missing (what : Missing)
  | definition (fault : DefinitionFault)
  | record (fault : RecordFault)
  | unknownTest (id : String)
  | unknownAction (id : String)
  | unknownFsm (id : String)
  | unknownState (fsm state : String)
  /-- Two values that have no common order are compared. -/
  | incomparable (left right : Value)
  /-- A value stands where the time of a state's entry is recorded. -/
  | notATime (value : Value)
  /-- The time of a state's entry is later than the event. -/
  | timeOrdering (reference time : Int64)
  | automaticCycle (fsm state : String)
  | store (error : StoreError)
  | json
  | yaml
  | io
deriving DecidableEq

namespace Fault

/-- A value with its kind, as it is shown where it does not fit. -/
def describe (v : Value) : String :=
  s!"{v.kind} '{v.text}'"

def message : Fault → String
  | .missing what => s!"attribute not found: {what.text}"
  | .definition fault => s!"invalid pattern definition: {fault.message}"
  | .record fault => s!"invalid event: {fault.message}"
  | .unknownTest id => s!"unknown transition input: {id}"
  | .unknownAction id => s!"unknown action: {id}"
  | .unknownFsm id => s!"unknown fsm: {id}"
  | .unknownState fsm state => s!"unknown state '{state}' in fsm '{fsm}'"
  | .incomparable left right => s!"cannot compare {describe left} with {describe right}"
  | .notATime value => s!"cannot compare {describe value} with long"
  | .timeOrdering reference time =>
      s!"reference time {reference.toInt} is after event time {time.toInt}"
  | .automaticCycle fsm state =>
      s!"automatic state '{state}' in fsm '{fsm}' chains without making progress"
  | .store error => s!"state store error: {error.message}"
  | .json => "JSON error"
  | .yaml => "YAML error"
  | .io => "I/O error"

/-- Whether the definition is to blame, found when it is loaded or when it is first used. -/
def isConfiguration : Fault → Bool
  | .definition _ | .unknownTest _ | .unknownAction _ | .unknownFsm _ | .unknownState ..
  | .incomparable .. | .notATime _ | .timeOrdering .. | .automaticCycle .. => true
  | _ => false

/-- Whether nothing is wrong but that a lookup found nothing. -/
def isNotFound : Fault → Bool
  | .missing _ => true
  | .store (.attributeNotFound _) => true
  | _ => false

/-- The code under which a fault is reported. -/
def code : Fault → String
  | .missing _ => "ATTRIBUTE_NOT_FOUND"
  | .definition _ | .unknownTest _ | .unknownAction _ | .unknownFsm _ | .unknownState .. =>
      "INVALID_DEFINITION"
  | .record _ => "INVALID_EVENT"
  | .incomparable .. | .notATime _ => "TYPE_MISMATCH"
  | .timeOrdering .. => "TIME_ORDERING"
  | .automaticCycle .. => "AUTOMATIC_CYCLE"
  | .store (.attributeNotFound _) => "ATTRIBUTE_NOT_FOUND"
  | .store _ => "STORE_WRITE_FAILURE"
  | .json | .yaml => "BAD_DEFINITION_DOCUMENT"
  | .io => "IO_ERROR"

/-- What an operation of the store gives, within the run. -/
def ofStore {α : Type} : Except StoreError α → Except Fault α
  | .ok a => .ok a
  | .error e => .error (.store e)

end Fault

end TraceAutomata
