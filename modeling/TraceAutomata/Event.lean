import TraceAutomata.Fault
import TraceAutomata.Json.Reader
import TraceAutomata.Json.Writer
import TraceAutomata.Time.Stamp

/-!
Events that a run receives, and synthetic events that it emits. Events are read from trace
records, whose fields hold plain JSON values, or from documents that state the kind of every
value.
-/

namespace TraceAutomata

structure Event where
  timestamp : Timestamp
  name : String
  fields : Dict Value := ∅
  /-- The end of the interval that a synthetic event covers. -/
  stop : Option Timestamp := none
deriving DecidableEq

/-- An event that a scenario emits, covering the interval from its start to its end. -/
structure SyntheticEvent where
  name : String
  start : Timestamp
  stop : Timestamp
  fields : Dict Value
deriving DecidableEq

namespace Event

def nanos (e : Event) : Int64 :=
  e.timestamp.nanos

def field? (e : Event) (name : String) : Option Value :=
  e.fields.find? name

def withField (e : Event) (name : String) (value : Value) : Event :=
  { e with fields := e.fields.insert name value }

def isSynthetic (e : Event) : Bool :=
  e.stop.isSome

/-- The value of a field of a trace record. Whole numbers take the narrowest kind that holds
them, truth values count as 0 and 1, lists and objects become their own text, and `null` is no
value. -/
def fieldValue? : Json → Option Value
  | .null => none
  | .bool b => some (.int (if b then 1 else 0))
  | .int n =>
      match Number.int64? n with
      | some n => some (.ofInt64 n)
      | none => some (.double (Double.ofInt n))
  | .double x => some (.double x)
  | .str s => some (.string s)
  | j => some (.string j.sortMembers.compact)

def fieldValues (members : List (String × Json)) : Dict Value :=
  .ofList <| members.filterMap fun (name, j) => (fieldValue? j).map fun v => (name, v)

def timeOfRecord (j : Json) : Except Fault Timestamp :=
  match (j.member? "ts").or (j.member? "timestamp") with
  | none => .error (.record .missingTime)
  | some ts =>
      match Timestamp.ofJson? ts with
      | none => .error .json
      | some t => .ok t

def nameOfRecord (j : Json) : Except Fault String :=
  match (j.member? "name").bind Json.string? with
  | none => .error (.record .missingName)
  | some name => .ok name

def fieldsOfRecord (j : Json) : Except Fault (Dict Value) :=
  match j.member? "fields" with
  | none => .ok ∅
  | some (.object members) => .ok (fieldValues members)
  | some _ => .error (.record .fieldsNotAnObject)

def stopOfRecord (j : Json) : Except Fault (Option Timestamp) :=
  match j.member? "end" with
  | none => .ok none
  | some stop =>
      match Timestamp.ofJson? stop with
      | none => .error .json
      | some t => .ok (some t)

/-- Reads a trace record: an object with a time, a name and perhaps fields and an end. -/
def ofRecord (j : Json) : Except Fault Event :=
  match j with
  | .object _ => do
      return ⟨← timeOfRecord j, ← nameOfRecord j, ← fieldsOfRecord j, ← stopOfRecord j⟩
  | _ => .error (.record .notAnObject)

def ofLine (line : String) : Except Fault Event :=
  match Json.ofText? line with
  | none => .error .json
  | some j => ofRecord j

def toJson (e : Event) : Json :=
  .object <|
    [("ts", e.timestamp.toJson), ("name", .str e.name),
      ("fields", .ofDict Value.toJson e.fields)] ++
    Json.memberOfOption "end" Timestamp.toJson e.stop

/-- Reads an event whose fields state the kinds of their values. -/
def ofJson? (j : Json) : Option Event := do
  return ⟨← j.required "ts" Timestamp.ofJson?, ← j.required "name" Json.string?,
    ← j.withDefault "fields" (Json.dictOf? Value.ofJson?) ∅,
    ← j.optional "end" Timestamp.ofJson?⟩

end Event

namespace SyntheticEvent

/-- The event that a synthetic event is when it is received again: at its start, with its
end kept. -/
def toEvent (e : SyntheticEvent) : Event :=
  ⟨e.start, e.name, e.fields, some e.stop⟩

def toJson (e : SyntheticEvent) : Json :=
  .object [("name", .str e.name), ("start", e.start.toJson), ("end", e.stop.toJson),
    ("fields", .ofDict Value.toJson e.fields)]

def ofJson? (j : Json) : Option SyntheticEvent := do
  return ⟨← j.required "name" Json.string?, ← j.required "start" Timestamp.ofJson?,
    ← j.required "end" Timestamp.ofJson?,
    ← j.required "fields" (Json.dictOf? Value.ofJson?)⟩

end SyntheticEvent

end TraceAutomata
