import TraceAutomata.CommandLine.Usage
import TraceAutomata.Run.Dispatch

namespace TraceAutomata.CommandLine

def commaSeparated (names : List String) : String :=
  ", ".intercalate names

/-- An fsm with the number of its states, its outer states and what is special about it. -/
def fsmLine (d : DefinitionSet) (f : FsmDefinition) : String :=
  let final := (f.finalState.map fun s => ", final " ++ s).getD ""
  let abandon := (f.abandonState.map fun s => ", abandon " ++ s).getD ""
  let marks := (if f.concurrent then ["concurrent"] else []) ++
    (if d.initial.contains f.id then ["initial"] else [])
  s!"  fsm {f.id} ({f.states.length} states, initial {f.initial}{final}{abandon}) " ++
    " ".intercalate marks

def testLine (id : String) : TransitionInput → String
  | .event test => s!"  test {id} event " ++ "|".intercalate test.names
  | .time _ => s!"  test {id} time"

def actionLine (id : String) (ops : List Operation) : String :=
  s!"  action {id} ({ops.length} ops)"

def definitionLines (d : DefinitionSet) : List String :=
  [s!"Valid {d.id} (checksum {d.document.checksum})", "  initial: " ++ commaSeparated d.initial] ++
    (if d.preconditions.isEmpty then []
      else ["  preconditions: " ++ commaSeparated d.preconditions]) ++
    d.fsms.map (fsmLine d) ++
    (d.tests.entries.map fun e => testLine e.1 e.2) ++
    d.actions.entries.map fun e => actionLine e.1 e.2

/-- The times from the start of a scenario to its end, as far as they are recorded. -/
def spanText (r : ScenarioRecord) : String :=
  match r.startTime, r.endTime with
  | some start, some stop => s!"[{start.toInt}, {stop.toInt}]"
  | some start, none => s!"[{start.toInt}, ...]"
  | none, _ => ""

def recordLine (r : ScenarioRecord) : String :=
  "  " ++ padEnd 24 r.name ++ " " ++ padEnd 12 r.status ++ " " ++ padEnd 16 r.state ++ " " ++
    spanText r ++ (r.parent.map fun parent => s!" (from {parent})").getD ""

def statsLine (s : FsmStats) : String :=
  "  " ++ padEnd 24 s.id ++ " created " ++ padStart 6 (toString s.created) ++
    "  matched " ++ padStart 6 (toString s.matched) ++
    "  abandoned " ++ padStart 6 (toString s.abandoned)

def summaryLines (r : Run) : List String :=
  let records := match r.records with
    | .ok records => records
    | .error _ => []
  s!"Processed {r.received} events, {r.emitted.size} synthetic events" ::
    r.stats.map statsLine ++ (if records.isEmpty then [] else "" :: records.map recordLine)

def syntheticText (pretty : Bool) (e : SyntheticEvent) : String :=
  if pretty then e.toJson.pretty else e.toJson.compact

end TraceAutomata.CommandLine
