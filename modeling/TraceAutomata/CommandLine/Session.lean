import TraceAutomata.CommandLine.Report
import TraceAutomata.Definition.Source
import TraceAutomata.Store.Snapshot

namespace TraceAutomata.CommandLine

universe u

/-- How a session reaches what is outside of it. -/
structure Outside (m : Type → Type u) where
  /-- The text of a file that can be read. -/
  fileText : String → m (Option String)
  /-- Whether a text could be written to a file. -/
  saveFile : String → String → m Bool
  /-- The text of the standard input. -/
  inputText : m String
  /-- The milliseconds since the beginning of the year 1970. -/
  now : m Int64

/-- What a session gives. -/
structure Output where
  code : Nat
  out : String := ""
  err : String := ""
deriving DecidableEq

namespace Output

def success (out : String) (err : String := "") : Output :=
  { code := 0, out, err }

def failure (err : String) (out : String := "") : Output :=
  { code := 1, out, err := err ++ "\n" }

/-- The output of a session that does not know what is asked for. -/
def misuse (err : String) : Output :=
  { code := 2, err }

end Output

/-- The events of the lines of a trace, and how many lines hold none. Blank lines and those that
begin with `#` do not count. -/
def traceEvents (trace : String) : List Event × Nat :=
  let lines := (trace.splitOn "\n").map Text.trim
  let lines := lines.filter fun line => line != "" && line.toList.head? != some '#'
  let events := lines.filterMap fun line => (Event.ofLine line).toOption
  (events, lines.length - events.length)

variable {m : Type → Type u} [Monad m]

def loadDefinitions (outside : Outside m) (path : String) :
    ExceptT String m DefinitionSet := do
  match ← outside.fileText path with
  | none => throw Fault.io.message
  | some text =>
      match DefinitionDocument.loadFile path text with
      | .ok d => return d
      | .error fault => throw fault.message

def loadSettings (outside : Outside m) (env : Environment) (path : Option String) :
    ExceptT String m Settings := do
  let file ← path.mapM fun path => (outside.fileText path : m (Option String))
  match Settings.load file env with
  | .ok s => return s
  | .error fault => throw fault.message

def saveSnapshot (outside : Outside m) (path : String) (s : Snapshot) : m Bool := do
  if ← outside.saveFile path s.fileText then
    outside.saveFile (SnapshotMeta.fileName path) s.metadata.toJson.pretty
  else return false

def loadSnapshot (outside : Outside m) (path : String) : ExceptT String m Snapshot := do
  match ← outside.fileText path with
  | none => throw StoreError.io.message
  | some text =>
      match Snapshot.load path text (← outside.fileText (SnapshotMeta.fileName path)) with
      | .ok s => return s
      | .error e => throw e.message

/-- Runs a definition set over a trace: the synthetic events are written out, a snapshot is saved
where one is asked for, and a summary is given where one is asked for. -/
def runTrace (outside : Outside m) (settings : Settings) (definitions trace : String) :
    ExceptT String m Output := do
  let d ← loadDefinitions outside definitions
  let store := Store.empty settings.startTime
  let r ←
    match Run.start d store settings.run with
    | .ok r => pure r
    | .error fault => throw fault.message
  let text ←
    if trace = "-" then (outside.inputText : m String)
    else
      match ← outside.fileText trace with
      | some text => pure text
      | none => throw Fault.io.message
  let (events, _) := traceEvents text
  let r := (r.feed events).dispose
  let out := unlines (r.emitted.toList.map (syntheticText settings.pretty))
  let saved ←
    match settings.snapshot with
    | none => pure true
    | some path => show m Bool from do
        let time ← outside.now
        saveSnapshot outside path (r.store.capture time)
  if saved then
    return .success out (if settings.summary then unlines (summaryLines r) else "")
  else return .failure StoreError.io.message out

/-- Describes the definition set of a file, or gives it as a document. -/
def check (outside : Outside m) (definitions : String) (json : Bool) :
    ExceptT String m Output := do
  let d ← loadDefinitions outside definitions
  if json then return .success (unlines [d.document.toJson.sortMembers.pretty])
  else return .success (unlines (definitionLines d))

def recordsOf (s : Snapshot) (root : String) : Except StoreError (List ScenarioRecord) := do
  let st ← s.restore
  ScenarioRecord.list st (← st.resolve Store.root [root])

def history (outside : Outside m) (snapshot root : String) (json : Bool) :
    ExceptT String m Output := do
  let s ← loadSnapshot outside snapshot
  match recordsOf s root with
  | .error e => throw e.message
  | .ok records =>
      if json then return .success (unlines (records.map fun r => r.toJson.compact))
      else if records.isEmpty then return .success "" "No scenarios recorded\n"
      else return .success (unlines (records.map recordLine))

def execute (outside : Outside m) (env : Environment) (config : Option String) :
    Command → ExceptT String m Output
  | .run definitions trace snapshot summary pretty => do
      let settings ← loadSettings outside env config
      let settings :=
        { settings with
          snapshot := snapshot.or settings.snapshot
          summary := settings.summary || summary
          pretty := settings.pretty || pretty }
      runTrace outside settings definitions trace
  | .check definitions json => check outside definitions json
  | .history snapshot root json => history outside snapshot root json

def session (outside : Outside m) (env : Environment) (arguments : List String) : m Output := do
  match Request.ofArguments env arguments with
  | .help topic => return .success (helpText env topic)
  | .version => return .success (programName ++ " " ++ programVersion ++ "\n")
  | .misuse => return .misuse (helpText env none)
  | .command config command =>
      match ← (execute outside env config command).run with
      | .ok output => return output
      | .error message => return .failure message

end TraceAutomata.CommandLine
