import TraceAutomata.Run.Basic
import TraceAutomata.Yaml.Schema

/-!
Settings of the command line program. They come from a YAML file with a section for the engine,
one for the store and one for the output, all of which may be left out; variables of the
environment take precedence over the file.
-/

namespace TraceAutomata

/-- The values of the variables of the environment that are set. -/
abbrev Environment := String → Option String

def Environment.ofList (values : List (String × String)) : Environment :=
  fun name => values.lookup name

structure Settings where
  run : RunSettings := {}
  /-- The beginning of the trace in nanoseconds. -/
  startTime : Int64 := 0
  /-- The file in which the store is saved once the trace ends. -/
  snapshot : Option String := none
  /-- Whether synthetic events are laid out over lines. -/
  pretty : Bool := false
  /-- Whether a summary of all scenarios is given once the trace ends. -/
  summary : Bool := false
deriving DecidableEq

/-- Why there are no settings. -/
inductive SettingsFault where
  /-- The file cannot be read. -/
  | unreadable
  /-- The file holds no settings. -/
  | malformed
  | emptyNamePrefix
  | zeroChainLimit
deriving DecidableEq

namespace SettingsFault

def message : SettingsFault → String
  | .unreadable => "failed to read config file"
  | .malformed => "failed to parse config file"
  | .emptyNamePrefix =>
      "configuration validation failed: engine.synthetic_prefix must not be empty"
  | .zeroChainLimit =>
      "configuration validation failed: engine.automatic_chain_limit must be at least 1"

end SettingsFault

namespace Yaml.Node

/-- The entries of a section; one that is left empty has none. -/
def section? : Node → Option (List (String × Node))
  | .plain "" => some []
  | .map entries => some entries
  | _ => none

/-- The text of a scalar of any kind. -/
def text? : Node → Option String
  | .plain text => some text
  | .quoted text => some text
  | _ => none

def bool? : Node → Option Bool
  | .plain text => Yaml.bool? text
  | _ => none

def count? : Node → Option Nat
  | .plain text => (Yaml.unsigned? text.toList).bind fun n => Number.count? n
  | _ => none

def int64? : Node → Option Int64
  | .plain text => (Yaml.integer? text.toList).bind Number.int64?
  | _ => none

/-- A part that null stands in for. -/
def optional {α : Type} (decode : Node → Option α) (n : Node) : Option (Option α) :=
  match n with
  | .plain text => if Yaml.isNull text then some none else (decode n).map some
  | _ => (decode n).map some

/-- The entry of a name, which has a default and must not stand twice. -/
def entry {α : Type} (entries : List (String × Node)) (name : String)
    (decode : Node → Option α) (default : α) : Option α :=
  match entries.filter fun e => e.1 == name with
  | [] => some default
  | [(_, n)] => decode n
  | _ => none

end Yaml.Node

namespace Settings

open Yaml.Node

/-- The settings of the run in the section for the engine. -/
def engineOfNode? (n : Yaml.Node) : Option RunSettings := do
  let entries ← n.section?
  let defaults : RunSettings := {}
  return {
    eventNamePrefix := ← entry entries "synthetic_prefix" text? defaults.eventNamePrefix
    chainLimit := ← entry entries "automatic_chain_limit" (optional count?) defaults.chainLimit
    spawnLimit := ← entry entries "max_spawn_depth" count? defaults.spawnLimit }

/-- The beginning of the trace and the snapshot file, in the section for the store. -/
def storeOfNode? (n : Yaml.Node) : Option (Int64 × Option String) := do
  let entries ← n.section?
  return (← entry entries "start_time" int64? 0,
    ← entry entries "snapshot" (optional text?) none)

/-- Whether to lay events out and whether to summarise, in the section for the output. -/
def outputOfNode? (n : Yaml.Node) : Option (Bool × Bool) := do
  let entries ← n.section?
  return (← entry entries "pretty" bool? false, ← entry entries "summary" bool? false)

def ofNode? (n : Yaml.Node) : Option Settings := do
  let sections ← n.section?
  let run ← entry sections "engine" engineOfNode? {}
  let (startTime, snapshot) ← entry sections "store" storeOfNode? (0, none)
  let (pretty, summary) ← entry sections "output" outputOfNode? (false, false)
  return { run, startTime, snapshot, pretty, summary }

/-- The variables of the environment that the settings depend on. -/
def variableNames : List String :=
  ["TRACEPAT_CONFIG", "TRACEPAT_SYNTHETIC_PREFIX", "TRACEPAT_CHAIN_LIMIT",
    "TRACEPAT_START_TIME", "TRACEPAT_SNAPSHOT", "TRACEPAT_SUMMARY"]

/-- The settings as the variables of the environment change them. A number that cannot be read
changes nothing. -/
def override (s : Settings) (env : Environment) : Settings :=
  { s with
    run :=
      { s.run with
        eventNamePrefix := (env "TRACEPAT_SYNTHETIC_PREFIX").getD s.run.eventNamePrefix
        chainLimit := ((env "TRACEPAT_CHAIN_LIMIT").bind fun text =>
          Number.countOfText? text.toList).or s.run.chainLimit }
    startTime := ((env "TRACEPAT_START_TIME").bind fun text =>
      Number.int64OfText? text.toList).getD s.startTime
    snapshot := ((env "TRACEPAT_SNAPSHOT").filter (· != "")).or s.snapshot
    summary := ((env "TRACEPAT_SUMMARY").map fun text =>
      text == "1" || text.toLower == "true").getD s.summary }

/-- Refuses an empty beginning of event names, and a limit that admits no transition. -/
def validate (s : Settings) : Except SettingsFault Settings :=
  if s.run.eventNamePrefix = "" then .error .emptyNamePrefix
  else if s.run.chainLimit = some 0 then .error .zeroChainLimit
  else .ok s

/-- The file of the settings: the one that is asked for, or else that of the environment. -/
def file? (asked : Option String) (env : Environment) : Option String :=
  asked.or (env "TRACEPAT_CONFIG")

/-- The settings of a file, of which the text is given if it can be read. Without a file all
settings have their defaults, as far as the environment does not change them. -/
def load (file : Option (Option String)) (env : Environment) : Except SettingsFault Settings := do
  let s ←
    match file with
    | none => pure {}
    | some none => throw .unreadable
    | some (some text) =>
        match (Yaml.Node.ofText? text).bind ofNode? with
        | none => throw .malformed
        | some s => pure s
  (s.override env).validate

end Settings

end TraceAutomata
