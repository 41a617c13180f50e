import TraceAutomata.CommandLine.Request

namespace TraceAutomata.CommandLine

def padEnd (width : Nat) (text : String) : String :=
  text ++ String.ofList (List.replicate (width - text.length) ' ')

def padStart (width : Nat) (text : String) : String :=
  String.ofList (List.replicate (width - text.length) ' ') ++ text

def columns (rows : List (String × String)) : List String :=
  let width := (rows.map fun r => r.1.length).foldl max 0
  rows.map fun r => "  " ++ padEnd (width + 2) r.1 ++ r.2

namespace OptionSpec

/-- The option as it is written before its value. -/
def form (o : OptionSpec) : String :=
  let letter := match o.short with
    | some c => "-" ++ String.ofList [c] ++ ", "
    | none => "    "
  let operand := if o.operand == .none then "" else " <" ++ o.long.toUpper ++ ">"
  letter ++ "--" ++ o.long ++ operand

/-- What the help says of the option, with the values that it has when it is not given. -/
def description (o : OptionSpec) (env : Environment) : String :=
  if o.long = "config" then
    o.help ++ " [env: TRACEPAT_CONFIG=" ++ (env "TRACEPAT_CONFIG").getD "" ++ "]"
  else if o.long = "trace" then o.help ++ " [default: -]"
  else o.help

end OptionSpec

def optionLines (env : Environment) (options : List OptionSpec) : List String :=
  "Options:" :: columns (options.map fun o => (o.form, o.description env))

namespace Topic

def summary : Topic → String
  | .run => "Run a definition set over a JSON-lines trace"
  | .check => "Validate a definition set"
  | .history => "List the scenarios recorded in a store snapshot"

def pattern : Topic → String
  | .run => "run [OPTIONS] --definitions <DEFINITIONS>"
  | .check => "check [OPTIONS] --definitions <DEFINITIONS>"
  | .history => "history [OPTIONS] --snapshot <SNAPSHOT> --root <ROOT>"

end Topic

def unlines (lines : List String) : String :=
  String.join (lines.map fun line => line ++ "\n")

def programName : String := "tracepat"

def programVersion : String := "0.1.0"

def helpText (env : Environment) : Option Topic → String
  | some t =>
      unlines <|
        [t.summary, "", "Usage: " ++ programName ++ " " ++ t.pattern, ""] ++
          optionLines env t.options
  | none =>
      unlines <|
        ["Match finite-state patterns against trace event streams", "",
          "Usage: " ++ programName ++ " [OPTIONS] <COMMAND>", "", "Commands:"] ++
        columns ((Topic.all.map fun t => (t.name, t.summary)) ++
          [("help", "Print this message or the help of the given subcommand(s)")]) ++
        [""] ++ optionLines env Topic.generalOptions

end TraceAutomata.CommandLine
