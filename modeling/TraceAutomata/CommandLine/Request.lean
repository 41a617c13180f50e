import TraceAutomata.Settings

/-!
What the arguments of the command line ask for. Options may be written with the value attached
or as the next argument, none may be given twice, and the file of the settings may be named
before or after the command.
-/

namespace TraceAutomata.CommandLine

/-- What may be written after an option. -/
inductive Operand where
  | none
  | text
  /-- A path, which must not be empty. -/
  | path
deriving DecidableEq

/-- An option under its long name, which two hyphens precede, and the letter that may stand for
it. -/
structure OptionSpec where
  long : String
  short : Option Char := .none
  operand : Operand
  help : String := ""
deriving DecidableEq

namespace OptionSpec

def admits (o : OptionSpec) (value : String) : Bool :=
  match o.operand with
  | .none => false
  | .text => true
  | .path => value != ""

end OptionSpec

/-- What options come to: their values, or the request for help or for the version. -/
inductive Scan where
  /-- The values, and the first argument that is no option with all arguments after it. -/
  | values (found : List (String × String)) (word : Option (String × List String))
  | help
  | version
  | misuse
deriving DecidableEq

/-- Whether the argument can be the value of the option before it. -/
def isOperand (argument : String) : Bool :=
  argument == "-" || argument.toList.head? != some '-'

/-- An option and the value that is attached to it. -/
structure Written where
  spec : OptionSpec
  attached : Option String

/-- The option that an argument writes with two hyphens, which are left out here. -/
def long? (specs : List OptionSpec) (body : List Char) : Option Written :=
  let name := String.ofList (body.takeWhile (· != '='))
  (specs.find? fun o => o.long == name).map fun spec =>
    match body.dropWhile (· != '=') with
    | [] => ⟨spec, none⟩
    | _ :: value => ⟨spec, some (String.ofList value)⟩

/-- The option that an argument writes with a letter. -/
def short? (specs : List OptionSpec) (letter : Char) (body : List Char) : Option Written :=
  (specs.find? fun o => o.short == some letter).map fun spec =>
    if spec.operand == .none then ⟨spec, none⟩
    else
      match body with
      | [] => ⟨spec, none⟩
      | '=' :: value => ⟨spec, some (String.ofList value)⟩
      | value => ⟨spec, some (String.ofList value)⟩

/-- The option that an argument writes, if it writes one. -/
def written? (specs : List OptionSpec) (argument : String) : Option Written :=
  match argument.toList with
  | '-' :: '-' :: body => long? specs body
  | '-' :: letter :: body => short? specs letter body
  | _ => none

def helpOption : OptionSpec :=
  ⟨"help", some 'h', .none, "Print help"⟩

def versionOption : OptionSpec :=
  ⟨"version", some 'V', .none, "Print version"⟩

/-- Reads options up to the first argument that is none. After two hyphens by themselves no
option may stand. -/
def scan (specs : List OptionSpec) (found : List (String × String)) : List String → Scan
  | [] => .values found none
  | "--" :: rest => if rest.isEmpty then .values found none else .misuse
  | argument :: rest =>
      if isOperand argument then .values found (some (argument, rest))
      else
        match written? specs argument with
        | none => .misuse
        | some ⟨spec, attached⟩ =>
            if (found.lookup spec.long).isSome then .misuse
            else if spec.operand == .none then
              if attached.isSome then .misuse
              else if spec == helpOption then .help
              else if spec == versionOption then .version
              else scan specs ((spec.long, "") :: found) rest
            else
              match attached, rest with
              | some value, rest =>
                  if spec.admits value then scan specs ((spec.long, value) :: found) rest
                  else .misuse
              | none, value :: rest =>
                  if isOperand value && spec.admits value then
                    scan specs ((spec.long, value) :: found) rest
                  else .misuse
              | none, [] => .misuse

inductive Command where
  /-- Runs a definition set over a trace. -/
  | run (definitions trace : String) (snapshot : Option String) (summary pretty : Bool)
  /-- Loads a definition set and describes it. -/
  | check (definitions : String) (json : Bool)
  /-- Lists the scenarios that a snapshot records. -/
  | history (snapshot root : String) (json : Bool)
deriving DecidableEq

/-- The commands by their names. -/
inductive Topic where
  | run
  | check
  | history
deriving DecidableEq

namespace Topic

def name : Topic → String
  | .run => "run"
  | .check => "check"
  | .history => "history"

def all : List Topic :=
  [.run, .check, .history]

def ofName? (name : String) : Option Topic :=
  all.find? fun t => t.name == name

def configOption : OptionSpec :=
  ⟨"config", some 'c', .path, "Configuration file (YAML)"⟩

def definitionsOption (help : String) : OptionSpec :=
  ⟨"definitions", some 'd', .path, help⟩

def options : Topic → List OptionSpec
  | .run =>
      [configOption, definitionsOption "Definition set (YAML, or JSON with a .json extension)",
        ⟨"trace", some 't', .text, "Trace file, one JSON event per line (\"-\" for stdin)"⟩,
        ⟨"snapshot", none, .path, "Save a snapshot of the state store when the run ends"⟩,
        ⟨"summary", none, .none, "Print a scenario summary to stderr"⟩,
        ⟨"pretty", none, .none, "Pretty-print synthetic events"⟩, helpOption]
  | .check =>
      [configOption, definitionsOption "",
        ⟨"json", none, .none, "Print the parsed definition set as JSON"⟩, helpOption]
  | .history =>
      [configOption, ⟨"snapshot", some 's', .path, ""⟩,
        ⟨"root", some 'r', .text, "Definition set id (the pattern root attribute)"⟩,
        ⟨"json", none, .none, "Output records as JSON lines"⟩, helpOption]

def generalOptions : List OptionSpec :=
  [configOption, helpOption, versionOption]

/-- The command that the values of its options make up, if all that it needs are there. -/
def command? (t : Topic) (found : List (String × String)) : Option Command :=
  let flag := fun name => (found.lookup name).isSome
  match t with
  | .run => do
      return .run (← found.lookup "definitions") ((found.lookup "trace").getD "-")
        (found.lookup "snapshot") (flag "summary") (flag "pretty")
  | .check => do return .check (← found.lookup "definitions") (flag "json")
  | .history => do
      return .history (← found.lookup "snapshot") (← found.lookup "root") (flag "json")

end Topic

/-- What the arguments ask for. -/
inductive Request where
  | command (config : Option String) (command : Command)
  /-- Help with one command, or with all. -/
  | help (topic : Option Topic)
  | version
  | misuse
deriving DecidableEq

namespace Request

/-- The request for help that the arguments after the word `help` make. -/
def ofHelp : List String → Request
  | [] => .help none
  | [name] =>
      match Topic.ofName? name with
      | some topic => .help (some topic)
      | none => .misuse
  | _ => .misuse

/-- The file of the settings: the one named after the command, or else before it, or else by the
environment, which must not name an empty one as long as it is asked. -/
def config? (general special : List (String × String)) (env : Environment) :
    Option (Option String) :=
  let early := general.lookup "config"
  let late := special.lookup "config"
  if env "TRACEPAT_CONFIG" == some "" && (early.isNone || late.isNone) then none
  else some ((late.or early).or (env "TRACEPAT_CONFIG"))

def ofCommand (t : Topic) (general : List (String × String)) (env : Environment)
    (arguments : List String) : Request :=
  match scan t.options [] arguments with
  | .help => .help (some t)
  | .values special none =>
      match config? general special env, t.command? special with
      | some file, some c => .command file c
      | _, _ => .misuse
  | _ => .misuse

def ofArguments (env : Environment) (arguments : List String) : Request :=
  match scan Topic.generalOptions [] arguments with
  | .help => .help none
  | .version => .version
  | .values general (some (word, rest)) =>
      if word = "help" then ofHelp rest
      else
        match Topic.ofName? word with
        | some topic => ofCommand topic general env rest
        | none => .misuse
  | _ => .misuse

end Request

end TraceAutomata.CommandLine
