import TraceAutomata.Definition.Compile
import TraceAutomata.Yaml.Schema

namespace TraceAutomata.DefinitionDocument

def loadJson (text : String) : Except Fault DefinitionSet :=
  match Json.ofText? text with
  | none => .error .json
  | some j => load j

def loadYaml (text : String) : Except Fault DefinitionSet :=
  match Yaml.jsonOfText? text with
  | none => .error .yaml
  | some j => load j

def lastName (path : List Char) : List Char :=
  let names := (Text.split (· == '/') path).filter fun name => !name.isEmpty && name != ['.']
  names.getLast?.getD []

/-- The part of a name after its last point, as long as something stands before the point. -/
def extension? (name : List Char) : Option (List Char) :=
  let reversed := name.reverse
  let stem := (reversed.dropWhile (· != '.')).drop 1
  if stem.isEmpty then none else some (reversed.takeWhile (· != '.')).reverse

def loadFile (path text : String) : Except Fault DefinitionSet :=
  if extension? (lastName path.toList) = some ['j', 's', 'o', 'n'] then loadJson text
  else loadYaml text

end TraceAutomata.DefinitionDocument
