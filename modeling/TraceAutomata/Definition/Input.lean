import TraceAutomata.Condition.Document
import TraceAutomata.Condition.Eval

/-!
The inputs of transitions: tests of an event's name with an optional condition, and conditions
on time. A condition may be given as a tree, as text or as both.
-/

namespace TraceAutomata

/-- Whether a name matches a pattern: `any` and `#any` match every name, and a star at the
beginning or at the end of any other pattern stands for arbitrary characters. -/
def nameMatches (pattern name : String) : Bool :=
  let p := pattern.toList
  let n := name.toList
  if pattern = "any" || pattern = "#any" then true
  else if p.head? == some '*' && (p.drop 1).getLast? == some '*' then
    Text.occursIn (p.drop 1).dropLast n
  else if p.getLast? == some '*' then p.dropLast.isPrefixOf n
  else if p.head? == some '*' then (p.drop 1).isSuffixOf n
  else pattern == name

/-- A test of the name of an event and of a condition, which may be given in two forms. -/
structure EventTest where
  names : List String
  condition : Option Condition := none
  /-- A condition as text; it must hold besides the other one. -/
  whenText : Option String := none

namespace EventTest

def matchesName (t : EventTest) (name : String) : Bool :=
  t.names.any fun pattern => nameMatches pattern name

/-- Both conditions in one, the one given as text after the other. -/
def join : Option Condition → Condition → Condition
  | none, c => c
  | some existing, c => .and [existing, c]

/-- The test with the textual condition read and joined to the other one. -/
def compile (t : EventTest) : Except Fault EventTest :=
  match t.whenText with
  | none => .ok t
  | some text =>
      match Condition.parse text with
      | .error fault => .error (.definition (.condition fault))
      | .ok c => .ok { t with condition := some (join t.condition c), whenText := none }

def toJson (t : EventTest) : Json :=
  .object <|
    [("names", .names t.names)] ++ Json.memberOfOption "condition" Condition.toJson t.condition ++
      Json.memberOfOption "when" .str t.whenText

def ofJson? (j : Json) : Option EventTest := do
  return ⟨← j.required "names" Json.names?, ← j.optional "condition" Condition.ofJson?,
    ← j.optional "when" Json.string?⟩

end EventTest

inductive TransitionInput where
  | event (test : EventTest)
  | time (condition : Condition)

namespace TransitionInput

/-- The input identifier that always passes. -/
def other : String := "other"

/-- Whether the input passes in a context. The condition is looked at only if the name
matches. -/
def evaluate (ctx : GuardContext) : TransitionInput → Except Fault Bool
  | .event test =>
      if test.matchesName ctx.event.name then
        match test.condition with
        | some c => c.evaluate ctx
        | none => .ok true
      else .ok false
  | .time condition => condition.evaluate ctx

/-- The input as it is used, if it is well formed: an event test names an event and its textual
condition can be read, and a time test compares no values. -/
def compile (id : String) : TransitionInput → Except Fault TransitionInput
  | .event test =>
      if test.names.isEmpty then .error (.definition (.noEventNames id))
      else test.compile.map .event
  | .time condition =>
      if condition.subconditions.any Condition.comparesValues then
        .error (.definition (.valueConditionInTimeTest id))
      else .ok (.time condition)

def toJson : TransitionInput → Json
  | .event test => .tag "event" test.toJson
  | .time condition => .tag "time" condition.toJson

def ofJson? (j : Json) : Option TransitionInput :=
  match j.tagged? with
  | some ("event", content) => (EventTest.ofJson? content).map .event
  | some ("time", content) => (Condition.ofJson? content).map .time
  | _ => none

end TransitionInput

end TraceAutomata
