import TraceAutomata.Json.Decode

/-!
The status of a scenario: it waits in its initial state, is in progress once it has left that
state, and ends matched or abandoned. The status only moves forward.
-/

namespace TraceAutomata

inductive ScenarioStatus where
  | waitingStart
  | inProgress
  | matched
  | abandoned
deriving DecidableEq

namespace ScenarioStatus

def text : ScenarioStatus → String
  | .waitingStart => "waiting_start"
  | .inProgress => "in_progress"
  | .matched => "matched"
  | .abandoned => "abandoned"

def isTerminal : ScenarioStatus → Bool
  | .matched | .abandoned => true
  | _ => false

def rank : ScenarioStatus → Nat
  | .waitingStart => 0
  | .inProgress => 1
  | .matched | .abandoned => 2

/-- Whether a scenario may move from one status to another, or stay where it is. -/
def canBecome (s next : ScenarioStatus) : Bool :=
  s == next || (!s.isTerminal && s.rank < next.rank)

def toJson (s : ScenarioStatus) : Json :=
  .str s.text

def ofJson? : Json → Option ScenarioStatus :=
  Json.oneOf? [("waiting_start", .waitingStart), ("in_progress", .inProgress),
    ("matched", .matched), ("abandoned", .abandoned)]

end ScenarioStatus

end TraceAutomata
