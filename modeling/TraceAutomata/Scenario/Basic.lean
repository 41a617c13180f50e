import TraceAutomata.Scenario.Status
import TraceAutomata.Store.Basic

namespace TraceAutomata

abbrev ScenarioId := Nat

structure Scenario where
  id : ScenarioId
  name : String
  fsm : String
  /-- The fsm whose scenario started this one. -/
  parent : Option String
  state : String
  status : ScenarioStatus := .waitingStart
  /-- The attribute below which the scenario is recorded. -/
  subtree : Quark
  /-- The number of the event that the scenario handled last. -/
  lastEvent : Option Nat := none
  /-- The time at which the scenario left its initial state. -/
  startTime : Option Int64 := none
  /-- The time at which the scenario ended. -/
  endTime : Option Int64 := none
deriving DecidableEq

namespace Scenario

/-- The name of the scenario with a given number among those of an fsm. -/
def nameOf (fsm : String) (sequence : Nat) : String :=
  s!"{fsm}#{sequence}"

def isLive (s : Scenario) : Bool :=
  !s.status.isTerminal

def isWaiting (s : Scenario) : Bool :=
  s.status == .waitingStart

/-- Whether the scenario has handled an event. -/
def hasStarted (s : Scenario) : Bool :=
  s.lastEvent.isSome

/-- Moves the status forward; it stays as it is where it cannot become the next one. -/
def advance (s : Scenario) (next : ScenarioStatus) : Scenario :=
  if s.status.canBecome next then { s with status := next } else s

end Scenario

end TraceAutomata
