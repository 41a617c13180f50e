/-!
Where a scenario is recorded below the root of its pattern. Each scenario has the subtree
`scenarios/<scenario>`, which holds its fsm, parent, state, status and times, the time at which
it last entered each state, and its scratch slots.
-/

namespace TraceAutomata.Layout

def scenarios : String := "scenarios"
def fsm : String := "fsm"
def parent : String := "parent"
def state : String := "state"
def status : String := "status"
def startTime : String := "start_time"
def endTime : String := "end_time"
def states : String := "states"
def scratch : String := "scratch"

def scenarioPath (scenario : String) : List String :=
  [scenarios, scenario]

def slotPath (slot : String) : List String :=
  [scratch, slot]

/-- The time at which a state was last entered, from the subtree of the scenario. -/
def statePath (state : String) : List String :=
  [states, state, startTime]

end TraceAutomata.Layout
