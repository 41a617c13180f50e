import TraceAutomata.Event
import TraceAutomata.Scenario.Layout
import TraceAutomata.Store.Basic

/-!
The meaning of conditions. A condition holds or does not hold for one event and the scenario
that receives it, or a fault keeps it from being evaluated; connectives look at their parts from
left to right and no further than they need to.
-/

namespace TraceAutomata

/-- What conditions are evaluated against. -/
structure GuardContext where
  store : Store
  /-- The root attribute of the pattern. -/
  root : Quark
  /-- The name of the scenario that receives the event. -/
  scenario : String
  event : Event

namespace GuardContext

def field (ctx : GuardContext) (name : String) : Except Fault Value :=
  match ctx.event.field? name with
  | some value => .ok value
  | none => .error (.missing (.eventField name))

/-- The value of a field as a name. -/
def fieldName (ctx : GuardContext) (name : String) : Except Fault String :=
  match (ctx.event.field? name).bind Value.name? with
  | some text => .ok text
  | none => .error (.missing (.eventField name))

/-- The ongoing value of the attribute to which names lead from the root of the pattern. -/
def query (ctx : GuardContext) (names : List String) : Except Fault Value :=
  Fault.ofStore do ctx.store.ongoing (← ctx.store.resolve ctx.root names)

end GuardContext

namespace AttributePath

mutual

/-- The names that a segment stands for. -/
def segmentNames (ctx : GuardContext) : PathSegment → Except Fault (List String)
  | .name name => .ok [name]
  | .field field => return [← ctx.fieldName field]
  | .query path => do
      match (← ctx.query (← names ctx path)).name? with
      | some name => return [name]
      | none => throw (.missing (.nullName (text path)))
  | .scenario => .ok (Layout.scenarioPath ctx.scenario)

/-- The names that the segments of a path stand for. -/
def names (ctx : GuardContext) : List PathSegment → Except Fault (List String)
  | [] => .ok []
  | segment :: rest => do
      let first ← segmentNames ctx segment
      return first ++ (← names ctx rest)

end

def resolve (ctx : GuardContext) (path : AttributePath) : Except Fault Quark := do
  let names ← names ctx path
  Fault.ofStore (ctx.store.resolve ctx.root names)

def query (ctx : GuardContext) (path : AttributePath) : Except Fault Value := do
  ctx.query (← names ctx path)

end AttributePath

namespace ValueSource

def resolve (ctx : GuardContext) : ValueSource → Except Fault Value
  | .literal value => .ok value
  | .field name => ctx.field name
  | .eventName => .ok (.string ctx.event.name)
  | .timestamp => .ok (.long ctx.event.nanos)
  | .scratch slot => ctx.query (Layout.scenarioPath ctx.scenario ++ Layout.slotPath slot)
  | .query path => AttributePath.query ctx path

end ValueSource

namespace CompareOp

/-- Compares two values. Null differs from every other value and has no place in an order. -/
def apply (op : CompareOp) (left right : Value) : Except Fault Bool :=
  if left.isNull || right.isNull then
    .ok <|
      match op with
      | .eq => left.sameAs right
      | .ne => !left.sameAs right
      | _ => false
  else
    match left.compare right with
    | some ordering => .ok (op.holds ordering)
    | none => .error (.incomparable left right)

end CompareOp

namespace TimeRange

def evaluate (ctx : GuardContext) (r : TimeRange) : Bool :=
  r.holds ctx.store.startTime ctx.store.endTime ctx.event.nanos

end TimeRange

namespace Elapsed

/-- The time at which the scenario entered the state, as the store records it. -/
def reference (ctx : GuardContext) (e : Elapsed) : Except Fault Int64 := do
  match ← ctx.query (Layout.scenarioPath ctx.scenario ++ Layout.statePath e.since) with
  | .null => throw (.missing (.stateStart e.since))
  | value =>
      match value.int64? with
      | some time => return time
      | none => throw (.notATime value)

/-- Compares the time since the state was entered with the duration. -/
def evaluate (ctx : GuardContext) (e : Elapsed) : Except Fault Bool := do
  let reference ← e.reference ctx
  let time := ctx.event.nanos
  if time < reference then
    throw (.timeOrdering reference time)
  return e.op.holds (time - reference) e.limit

end Elapsed

namespace Condition

mutual

/-- Whether the condition holds in a context. -/
def evaluate (ctx : GuardContext) : Condition → Except Fault Bool
  | .not inner => (evaluate ctx inner).map (! ·)
  | .and children => evaluateAll ctx children
  | .or children => evaluateAny ctx children
  | .compare left op right => do op.apply (← left.resolve ctx) (← right.resolve ctx)
  | .equal first second => do return (← first.resolve ctx).sameAs (← second.resolve ctx)
  | .timeRange range => .ok (range.evaluate ctx)
  | .elapsed e => e.evaluate ctx

/-- Whether all conditions hold; those after one that does not are not looked at. -/
def evaluateAll (ctx : GuardContext) : List Condition → Except Fault Bool
  | [] => .ok true
  | c :: rest => do if ← evaluate ctx c then evaluateAll ctx rest else return false

/-- Whether some condition holds; those after one that does are not looked at. -/
def evaluateAny (ctx : GuardContext) : List Condition → Except Fault Bool
  | [] => .ok false
  | c :: rest => do if ← evaluate ctx c then return true else evaluateAny ctx rest

end

end Condition

/-- A condition that cannot be evaluated counts as one that does not hold. -/
def accepted : Except Fault Bool → Bool
  | .ok holds => holds
  | .error _ => false

end TraceAutomata
