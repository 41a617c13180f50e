import TraceAutomata.Json.Decode

namespace TraceAutomata

inductive TimeUnit where
  | nano
  | micro
  | milli
  | second
  | minute
deriving DecidableEq

namespace TimeUnit

def nanosPerUnit : TimeUnit → Int
  | .nano => 1
  | .micro => 1000
  | .milli => 1000000
  | .second => 1000000000
  | .minute => 60000000000

/-- An amount in nanoseconds; what 64 bits do not hold becomes the nearest number that they
do. -/
def toNanos (u : TimeUnit) (amount : Int64) : Int64 :=
  Int64.ofIntClamp (amount.toInt * u.nanosPerUnit)

def symbol : TimeUnit → String
  | .nano => "ns"
  | .micro => "us"
  | .milli => "ms"
  | .second => "s"
  | .minute => "min"

def spellings : List (String × TimeUnit) :=
  [("ns", .nano), ("nanoseconds", .nano), ("us", .micro), ("\u00b5s", .micro),
    ("microseconds", .micro), ("ms", .milli), ("milliseconds", .milli), ("s", .second),
    ("sec", .second), ("seconds", .second), ("min", .minute), ("minutes", .minute)]

def toJson (u : TimeUnit) : Json :=
  .str u.symbol

def ofJson? : Json → Option TimeUnit :=
  Json.oneOf? spellings

end TimeUnit

/-- Whether events must lie in a range or outside of it. -/
inductive RangeMode where
  | inside
  | outside
deriving DecidableEq

namespace RangeMode

def toJson : RangeMode → Json
  | .inside => .str "in"
  | .outside => .str "out"

def ofJson? : Json → Option RangeMode :=
  Json.oneOf? [("in", .inside), ("out", .outside)]

end RangeMode

/-- A range of absolute time between two bounds, given in either order. -/
structure TimeRange where
  start : Int64
  stop : Int64
  unit : TimeUnit := .nano
  mode : RangeMode := .inside
deriving DecidableEq

namespace TimeRange

/-- The range in nanoseconds, its bounds in order, cut down to the times from `first` to
`last`. -/
def window (r : TimeRange) (first last : Int64) : Int64 × Int64 :=
  let a := r.unit.toNanos r.start
  let b := r.unit.toNanos r.stop
  (max (min a b) first, min (max a b) last)

/-- Whether a time satisfies the condition, when observed times reach from `first` to
`last`. -/
def holds (r : TimeRange) (first last time : Int64) : Bool :=
  let (low, high) := r.window first last
  let inside := decide (low ≤ time) && decide (time ≤ high)
  match r.mode with
  | .inside => inside
  | .outside => !inside

def toJson (r : TimeRange) : Json :=
  .object [("begin", .int r.start.toInt), ("end", .int r.stop.toInt), ("unit", r.unit.toJson),
    ("mode", r.mode.toJson)]

def ofJson? (j : Json) : Option TimeRange := do
  return ⟨← j.required "begin" Json.int64?, ← j.required "end" Json.int64?,
    ← j.withDefault "unit" TimeUnit.ofJson? .nano,
    ← j.withDefault "mode" RangeMode.ofJson? .inside⟩

end TimeRange

/-- How the time that has passed compares with a duration. -/
inductive ElapsedOp where
  | less
  | equal
  | more
deriving DecidableEq

namespace ElapsedOp

def holds : ElapsedOp → Int64 → Int64 → Bool
  | .less, elapsed, limit => elapsed < limit
  | .equal, elapsed, limit => elapsed == limit
  | .more, elapsed, limit => limit < elapsed

def toJson : ElapsedOp → Json
  | .less => .str "less"
  | .equal => .str "equal"
  | .more => .str "more"

def ofJson? : Json → Option ElapsedOp :=
  Json.oneOf? [("less", .less), ("equal", .equal), ("more", .more)]

end ElapsedOp

/-- A comparison of the time since a scenario entered a state with a duration. -/
structure Elapsed where
  since : String
  op : ElapsedOp
  amount : Int64
  unit : TimeUnit := .nano
deriving DecidableEq

namespace Elapsed

def limit (e : Elapsed) : Int64 :=
  e.unit.toNanos e.amount

def toJson (e : Elapsed) : Json :=
  .object [("since", .str e.since), ("op", e.op.toJson), ("value", .int e.amount.toInt),
    ("unit", e.unit.toJson)]

def ofJson? (j : Json) : Option Elapsed := do
  return ⟨← j.required "since" Json.string?, ← j.required "op" ElapsedOp.ofJson?,
    ← j.required "value" Json.int64?, ← j.withDefault "unit" TimeUnit.ofJson? .nano⟩

end Elapsed

end TraceAutomata
