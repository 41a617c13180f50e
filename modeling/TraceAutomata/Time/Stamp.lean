import TraceAutomata.Json.Decode

/-!
Times of events. A timestamp is a number of seconds scaled by a power of ten; everything that
compares or records times works on whole nanoseconds.
-/

namespace TraceAutomata

/-- The time `value * 10 ^ scale` seconds. -/
structure Timestamp where
  value : Int64
  scale : Int8
deriving DecidableEq, Inhabited

namespace Timestamp

/-- The scale of whole nanoseconds. -/
def nanoScale : Int8 := -9

def ofNanos (nanos : Int64) : Timestamp :=
  ⟨nanos, nanoScale⟩

/-- The time in nanoseconds: what is finer is cut off, and what 64 bits do not hold becomes the
nearest time that they do. A scale of more than `10 ^ 18` nanoseconds takes every time that is
not negative to the latest one, and a scale below `10 ^ -18` takes every time to zero. -/
def nanos (t : Timestamp) : Int64 :=
  let exponent : Int := t.scale.toInt + 9
  if 18 < exponent then (if t.value < 0 then Int64.minValue else Int64.maxValue)
  else if 0 ≤ exponent then Int64.ofIntClamp (t.value.toInt * Number.tenPow exponent.toNat)
  else if -18 ≤ exponent then Int64.ofInt (t.value.toInt.tdiv (Number.tenPow (-exponent).toNat))
  else 0

/-- Timestamps are ordered by the nanoseconds that they stand for. -/
def compare (a b : Timestamp) : Ordering :=
  Ord.compare a.nanos b.nanos

/-- Two timestamps are the same time when their nanoseconds are. -/
def sameTime (a b : Timestamp) : Bool :=
  a.nanos == b.nanos

def toJson (t : Timestamp) : Json :=
  .object [("value", .int t.value.toInt), ("scale", .int t.scale.toInt)]

/-- A whole number is a time in nanoseconds; an object gives the value and perhaps the scale. -/
def ofJson? : Json → Option Timestamp
  | .int n => (Number.int64? n).map ofNanos
  | j => do
      return ⟨← j.required "value" Json.int64?, ← j.withDefault "scale" Json.int8? nanoScale⟩

end Timestamp

end TraceAutomata
