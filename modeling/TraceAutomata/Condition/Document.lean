import TraceAutomata.Condition.Basic

namespace TraceAutomata

namespace CompareOp

def toJson : CompareOp → Json
  | .eq => .str "eq"
  | .ne => .str "ne"
  | .ge => .str "ge"
  | .gt => .str "gt"
  | .le => .str "le"
  | .lt => .str "lt"

def ofJson? : Json → Option CompareOp :=
  Json.oneOf?
    [("eq", .eq), ("ne", .ne), ("ge", .ge), ("gt", .gt), ("le", .le), ("lt", .lt)]

end CompareOp

namespace AttributePath

mutual

def segmentToJson : PathSegment → Json
  | .name name => .tag "name" (.str name)
  | .field field => .tag "field" (.str field)
  | .query path => .tag "query" (.list (segmentsToJson path))
  | .scenario => .str "scenario"

def segmentsToJson : List PathSegment → List Json
  | [] => []
  | segment :: rest => segmentToJson segment :: segmentsToJson rest

end

def toJson (path : AttributePath) : Json :=
  .list (segmentsToJson path)

mutual

def segmentOfJson? : Json → Option PathSegment
  | .str tag => if tag = "scenario" then some .scenario else none
  | .object [(tag, content)] =>
      if tag = "query" then
        match content with
        | .list items => (segmentsOfJson? items).map .query
        | _ => none
      else if tag = "name" then content.string?.map .name
      else if tag = "field" then content.string?.map .field
      else if tag = "scenario" then
        match content with
        | .null => some .scenario
        | _ => none
      else none
  | _ => none

def segmentsOfJson? : List Json → Option (List PathSegment)
  | [] => some []
  | j :: rest => do return (← segmentOfJson? j) :: (← segmentsOfJson? rest)

end

def ofJson? : Json → Option AttributePath
  | .list items => segmentsOfJson? items
  | _ => none

end AttributePath

namespace ValueSource

def toJson : ValueSource → Json
  | .literal value => .tag "literal" value.toJson
  | .field f => .tag "field" (.str f)
  | .eventName => .str "event_name"
  | .timestamp => .str "timestamp"
  | .scratch s => .tag "scratch" (.str s)
  | .query path => .tag "query" (AttributePath.toJson path)

def ofJson? (j : Json) : Option ValueSource :=
  match j.tagged? with
  | some ("literal", content) => (Value.ofJson? content).map .literal
  | some ("field", content) => content.string?.map .field
  | some ("event_name", .null) => some .eventName
  | some ("timestamp", .null) => some .timestamp
  | some ("scratch", content) => content.string?.map .scratch
  | some ("query", content) => (AttributePath.ofJson? content).map .query
  | _ => none

end ValueSource

namespace Condition

mutual

def toJson : Condition → Json
  | .not inner => .tag "not" (toJson inner)
  | .and children => .tag "and" (.list (allToJson children))
  | .or children => .tag "or" (.list (allToJson children))
  | .compare left op right =>
      .tag "compare" (.object [("left", left.toJson), ("op", op.toJson), ("right", right.toJson)])
  | .equal first second => .tag "equal" (.list [first.toJson, second.toJson])
  | .timeRange r => .tag "time_range" r.toJson
  | .elapsed e => .tag "elapsed" e.toJson

def allToJson : List Condition → List Json
  | [] => []
  | c :: rest => toJson c :: allToJson rest

end

def compareOfJson? (j : Json) : Option Condition := do
  return .compare (← j.required "left" ValueSource.ofJson?)
    (← j.withDefault "op" CompareOp.ofJson? .eq) (← j.required "right" ValueSource.ofJson?)

def equalOfJson? : Json → Option Condition
  | .list [first, second] => do
      return .equal (← ValueSource.ofJson? first) (← ValueSource.ofJson? second)
  | _ => none

mutual

def ofJson? : Json → Option Condition
  | .object [(tag, content)] =>
      if tag = "not" then (ofJson? content).map .not
      else if tag = "and" then
        match content with
        | .list items => (allOfJson? items).map .and
        | _ => none
      else if tag = "or" then
        match content with
        | .list items => (allOfJson? items).map .or
        | _ => none
      else if tag = "compare" then compareOfJson? content
      else if tag = "equal" then equalOfJson? content
      else if tag = "time_range" then (TimeRange.ofJson? content).map .timeRange
      else if tag = "elapsed" then (Elapsed.ofJson? content).map .elapsed
      else none
  | _ => none

def allOfJson? : List Json → Option (List Condition)
  | [] => some []
  | j :: rest => do return (← ofJson? j) :: (← allOfJson? rest)

end

end Condition

end TraceAutomata
