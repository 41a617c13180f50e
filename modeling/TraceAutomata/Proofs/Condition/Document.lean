import TraceAutomata.Condition.Document
import TraceAutomata.Proofs.Json.Relay

namespace TraceAutomata

variable {double : Double → Json}

theorem CompareOp.ofJson?_relay (op : CompareOp) : ofJson? (op.toJson.relay double) = some op := by
  cases op <;> rfl

theorem TimeUnit.ofJson?_relay (u : TimeUnit) : ofJson? (u.toJson.relay double) = some u := by
  cases u <;> rfl

theorem RangeMode.ofJson?_relay (m : RangeMode) : ofJson? (m.toJson.relay double) = some m := by
  cases m <;> rfl

theorem ElapsedOp.ofJson?_relay (op : ElapsedOp) : ofJson? (op.toJson.relay double) = some op := by
  cases op <;> rfl

theorem TimeRange.ofJson?_relay (r : TimeRange) : ofJson? (r.toJson.relay double) = some r := by
  rw [toJson, ofJson?]
  simp [lookup_cons_eq_ite, Json.int64?, Number.int64?_toInt, TimeUnit.ofJson?_relay,
    RangeMode.ofJson?_relay]

theorem Elapsed.ofJson?_relay (e : Elapsed) : ofJson? (e.toJson.relay double) = some e := by
  rw [toJson, ofJson?]
  simp [lookup_cons_eq_ite, Json.int64?, Json.string?, Number.int64?_toInt,
    TimeUnit.ofJson?_relay, ElapsedOp.ofJson?_relay]

namespace AttributePath

mutual

theorem segmentOfJson?_relay (segment : PathSegment) :
    segmentOfJson? ((segmentToJson segment).relay double) = some segment := by
  match segment with
  | .name _ | .field _ | .scenario => rfl
  | .query path =>
      rw [segmentToJson, Json.relay_tag, Json.relay_list, Json.tag]
      simp [segmentOfJson?, segmentsOfJson?_relay]

theorem segmentsOfJson?_relay (path : List PathSegment) :
    segmentsOfJson? ((segmentsToJson path).map (Json.relay double)) = some path := by
  match path with
  | [] => rfl
  | segment :: rest =>
      rw [segmentsToJson, List.map_cons, segmentsOfJson?, segmentOfJson?_relay,
        segmentsOfJson?_relay]
      rfl

end

theorem ofJson?_relay (path : AttributePath) :
    ofJson? ((toJson path).relay double) = some path := by
  rw [toJson, Json.relay_list, ofJson?, segmentsOfJson?_relay]

end AttributePath

theorem ValueSource.ofJson?_relay (h : ∀ x, double x = .double x) (source : ValueSource) :
    ofJson? (source.toJson.relay double) = some source := by
  cases source with
  | literal value =>
      rw [toJson, Json.relay_tag]
      change (Value.ofJson? _).map literal = _
      rw [Value.ofJson?_relay fun x _ => h x, Option.map_some]
  | field _ | eventName | timestamp | scratch _ => rfl
  | query path =>
      rw [toJson, Json.relay_tag]
      change (AttributePath.ofJson? _).map query = _
      rw [AttributePath.ofJson?_relay, Option.map_some]

namespace Condition

mutual

theorem ofJson?_relay (h : ∀ x, double x = .double x) (c : Condition) :
    ofJson? (c.toJson.relay double) = some c := by
  match c with
  | .not inner =>
      rw [toJson, Json.relay_tag, Json.tag]
      simp [ofJson?, ofJson?_relay h inner]
  | .and children =>
      rw [toJson, Json.relay_tag, Json.tag, Json.relay_list]
      simp [ofJson?, allOfJson?_relay h children]
  | .or children =>
      rw [toJson, Json.relay_tag, Json.tag, Json.relay_list]
      simp [ofJson?, allOfJson?_relay h children]
  | .compare left op right =>
      rw [toJson, Json.relay_tag, Json.tag]
      simp [ofJson?, compareOfJson?, lookup_cons_eq_ite, ValueSource.ofJson?_relay h,
        CompareOp.ofJson?_relay]
  | .equal first second =>
      rw [toJson, Json.relay_tag, Json.tag, Json.relay_list]
      simp [ofJson?, equalOfJson?, ValueSource.ofJson?_relay h]
  | .timeRange r =>
      rw [toJson, Json.relay_tag, Json.tag]
      simp [ofJson?, TimeRange.ofJson?_relay]
  | .elapsed e =>
      rw [toJson, Json.relay_tag, Json.tag]
      simp [ofJson?, Elapsed.ofJson?_relay]

theorem allOfJson?_relay (h : ∀ x, double x = .double x) (children : List Condition) :
    allOfJson? ((allToJson children).map (Json.relay double)) = some children := by
  match children with
  | [] => rfl
  | c :: rest =>
      rw [allToJson, List.map_cons, allOfJson?, ofJson?_relay h c, allOfJson?_relay h rest]
      rfl

end

end Condition

end TraceAutomata
