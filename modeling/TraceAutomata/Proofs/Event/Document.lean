import TraceAutomata.Event
import TraceAutomata.Proofs.Store.Saved
import TraceAutomata.Scenario.History

namespace TraceAutomata

open Json (Legible ReaderState finiteOrNull)

variable {double : Double → Json}

namespace Json

section Optional

variable {α : Type} {name : String} {encode : α → Json} {value : Option α}

theorem names_memberOfOption :
    ((memberOfOption name encode value).map Prod.fst).Sublist [name] := by
  cases value with
  | none => exact List.nil_sublist _
  | some a => exact List.Sublist.refl _

theorem legible_memberOfOption {height : Nat} (h : ∀ a, Legible height (encode a)) :
    ∀ m ∈ memberOfOption name encode value, Legible height m.2 := by
  cases value with
  | none => exact List.forall_mem_nil _
  | some a => exact List.forall_mem_singleton.mpr (h a)

end Optional

/-- A value is found again in its document: in the text on one line, in the text that is laid out over
several lines, and in the document itself with its members in the order of their names. -/
structure Carries {α : Type} (decode : Json → Option α) (j : Json) (a : α) : Prop where
  compact : (ofText? j.compact).bind decode = some a
  pretty : (ofText? j.pretty).bind decode = some a
  sorted : decode j.sortMembers = some a

end Json

namespace Timestamp

theorem legible_toJson (t : Timestamp) (height : Nat) : Legible (height + 1) t.toJson := by
  have hlow := t.scale.le_toInt
  have hhigh := t.scale.toInt_lt
  refine .object (by simp) ?_
  simp only [List.forall_mem_cons]
  exact ⟨Json.legible_int64 _ _, .int _ (by omega) (by omega), nofun⟩

theorem ofJson?_relay (t : Timestamp) : ofJson? (t.toJson.relay double) = some t := by
  have hvalue : (t.toJson.relay double).required "value" Json.int64? = some t.value :=
    Json.required_relay_int64 _ _ rfl
  have hscale : (t.toJson.relay double).withDefault "scale" Json.int8? nanoScale =
      some t.scale := by
    rw [toJson, Json.withDefault_relay]
    exact Number.int8?_toInt t.scale
  change (do
    return ⟨← (t.toJson.relay double).required "value" Json.int64?,
      ← (t.toJson.relay double).withDefault "scale" Json.int8? nanoScale⟩) = some t
  rw [hvalue, hscale]
  rfl

end Timestamp

namespace Value

/-- The number that the value is, if it is one, is written as it is. -/
def Passes (double : Double → Json) (v : Value) : Prop :=
  ∀ x, v = .double x → double x = .double x

theorem passes_finiteOrNull {v : Value} (h : v.isFinite = true) : v.Passes finiteOrNull := by
  rintro x rfl
  exact if_pos h

theorem passes_double (v : Value) : v.Passes .double :=
  fun _ _ => rfl

theorem legible_ofDict {d : Dict Value} (h : ∀ v ∈ d.values, v.ReadsBack) (height : Nat) :
    Legible (height + 2) (.ofDict toJson d) :=
  Json.legible_ofDict fun v hv => legible_toJson (h v hv) height

theorem dictOf?_relay {d : Dict Value} (h : ∀ v ∈ d.values, v.Passes double) :
    Json.dictOf? ofJson? ((Json.ofDict toJson d).relay double) = some d := by
  rw [Json.relay_ofDict]
  exact Json.dictOf?_ofDict_of_mem fun v hv => ofJson?_relay (h v hv)

end Value

/-- A document is passed on with all it says if its values are: those in it that are numbers are finite,
and their texts are read as the numbers themselves. -/
theorem Json.carries_of_relay {α : Type} {decode : Json → Option α} {j : Json} {a : α}
    {values : List Value} (hfinite : ∀ v ∈ values, v.isFinite = true)
    (hlegible : Legible ReaderState.depthLimit j)
    (hrelay : ∀ double, (∀ v ∈ values, v.Passes double) → decode (j.relay double) = some a) :
    Carries decode j a := by
  have htext : decode (j.relay finiteOrNull) = some a :=
    hrelay _ fun v hv => Value.passes_finiteOrNull (hfinite v hv)
  constructor
  · rw [ofText?_compact hlegible, Option.bind_some, htext]
  · rw [ofText?_pretty hlegible, Option.bind_some, htext]
  · rw [← relay_double]
    exact hrelay _ fun v _ => v.passes_double

namespace Event

variable {e : Event}

theorem legible_toJson (h : ∀ v ∈ e.fields.values, v.ReadsBack) (height : Nat) :
    Legible (height + 3) e.toJson := by
  refine .object ?_ ?_
  · have hnames : List.Nodup ["ts", "name", "fields", "end"] := by decide
    rw [List.map_append]
    exact hnames.sublist (.append (.refl _) Json.names_memberOfOption)
  · simp only [List.forall_mem_append, List.forall_mem_cons]
    exact ⟨⟨e.timestamp.legible_toJson _, .str _ _, Value.legible_ofDict h _, nofun⟩,
      Json.legible_memberOfOption fun t => t.legible_toJson _⟩

theorem ofJson?_relay (h : ∀ v ∈ e.fields.values, v.Passes double) :
    ofJson? (e.toJson.relay double) = some e := by
  have htime : (e.toJson.relay double).required "ts" Timestamp.ofJson? = some e.timestamp :=
    (Json.required_relay_of_lookup _ _ _ rfl).trans e.timestamp.ofJson?_relay
  have hname : (e.toJson.relay double).required "name" Json.string? = some e.name :=
    Json.required_relay_str _ _ rfl
  have hfields : (e.toJson.relay double).withDefault "fields" (Json.dictOf? Value.ofJson?) ∅ =
      some e.fields := by
    rw [toJson, Json.withDefault_relay]
    exact Value.dictOf?_relay h
  have hstop : (e.toJson.relay double).optional "end" Timestamp.ofJson? = some e.stop :=
    Json.optional_relay_of_lookup _ _ _ Timestamp.toJson
      (by simp [lookup_cons_eq_ite, Json.lookup_memberOfOption])
      (fun t => t.ofJson?_relay) rfl
  rw [ofJson?, htime, hname, hfields, hstop]
  rfl

end Event

namespace SyntheticEvent

variable {e : SyntheticEvent}

theorem legible_toJson (h : ∀ v ∈ e.fields.values, v.ReadsBack) (height : Nat) :
    Legible (height + 3) e.toJson := by
  refine .object (by simp) ?_
  simp only [List.forall_mem_cons]
  exact ⟨.str _ _, e.start.legible_toJson _, e.stop.legible_toJson _, Value.legible_ofDict h _,
    nofun⟩

theorem ofJson?_relay (h : ∀ v ∈ e.fields.values, v.Passes double) :
    ofJson? (e.toJson.relay double) = some e := by
  have hname : (e.toJson.relay double).required "name" Json.string? = some e.name :=
    Json.required_relay_str _ _ rfl
  have hstart : (e.toJson.relay double).required "start" Timestamp.ofJson? = some e.start :=
    (Json.required_relay_of_lookup _ _ _ rfl).trans e.start.ofJson?_relay
  have hstop : (e.toJson.relay double).required "end" Timestamp.ofJson? = some e.stop :=
    (Json.required_relay_of_lookup _ _ _ rfl).trans e.stop.ofJson?_relay
  have hfields : (e.toJson.relay double).required "fields" (Json.dictOf? Value.ofJson?) =
      some e.fields :=
    (Json.required_relay_of_lookup _ _ _ rfl).trans (Value.dictOf?_relay h)
  rw [ofJson?, hname, hstart, hstop, hfields]
  rfl

end SyntheticEvent

namespace ScenarioRecord

variable {r : ScenarioRecord}

theorem legible_toJson (h : ∀ v ∈ r.scratch.values, v.ReadsBack) (height : Nat) :
    Legible (height + 3) r.toJson := by
  have hscratch : ∀ m ∈ (if r.scratch.isEmpty then [] else
      [("scratch", Json.ofDict Value.toJson r.scratch)]), Legible (height + 2) m.2 := by
    split
    · exact List.forall_mem_nil _
    · exact List.forall_mem_singleton.mpr (Value.legible_ofDict h _)
  refine .object ?_ ?_
  · have hnames : List.Nodup ["name", "fsm", "parent", "state", "status", "start_time", "end_time",
        "scratch"] := by decide
    have hlast : ((if r.scratch.isEmpty then [] else
        [("scratch", Json.ofDict Value.toJson r.scratch)]).map Prod.fst).Sublist ["scratch"] := by
      split
      · exact List.nil_sublist _
      · exact List.Sublist.refl _
    simp only [List.map_append]
    exact hnames.sublist <| ((((List.Sublist.refl _).append Json.names_memberOfOption).append
      (.refl _)).append Json.names_memberOfOption |>.append Json.names_memberOfOption).append hlast
  · simp only [List.forall_mem_append, List.forall_mem_cons]
    exact ⟨⟨⟨⟨⟨⟨.str _ _, .str _ _, nofun⟩, Json.legible_memberOfOption fun s => .str _ s⟩,
      .str _ _, .str _ _, nofun⟩, Json.legible_memberOfOption fun t => Json.legible_int64 t _⟩,
      Json.legible_memberOfOption fun t => Json.legible_int64 t _⟩, hscratch⟩

theorem ofJson?_relay (h : ∀ v ∈ r.scratch.values, v.Passes double) :
    ofJson? (r.toJson.relay double) = some r := by
  have hname : (r.toJson.relay double).required "name" Json.string? = some r.name :=
    Json.required_relay_str _ _ rfl
  have hfsm : (r.toJson.relay double).required "fsm" Json.string? = some r.fsm :=
    Json.required_relay_str _ _ rfl
  have hparent : (r.toJson.relay double).optional "parent" Json.string? = some r.parent :=
    Json.optional_relay_of_lookup _ _ _ .str
      (by simp [List.lookup_append, lookup_cons_eq_ite, Json.lookup_memberOfOption,
        Json.lookup_unless]) (fun _ => rfl) rfl
  have hstate : (r.toJson.relay double).required "state" Json.string? = some r.state :=
    Json.required_relay_str _ _ (by simp [List.lookup_append, lookup_cons_eq_ite,
      Json.lookup_memberOfOption])
  have hstatus : (r.toJson.relay double).required "status" Json.string? = some r.status :=
    Json.required_relay_str _ _ (by simp [List.lookup_append, lookup_cons_eq_ite,
      Json.lookup_memberOfOption])
  have hstart : (r.toJson.relay double).optional "start_time" Json.int64? = some r.startTime :=
    Json.optional_relay_int64 _ _ (by simp [List.lookup_append, lookup_cons_eq_ite,
      Json.lookup_memberOfOption, Json.lookup_unless])
  have hend : (r.toJson.relay double).optional "end_time" Json.int64? = some r.endTime :=
    Json.optional_relay_int64 _ _ (by simp [List.lookup_append, lookup_cons_eq_ite,
      Json.lookup_memberOfOption, Json.lookup_unless])
  have hscratch : (r.toJson.relay double).withDefault "scratch" (Json.dictOf? Value.ofJson?) ∅ =
      some r.scratch :=
    Json.withDefault_relay_of_lookup _ _ _ (r.scratch.isEmpty = true)
      (.ofDict Value.toJson r.scratch)
      (by simp [List.lookup_append, lookup_cons_eq_ite, Json.lookup_memberOfOption,
        Json.lookup_unless]) Dict.eq_empty (Value.dictOf?_relay h)
  rw [ofJson?, hname, hfsm, hparent, hstate, hstatus, hstart, hend, hscratch]
  rfl

end ScenarioRecord

/-- Events, synthetic events and the records of scenarios are found again in their documents, with the
kinds of all values, with the optional parts that they have and no others, and with their times as they
are spelled. A synthetic event that is received again keeps what it says. -/
theorem documents_carry :
    (∀ e : Event, (∀ v ∈ e.fields.values, v.isFinite = true) →
      (∀ v ∈ e.fields.values, v.ReadsBack) → Json.Carries Event.ofJson? e.toJson e) ∧
    (∀ e : SyntheticEvent, (∀ v ∈ e.fields.values, v.isFinite = true) →
      (∀ v ∈ e.fields.values, v.ReadsBack) →
        Json.Carries SyntheticEvent.ofJson? e.toJson e ∧
        ∃ received, Json.Carries Event.ofJson? e.toEvent.toJson received ∧
          received.timestamp = e.start ∧ received.stop = some e.stop ∧ received.name = e.name ∧
          received.fields = e.fields) ∧
    ∀ r : ScenarioRecord, (∀ v ∈ r.scratch.values, v.isFinite = true) →
      (∀ v ∈ r.scratch.values, v.ReadsBack) → Json.Carries ScenarioRecord.ofJson? r.toJson r := by
  have hevent : ∀ e : Event, (∀ v ∈ e.fields.values, v.isFinite = true) →
      (∀ v ∈ e.fields.values, v.ReadsBack) → Json.Carries Event.ofJson? e.toJson e :=
    fun e hfinite hnumbers =>
      Json.carries_of_relay hfinite (Event.legible_toJson hnumbers 124) fun _ => Event.ofJson?_relay
  refine ⟨hevent, fun e hfinite hnumbers => ⟨?_, ?_⟩, fun r hfinite hnumbers => ?_⟩
  · exact Json.carries_of_relay hfinite (SyntheticEvent.legible_toJson hnumbers 124) fun _ =>
      SyntheticEvent.ofJson?_relay
  · exact ⟨e.toEvent, hevent e.toEvent hfinite hnumbers, rfl, rfl, rfl, rfl⟩
  · exact Json.carries_of_relay hfinite (ScenarioRecord.legible_toJson hnumbers 124) fun _ =>
      ScenarioRecord.ofJson?_relay

/-- Values of all kinds, among them a negative zero and five eighths, and times at scales other than that
of nanoseconds. -/
theorem documents_carry_sample :
    let values : Dict Value := .ofList [("a", .null), ("b", .string "say \"é\"\n"), ("c", .int (-5)),
      ("d", .long 9000000000), ("e", .double (.ofMagnitude true 0)),
      ("f", .double (.ofMagnitude false 0x3FE4000000000000))]
    let e : Event := ⟨⟨17, -3⟩, "open", values, none⟩
    let synthetic : SyntheticEvent := ⟨"seg_open", ⟨5, 0⟩, ⟨-6, 12⟩, values⟩
    let r : ScenarioRecord := ⟨"f#1", "f", some "g", "S1", "in_progress", some 7, none, values⟩
    (∀ v ∈ values.values, v.isFinite = true) ∧ (∀ v ∈ values.values, v.ReadsBack) ∧
      Json.Carries Event.ofJson? e.toJson e ∧
      Json.Carries SyntheticEvent.ofJson? synthetic.toJson synthetic ∧
      Json.Carries ScenarioRecord.ofJson? r.toJson r := by
  intro values e synthetic r
  have hfinite : ∀ v ∈ values.values, v.isFinite = true := by decide +kernel
  have hnumbers : ∀ v ∈ values.values, v.ReadsBack := by decide +kernel
  obtain ⟨hevents, hsynthetic, hrecords⟩ := documents_carry
  exact ⟨hfinite, hnumbers, hevents e hfinite hnumbers, (hsynthetic synthetic hfinite hnumbers).1,
    hrecords r hfinite hnumbers⟩

end TraceAutomata
