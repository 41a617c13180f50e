import TraceAutomata.Proofs.Condition.Document
import TraceAutomata.Proofs.Definition.Compiled

namespace TraceAutomata

open Json

variable {double : Double → Json}

theorem EventTest.ofJson?_relay (h : ∀ x, double x = .double x) (t : EventTest) :
    ofJson? (t.toJson.relay double) = some t := by
  have hcondition : (t.toJson.relay double).optional "condition" Condition.ofJson? =
      some t.condition :=
    optional_relay_of_lookup _ _ _ Condition.toJson
      (by simp [List.lookup_append, lookup_cons_eq_ite, lookup_memberOfOption])
      (Condition.ofJson?_relay h) rfl
  have hwhen : (t.toJson.relay double).optional "when" string? = some t.whenText :=
    optional_relay_of_lookup _ _ _ .str
      (by simp [List.lookup_append, lookup_cons_eq_ite, lookup_memberOfOption])
      (fun _ => rfl) rfl
  rw [ofJson?, hcondition, hwhen, toJson, required_relay]
  simp [names?_names]

theorem TransitionInput.ofJson?_relay (h : ∀ x, double x = .double x) (input : TransitionInput) :
    ofJson? (input.toJson.relay double) = some input := by
  cases input with
  | event test =>
      change (EventTest.ofJson? (test.toJson.relay double)).map event = _
      rw [EventTest.ofJson?_relay h, Option.map_some]
  | time condition =>
      change (Condition.ofJson? (condition.toJson.relay double)).map time = _
      rw [Condition.ofJson?_relay h, Option.map_some]

theorem SyntheticName.ofJson?_relay (h : ∀ x, double x = .double x) (name : SyntheticName) :
    ofJson? (name.toJson.relay double) = some name := by
  cases name with
  | literal text => rfl
  | value source =>
      change (ValueSource.ofJson? (source.toJson.relay double)).map value = _
      rw [ValueSource.ofJson?_relay h, Option.map_some]

theorem Operation.ofJson?_relay (h : ∀ x, double x = .double x) (op : Operation) :
    ofJson? (op.toJson.relay double) = some op := by
  cases op with
  | saveScratch | clearScratch => rfl
  | stateChange path value =>
      rw [toJson, relay_tag, ofJson?]
      simp [tagged?, tag, lookup_cons_eq_ite, AttributePath.ofJson?_relay,
        ValueSource.ofJson?_relay h]
  | synthetic name fields =>
      let content := Json.object (("name", name.toJson) ::
        if fields.isEmpty then [] else [("fields", .ofDict ValueSource.toJson fields)])
      have hname : (content.relay double).required "name" SyntheticName.ofJson? = some name := by
        rw [required_relay, lookup_cons_eq_ite, if_pos rfl, Option.bind_some,
          SyntheticName.ofJson?_relay h]
      have hfields : (content.relay double).withDefault "fields" (dictOf? ValueSource.ofJson?) ∅ =
          some fields :=
        withDefault_relay_of_lookup _ _ _ (fields.isEmpty = true)
          (.ofDict ValueSource.toJson fields) (by simp [lookup_cons_eq_ite, lookup_unless])
          Dict.eq_empty
          (by rw [relay_ofDict, dictOf?_ofDict (ValueSource.ofJson?_relay h)])
      change (do
        return Operation.synthetic
          (← (content.relay double).required "name" SyntheticName.ofJson?)
          (← (content.relay double).withDefault "fields" (dictOf? ValueSource.ofJson?) ∅)) = _
      rw [hname, hfields]
      rfl
  | spawn fsms =>
      rw [toJson, relay_tag, ofJson?]
      simp [tagged?, tag, names?_names]

theorem Transition.ofJson?_relay (t : Transition) : ofJson? (t.toJson.relay double) = some t := by
  have hactions : (t.toJson.relay double).withDefault "actions" (listOf? string?) [] =
      some t.actions :=
    withDefault_relay_of_lookup _ _ _ (t.actions = []) (.names t.actions)
      (by simp [List.lookup_append, lookup_cons_eq_ite, lookup_unless]) (fun hnil => hnil)
      (by rw [relay_names, listOf?_names])
  rw [ofJson?, hactions, toJson]
  simp [List.lookup_append, lookup_cons_eq_ite, lookup_unless, names?_names, string?, bool?]

theorem StateDefinition.ofJson?_relay (s : StateDefinition) :
    ofJson? (s.toJson.relay double) = some s := by
  rw [toJson, ofJson?]
  simp [lookup_cons_eq_ite, string?, bool?, listOf?_map, Transition.ofJson?_relay]

theorem FsmDefinition.concurrentOfJson?_relay (f : FsmDefinition) :
    concurrentOfJson? (f.toJson.relay double) = some f.concurrent := by
  rw [concurrentOfJson?, toJson, member?_relay, member?_relay]
  simp [List.lookup_append, lookup_cons_eq_ite, lookup_unless, lookup_memberOfOption, bool?]

theorem FsmDefinition.ofJson?_relay (f : FsmDefinition) :
    ofJson? (f.toJson.relay double) = some f := by
  have hfinal : (f.toJson.relay double).optional "final" string? = some f.finalState :=
    optional_relay_of_lookup _ _ _ .str
      (by simp [List.lookup_append, lookup_cons_eq_ite, lookup_unless, lookup_memberOfOption])
      (fun _ => rfl) rfl
  have habandon : (f.toJson.relay double).optional "abandon" string? = some f.abandonState :=
    optional_relay_of_lookup _ _ _ .str
      (by simp [List.lookup_append, lookup_cons_eq_ite, lookup_unless, lookup_memberOfOption])
      (fun _ => rfl) rfl
  have hpreconditions : (f.toJson.relay double).withDefault "preconditions" (listOf? string?) [] =
      some f.preconditions :=
    withDefault_relay_of_lookup _ _ _ (f.preconditions = []) (.names f.preconditions)
      (by simp [List.lookup_append, lookup_cons_eq_ite, lookup_unless, lookup_memberOfOption])
      (fun hnil => hnil) (by rw [relay_names, listOf?_names])
  rw [ofJson?, hfinal, habandon, hpreconditions, concurrentOfJson?_relay, toJson]
  simp [List.lookup_append, lookup_cons_eq_ite, lookup_unless, lookup_memberOfOption, string?,
    listOf?_map, StateDefinition.ofJson?_relay]

namespace DefinitionDocument

theorem ofJson?_relay (h : ∀ x, double x = .double x) (d : DefinitionDocument) :
    ofJson? (d.toJson.relay double) = some d := by
  have hscratch : dictOf? string? (.ofDict (fun s => .str s) d.scratchFields) =
      some d.scratchFields :=
    dictOf?_ofDict fun _ => rfl
  rw [toJson, ofJson?]
  simp [lookup_cons_eq_ite, string?, names?_names, relay_ofDict, hscratch, dictOf?_ofDict,
    listOf?_map, TransitionInput.ofJson?_relay h, Operation.ofJson?_relay h,
    FsmDefinition.ofJson?_relay]

/-- Whatever document an accepted definition set was read from, the one that is written for it is
accepted and gives the same set again, with the same document in it: the same checksum, and the same
document is written once more. -/
theorem load_toJson {j : Json} {set : DefinitionSet} (h : load j = .ok set) :
    load set.document.toJson.sortMembers = .ok set := by
  rw [load] at h
  cases hdocument : ofJson? j with
  | none =>
      rw [hdocument] at h
      cases h
  | some d =>
      rw [hdocument] at h
      obtain rfl := ((compile_eq_ok_iff d set).mp h).document
      rw [load, ← relay_double, ofJson?_relay fun _ => rfl]
      exact h

/-- A document that spells lists as one text, units and alternatives by their other names, and
members with the values that they have anyway. -/
def spelled : Json :=
  .object
    [("id", .str "pattern"), ("initial", .str "pair"), ("preconditions", .str "begins"),
      ("tests", .object
        [("begins", .tag "event" (.object [("names", .str "A*"), ("condition", .null)])),
          ("ends", .tag "event" (.object
            [("names", .list [.str "B"]), ("condition", .tag "compare" (.object
              [("right", .tag "literal" (.tag "double" (.int 2))), ("op", .tag "ge" .null),
                ("left", .tag "event_name" .null)]))])),
          ("late", .tag "time" (.tag "elapsed" (.object
            [("since", .str "S0"), ("op", .tag "more" .null), ("value", .int 5),
              ("unit", .str "seconds")])))]),
      ("fsms", .list
        [.object
          [("id", .str "pair"), ("final", .str "S1"), ("abandon", .null), ("initial", .str "S0"),
            ("allow_concurrent_instances", .bool true),
            ("states", .list [.object
              [("name", .str "S0"), ("automatic", .bool false),
                ("transitions", .list [.object
                  [("inputs", .str "ends"), ("target", .str "S1"), ("actions", .list [])]])]])]])]

theorem load_toJson_spelled :
    ∃ set, load spelled = .ok set ∧ load set.document.toJson.sortMembers = .ok set := by
  have hcheck : (load spelled).toOption.isSome = true := by decide +kernel
  cases hload : load spelled with
  | ok set => exact ⟨set, rfl, load_toJson hload⟩
  | error fault =>
      rw [hload] at hcheck
      cases hcheck

end DefinitionDocument

end TraceAutomata
