import TraceAutomata.Proofs.Definition.Compiled
import TraceAutomata.Proofs.Dict

namespace TraceAutomata

namespace DefinitionSet

/-- An fsm is found under the name, both by itself and by its place. -/
def KnowsFsm (d : DefinitionSet) (id : String) : Prop :=
  ∃ index f, d.fsmIndex? id = some index ∧ d.fsm? id = some f ∧ d.fsms[index]? = some f

def KnowsTest (d : DefinitionSet) (id : String) : Prop :=
  ∃ input, d.test id = .ok input

def KnowsAction (d : DefinitionSet) (id : String) : Prop :=
  ∃ ops, d.action id = .ok ops

/-- All names that definitions refer to are known. The input that always passes is no test. -/
structure Closed (d : DefinitionSet) : Prop where
  initial : ∀ id ∈ d.initial, d.KnowsFsm id
  preconditions : ∀ id ∈ d.preconditions, id ≠ TransitionInput.other → d.KnowsTest id
  fsm_initial : ∀ f ∈ d.fsms, (f.state? f.initial).isSome
  fsm_preconditions : ∀ f ∈ d.fsms, ∀ id ∈ f.preconditions, id ≠ TransitionInput.other →
    d.KnowsTest id
  target : ∀ f ∈ d.fsms, ∀ s ∈ f.states, ∀ t ∈ s.transitions, (f.state? t.target).isSome
  inputs : ∀ f ∈ d.fsms, ∀ s ∈ f.states, ∀ t ∈ s.transitions, ∀ id ∈ t.inputs,
    id ≠ TransitionInput.other → d.KnowsTest id
  actions : ∀ f ∈ d.fsms, ∀ s ∈ f.states, ∀ t ∈ s.transitions, ∀ id ∈ t.actionIds,
    d.KnowsAction id
  spawns : ∀ id ops fsms, d.action id = .ok ops → .spawn fsms ∈ ops → ∀ fsm ∈ fsms,
    d.KnowsFsm fsm

variable {d : DefinitionSet} {id : String}

theorem knowsFsm_of_mem (hnodup : (d.fsms.map (·.id)).Nodup) {f : FsmDefinition}
    (hf : f ∈ d.fsms) : d.KnowsFsm f.id := by
  obtain ⟨index, hindex⟩ := List.getElem?_of_mem hf
  exact ⟨index, f, fsmIndex?_of_getElem? hnodup hindex, fsm?_of_mem hnodup hf, hindex⟩

theorem knowsFsm_of_any (hnodup : (d.fsms.map (·.id)).Nodup)
    (h : (d.fsms.any fun f => f.id == id) = true) : d.KnowsFsm id := by
  obtain ⟨f, hf, rfl⟩ : ∃ f ∈ d.fsms, f.id = id := by simpa using h
  exact knowsFsm_of_mem hnodup hf

theorem knowsAction_iff : d.KnowsAction id ↔ d.actions.contains id = true := by
  simp only [KnowsAction, action_eq_ok_iff, Dict.contains, Option.isSome_iff_exists]

theorem knowsTest_of_contains (hid : id ≠ TransitionInput.other)
    (h : (id == TransitionInput.other || d.tests.contains id) = true) : d.KnowsTest id := by
  simpa [KnowsTest, test_eq_ok_iff, hid, Dict.contains, Option.isSome_iff_exists] using h

end DefinitionSet

namespace Operation

theorem check_spawn_eq_ok {action : String} {knownFsm : String → Bool} {fsms : List String}
    (h : check action knownFsm (.spawn fsms) = .ok ()) : ∀ fsm ∈ fsms, knownFsm fsm = true := by
  rw [check] at h
  split at h
  · cases h
  · split at h
    · cases h
    · next hnone => simpa using hnone

theorem check_change_eq_ok {action : String} {knownFsm : String → Bool} {path : AttributePath}
    {value : ValueSource} (h : check action knownFsm (.stateChange path value) = .ok ()) :
    path ≠ [] := by
  rintro rfl
  cases h

end Operation

theorem map_fst_of_mapM {α β ε : Type} {f : String → α → Except ε β}
    {entries : List (String × α)} {entries' : List (String × β)}
    (h : (entries.mapM fun t => do return (t.1, ← f t.1 t.2)) = .ok entries') :
    entries'.map Prod.fst = entries.map Prod.fst := by
  induction entries generalizing entries' with
  | nil =>
      obtain rfl : [] = entries' := Except.ok.inj h
      rfl
  | cons t rest ih =>
      rw [List.mapM_cons] at h
      simp only [bind_eq_ok_iff] at h
      obtain ⟨t', ⟨b, -, ht⟩, rest', hrest, heq⟩ := h
      obtain rfl := Except.ok.inj ht
      obtain rfl := Except.ok.inj heq
      rw [List.map_cons, List.map_cons, ih hrest]

namespace DefinitionDocument

theorem contains_compileTests {d : DefinitionDocument} {tests : Dict TransitionInput}
    (h : d.compileTests = .ok tests) (id : String) :
    tests.contains id = true ↔ d.tests.contains id = true := by
  rw [compileTests] at h
  simp only [bind_eq_ok_iff] at h
  obtain ⟨entries, hentries, heq⟩ := h
  obtain rfl := Except.ok.inj heq
  rw [Dict.contains_ofList, map_fst_of_mapM (f := TransitionInput.compile) hentries]
  simp only [List.mem_map, Prod.exists, exists_and_right, exists_eq_right, Dict.mem_entries_iff,
    Dict.contains, Option.isSome_iff_exists]

theorem Compiles.not_knowsTest_other {d : DefinitionDocument} {defs : DefinitionSet}
    (h : d.Compiles defs) : ¬ defs.KnowsTest TransitionInput.other := by
  rintro ⟨input, hinput⟩
  have hcontains : defs.tests.contains TransitionInput.other = true := by
    rw [Dict.contains, DefinitionSet.test_eq_ok_iff.mp hinput]
    rfl
  rw [contains_compileTests h.tests, h.tests_not_reserved] at hcontains
  cases hcontains

end DefinitionDocument

namespace DefinitionDocument.Compiles

variable {d : DefinitionDocument} {defs : DefinitionSet} (h : d.Compiles defs)

include h

theorem find?_actions (id : String) :
    defs.actions.find? id =
      if id = Operation.clearScratchId then some [.clearScratch]
      else if id = Operation.saveScratchId then some [.saveScratch]
      else d.actions.find? id := by
  simp [h.actions, reservedActions, Dict.find?_insert]

theorem knowsAction_actionIds {t : Transition}
    (hknown : ∀ id ∈ t.actions, defs.actions.contains id = true) :
    ∀ id ∈ t.actionIds, defs.KnowsAction id := by
  intro id hid
  rw [DefinitionSet.knowsAction_iff]
  simp only [Transition.actionIds, List.mem_append, List.mem_ite_nil_right,
    List.mem_singleton] at hid
  rcases hid with (⟨-, rfl⟩ | hid) | ⟨-, rfl⟩
  · simp [Dict.contains, h.find?_actions, Operation.saveScratchId, Operation.clearScratchId]
  · exact hknown id hid
  · simp [Dict.contains, h.find?_actions]

theorem check_of_action {id : String} {ops : List Operation} {op : Operation}
    (haction : defs.action id = .ok ops) (hop : op ∈ ops) :
    op.check id (fun fsm => defs.fsms.any fun f => f.id == fsm) = .ok () := by
  rw [DefinitionSet.action_eq_ok_iff, h.find?_actions] at haction
  split at haction
  · obtain rfl := Option.some.inj haction
    obtain rfl := List.mem_singleton.mp hop
    rfl
  · split at haction
    · obtain rfl := Option.some.inj haction
      obtain rfl := List.mem_singleton.mp hop
      rfl
    · exact h.operations _ ((Dict.mem_entries_iff d.actions id ops).mpr haction) _ hop

theorem knowsFsm_of_spawn {id : String} {ops : List Operation} {fsms : List String}
    (haction : defs.action id = .ok ops) (hop : .spawn fsms ∈ ops) :
    ∀ fsm ∈ fsms, defs.KnowsFsm fsm := fun fsm hfsm =>
  DefinitionSet.knowsFsm_of_any h.wellFormed.nodup_ids
    (Operation.check_spawn_eq_ok (h.check_of_action haction hop) fsm hfsm)

theorem path_ne_nil {id : String} {ops : List Operation} {path : AttributePath}
    {value : ValueSource} (haction : defs.action id = .ok ops)
    (hop : .stateChange path value ∈ ops) : path ≠ [] :=
  Operation.check_change_eq_ok (h.check_of_action haction hop)

theorem closed : defs.Closed := by
  have hnodup := h.wellFormed.nodup_ids
  exact
    { initial := fun id hid => DefinitionSet.knowsFsm_of_any hnodup (h.known_initial id hid)
      preconditions := fun id hid hne => by
        rw [DefinitionSet.preconditions, h.document] at hid
        exact DefinitionSet.knowsTest_of_contains hne (h.known_preconditions id hid)
      fsm_initial := fun f hf => (h.wellFormed.fsm f hf).state_initial
      fsm_preconditions := fun f hf id hid hne =>
        DefinitionSet.knowsTest_of_contains hne (h.known_fsm_preconditions f hf id hid)
      target := fun f hf => (h.wellFormed.fsm f hf).state_target
      inputs := fun f hf s hs t ht id hid hne =>
        DefinitionSet.knowsTest_of_contains hne (h.known_inputs f hf s hs t ht id hid)
      actions := fun f hf s hs t ht => h.knowsAction_actionIds (h.known_actions f hf s hs t ht)
      spawns := fun _ _ _ haction hop => h.knowsFsm_of_spawn haction hop }

end DefinitionDocument.Compiles

end TraceAutomata
