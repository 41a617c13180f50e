import TraceAutomata.Proofs.Definition.Closed
import TraceAutomata.Proofs.Definition.Forced
import TraceAutomata.Proofs.Text

/-!
The documents that compilation accepts. What makes a document well formed is said here of what
stands in it, without the order of the checks and without the states, tests and actions that
compilation adds, and exactly such documents are accepted.
-/

namespace TraceAutomata

namespace Condition

/-- A condition is part of another one, at any depth. -/
inductive Part (c : Condition) : Condition → Prop
  | self : Part c c
  | not {inner : Condition} (h : Part c inner) : Part c (.not inner)
  | and {child : Condition} {children : List Condition} (hchild : child ∈ children)
      (h : Part c child) : Part c (.and children)
  | or {child : Condition} {children : List Condition} (hchild : child ∈ children)
      (h : Part c child) : Part c (.or children)

mutual

theorem part_of_mem {c : Condition} : ∀ d : Condition, c ∈ d.subconditions → Part c d
  | .not inner, h => by
      rcases List.mem_cons.mp h with rfl | h
      · exact .self
      · exact .not (part_of_mem inner h)
  | .and children, h => by
      rcases List.mem_cons.mp h with rfl | h
      · exact .self
      · obtain ⟨child, hchild, hpart⟩ := part_of_mem_all children h
        exact .and hchild hpart
  | .or children, h => by
      rcases List.mem_cons.mp h with rfl | h
      · exact .self
      · obtain ⟨child, hchild, hpart⟩ := part_of_mem_all children h
        exact .or hchild hpart
  | .compare .., h | .equal .., h | .timeRange _, h | .elapsed _, h => by
      obtain rfl := List.mem_singleton.mp h
      exact .self

theorem part_of_mem_all {c : Condition} : ∀ list : List Condition, c ∈ allSubconditions list →
    ∃ child ∈ list, Part c child
  | [], h => nomatch h
  | first :: rest, h => by
      rcases List.mem_append.mp h with h | h
      · exact ⟨first, List.mem_cons_self, part_of_mem first h⟩
      · obtain ⟨child, hchild, hpart⟩ := part_of_mem_all rest h
        exact ⟨child, List.mem_cons_of_mem _ hchild, hpart⟩

end

theorem subset_allSubconditions {child : Condition} {list : List Condition} (h : child ∈ list) :
    child.subconditions ⊆ allSubconditions list := by
  induction list with
  | nil => cases h
  | cons first rest ih =>
      rcases List.mem_cons.mp h with rfl | h
      · exact fun c hc => List.mem_append_left _ hc
      · exact fun c hc => List.mem_append_right _ (ih h hc)

theorem mem_subconditions_iff {c d : Condition} : c ∈ d.subconditions ↔ Part c d := by
  refine ⟨part_of_mem d, fun h => ?_⟩
  induction h with
  | self => cases c <;> exact List.mem_cons_self
  | not _ ih => exact List.mem_cons_of_mem _ ih
  | and hchild _ ih | or hchild _ ih =>
      exact List.mem_cons_of_mem _ (subset_allSubconditions hchild ih)

end Condition

namespace TransitionInput

/-- An event test names an event, and its condition can be read if it is given as text. In a test of
time, no values are compared. -/
def Valid : TransitionInput → Prop
  | .event test =>
      test.names ≠ [] ∧ ∀ text, test.whenText = some text → ∃ c, Condition.parse text = .ok c
  | .time condition =>
      (∀ left op right, ¬ Condition.Part (.compare left op right) condition) ∧
        ∀ first second, ¬ Condition.Part (.equal first second) condition

theorem exists_compile_iff (id : String) (input : TransitionInput) :
    (∃ input', input.compile id = .ok input') ↔ input.Valid := by
  cases input with
  | event test =>
      rw [compile, Valid]
      by_cases hnames : test.names = []
      · simp [hnames]
      · rw [if_neg (by simpa using hnames), EventTest.compile]
        cases test.whenText with
        | none => simp [hnames, Except.map]
        | some text => cases hparse : Condition.parse text <;> simp [hnames, hparse, Except.map]
  | time condition =>
      have hany : condition.subconditions.any Condition.comparesValues = false ↔
          Valid (.time condition) := by
        rw [List.any_eq_false, Valid]
        constructor
        · refine fun h => ⟨fun left op right hpart => ?_, fun first second hpart => ?_⟩
          all_goals exact h _ (Condition.mem_subconditions_iff.mpr hpart) rfl
        · rintro ⟨hcompare, hequal⟩ c hc
          have hpart := Condition.mem_subconditions_iff.mp hc
          cases c with
          | compare left op right => exact (hcompare left op right hpart).elim
          | equal first second => exact (hequal first second hpart).elim
          | _ => exact Bool.false_ne_true
      rw [compile, ← hany]
      cases condition.subconditions.any Condition.comparesValues <;> simp

end TransitionInput

namespace Operation

/-- A change has a path, which stays in the subtree of the scenario, and a start names fsms, all of
them known. -/
def Valid (knows : String → Prop) : Operation → Prop
  | .stateChange path _ => path ≠ [] ∧ .scenario ∉ path
  | .spawn fsms => fsms ≠ [] ∧ ∀ fsm ∈ fsms, knows fsm
  | _ => True

theorem check_eq_ok_iff {action : String} {knownFsm : String → Bool} {knows : String → Prop}
    (hknows : ∀ fsm, knownFsm fsm = true ↔ knows fsm) (op : Operation) :
    op.check action knownFsm = .ok () ↔ op.Valid knows := by
  cases op with
  | stateChange path value =>
      have hany : path.any isScenario = true ↔ .scenario ∈ path := by
        rw [List.any_eq_true]
        constructor
        · rintro ⟨segment, hmem, hscenario⟩
          cases segment with
          | scenario => exact hmem
          | _ => cases hscenario
        · exact fun hmem => ⟨.scenario, hmem, rfl⟩
      rw [check, Valid, ← hany]
      by_cases hpath : path = []
      · simp [hpath]
      · cases path.any isScenario <;> simp [hpath]
  | spawn fsms =>
      rw [Valid]
      by_cases hfsms : fsms = []
      · simp [check, hfsms]
      · have hcheck : check action knownFsm (.spawn fsms) =
            DefinitionDocument.checkKnown knownFsm .unknownFsm fsms := by
          rw [check, if_neg (by simpa using hfsms)]
          rfl
        rw [hcheck, DefinitionDocument.checkKnown_eq_ok_iff]
        simp [hfsms, hknows]
  | saveScratch | clearScratch | synthetic => simp [check, Valid]

end Operation

namespace FsmDefinition

variable {f : FsmDefinition}

theorem isBlankName_iff {name : String} : isBlankName name = true ↔ Text.Blank name.toList := by
  rw [isBlankName, List.isEmpty_iff, Text.trimChars_eq_nil_iff]

theorem isBlankName_eq_false_iff {name : String} :
    isBlankName name = false ↔ ¬ Text.Blank name.toList := by
  rw [← isBlankName_iff, Bool.not_eq_true]

/-- The names of the states, and those of the terminals that are not among them. -/
def stateNames (f : FsmDefinition) : List String :=
  f.states.map (·.name) ++ f.terminals.filter (· ∉ f.states.map (·.name))

@[simp] theorem id_withImplicitStates (f : FsmDefinition) : f.withImplicitStates.id = f.id := rfl

theorem names_withImplicitStates (f : FsmDefinition) :
    f.withImplicitStates.states.map (·.name) = f.stateNames := by
  have hundeclared : ∀ name, (!f.states.any fun s => s.name == name) =
      decide (name ∉ f.states.map (·.name)) := by
    intro name
    rw [Bool.eq_iff_iff]
    simp
  simp [withImplicitStates, implicitStates, stateNames, hundeclared, Function.comp_def]

theorem isSome_state?_iff {name : String} :
    (f.state? name).isSome = true ↔ name ∈ f.states.map (·.name) := by
  simp [state?]

theorem checkNames_eq_ok_iff {fsm : String} {earlier : List String}
    {states : List StateDefinition} :
    checkNames fsm earlier states = .ok () ↔
      (∀ name ∈ states.map (·.name), ¬ Text.Blank name.toList) ∧
        (states.map (·.name)).Nodup ∧ ∀ name ∈ states.map (·.name), name ∉ earlier := by
  induction states generalizing earlier with
  | nil => simp [checkNames]
  | cons s rest ih =>
      rw [checkNames]
      by_cases hblank : isBlankName s.name = true
      · simp [hblank, isBlankName_iff.mp hblank]
      · have hname : ¬ Text.Blank s.name.toList := fun h => hblank (isBlankName_iff.mpr h)
        rw [if_neg hblank]
        by_cases hearlier : s.name ∈ earlier
        · simp [hearlier]
        · rw [if_neg (by simpa using hearlier), ih, List.map_cons, List.nodup_cons,
            List.forall_mem_cons, List.forall_mem_cons]
          simp only [List.mem_cons, not_or]
          constructor
          · rintro ⟨hblank, hnodup, hnew⟩
            exact ⟨⟨hname, hblank⟩, ⟨fun h => (hnew _ h).1 rfl, hnodup⟩, hearlier,
              fun name h => (hnew name h).2⟩
          · rintro ⟨⟨-, hblank⟩, ⟨hfirst, hnodup⟩, -, hnew⟩
            exact ⟨hblank, hnodup, fun name h => ⟨fun heq => hfirst (heq ▸ h), hnew name h⟩⟩

theorem eq_of_mem_implicitStates {s : StateDefinition} (h : s ∈ f.implicitStates) :
    s = { name := s.name } := by
  obtain ⟨name, -, rfl⟩ := List.mem_map.mp h
  rfl

theorem forall_transition_iff {p : Transition → Prop} :
    (∀ s ∈ f.withImplicitStates.states, ∀ t ∈ s.transitions, p t) ↔
      ∀ s ∈ f.states, ∀ t ∈ s.transitions, p t := by
  refine ⟨fun h s hs => h s (List.mem_append_left _ hs), fun h s hs t ht => ?_⟩
  rcases List.mem_append.mp hs with hs | hs
  · exact h s hs t ht
  · rw [eq_of_mem_implicitStates hs] at ht
    cases ht

theorem mem_of_automatic {s : StateDefinition} (h : s ∈ f.withImplicitStates.states)
    (hautomatic : s.automatic = true) : s ∈ f.states := by
  rcases List.mem_append.mp h with h | h
  · exact h
  · rw [eq_of_mem_implicitStates h] at hautomatic
    cases hautomatic

theorem endless_withImplicitStates_iff {s : StateDefinition} :
    f.withImplicitStates.Endless s ↔ f.Endless s := by
  have hnext : f.withImplicitStates.Next = f.Next := by
    funext s next
    rw [eq_iff_iff]
    constructor
    · rintro ⟨hforces, hmem, hautomatic⟩
      exact ⟨hforces, mem_of_automatic hmem hautomatic, hautomatic⟩
    · rintro ⟨hforces, hmem, hautomatic⟩
      exact ⟨hforces, List.mem_append_left _ hmem, hautomatic⟩
  rw [Endless, Endless, hnext]

/-- What makes an fsm well formed by itself. -/
structure Valid (f : FsmDefinition) : Prop where
  id_not_blank : ¬ Text.Blank f.id.toList
  initial_ne_final : f.finalState ≠ some f.initial
  initial_ne_abandon : f.abandonState ≠ some f.initial
  final_ne_abandon : ∀ name, f.finalState = some name → f.abandonState ≠ some name
  names_not_blank : ∀ name ∈ f.stateNames, ¬ Text.Blank name.toList
  names_distinct : f.stateNames.Nodup
  initial_mem : f.initial ∈ f.stateNames
  target_mem : ∀ s ∈ f.states, ∀ t ∈ s.transitions, t.target ∈ f.stateNames
  not_endless : ∀ s ∈ f.states, s.automatic = true → ¬ f.Endless s

theorem not_endless_withImplicitStates_iff :
    (∀ s ∈ f.withImplicitStates.states, s.automatic = true →
        ¬ f.withImplicitStates.Endless s) ↔
      ∀ s ∈ f.states, s.automatic = true → ¬ f.Endless s := by
  simp only [endless_withImplicitStates_iff]
  exact ⟨fun h s hs => h s (List.mem_append_left _ hs),
    fun h s hs hautomatic => h s (mem_of_automatic hs hautomatic) hautomatic⟩

theorem compile_eq_ok_iff {f' : FsmDefinition} :
    f.compile = .ok f' ↔ f.Valid ∧ f' = f.withImplicitStates := by
  have hnames := names_withImplicitStates f
  rw [compile]
  simp only [check_bind_eq_ok_iff, bind_eq_ok_iff, exists_unit, checkTerminals_eq_ok_iff,
    checkNames_eq_ok_iff, checkTargets_eq_ok_iff, isSome_state?_iff, hnames]
  constructor
  · rintro ⟨hid, ⟨hinitial, hterminals⟩, ⟨hblank, hnodup, -⟩, ⟨hmem, htargets⟩, hcycles, heq⟩
    obtain rfl := Except.ok.inj heq
    rw [checkCycles_eq_ok_iff (hnames ▸ hnodup), not_endless_withImplicitStates_iff] at hcycles
    rw [forall_transition_iff] at htargets
    have hinitial : f.finalState ≠ some f.initial ∧ f.abandonState ≠ some f.initial := by
      simpa [terminals] using hinitial
    exact
      ⟨{ id_not_blank := fun h => hid (isBlankName_iff.mpr h)
         initial_ne_final := hinitial.1
         initial_ne_abandon := hinitial.2
         final_ne_abandon := hterminals
         names_not_blank := hblank
         names_distinct := hnodup
         initial_mem := hmem
         target_mem := htargets
         not_endless := hcycles }, rfl⟩
  · rintro ⟨h, rfl⟩
    have hinitial : f.initial ∉ f.terminals := by
      simpa [terminals] using ⟨h.initial_ne_final, h.initial_ne_abandon⟩
    have hcycles := not_endless_withImplicitStates_iff.mpr h.not_endless
    refine ⟨fun hid => h.id_not_blank (isBlankName_iff.mp hid),
      ⟨hinitial, h.final_ne_abandon⟩, ⟨h.names_not_blank, h.names_distinct, ?_⟩,
      ⟨h.initial_mem, forall_transition_iff.mpr h.target_mem⟩, ?_, rfl⟩
    · exact fun _ _ => List.not_mem_nil
    · exact (checkCycles_eq_ok_iff (hnames ▸ h.names_distinct)).mpr hcycles

end FsmDefinition

namespace DefinitionDocument

/-- What stands between the fsms that an entry of the initial ones lists. -/
def isSeparator (c : Char) : Bool :=
  c == ',' || c == '|'

/-- An entry lists a name between separators, maybe with blanks around it. -/
def Lists (entry name : String) : Prop :=
  Text.Tight name.toList ∧ ∃ w w' before after, Text.Blank w ∧ Text.Blank w' ∧
    Text.IsPart isSeparator (w ++ name.toList ++ w') entry.toList before after

theorem mem_initialNames_iff {entry name : String} :
    name ∈ initialNames entry ↔ Lists entry name := by
  have hname : ∀ text : List Char,
      (if text.isEmpty then none else some (String.ofList text)) = some name ↔
        name.toList ≠ [] ∧ text = name.toList := by
    intro text
    constructor
    · intro h
      split at h
      · cases h
      · next hne =>
        obtain rfl := Option.some.inj h
        rw [String.toList_ofList]
        exact ⟨by simpa using hne, rfl⟩
    · rintro ⟨hne, rfl⟩
      rw [if_neg (by simpa using hne), String.ofList_toList]
  change name ∈ ((Text.split isSeparator entry.toList).map Text.trimChars).filterMap _ ↔ _
  simp only [List.filterMap_map, List.mem_filterMap, Function.comp_apply, hname,
    Text.trimChars_eq_iff, Lists]
  constructor
  · rintro ⟨_, hpart, htight, w, w', hw, hw', rfl⟩
    obtain ⟨before, after, hpart⟩ := Text.mem_split_iff.mp hpart
    exact ⟨htight, w, w', before, after, hw, hw', hpart⟩
  · rintro ⟨htight, w, w', before, after, hw, hw', hpart⟩
    exact ⟨_, Text.mem_split_iff.mpr ⟨before, after, hpart⟩, htight, w, w', hw, hw', rfl⟩

variable {d : DefinitionDocument}

def KnowsInput (d : DefinitionDocument) (id : String) : Prop :=
  id = TransitionInput.other ∨ ∃ input, d.tests.find? id = some input

/-- The reserved actions are known, and those that the document gives. -/
def KnowsAction (d : DefinitionDocument) (id : String) : Prop :=
  id = Operation.saveScratchId ∨ id = Operation.clearScratchId ∨
    ∃ ops, d.actions.find? id = some ops

def KnowsFsm (d : DefinitionDocument) (id : String) : Prop :=
  ∃ f ∈ d.fsms, f.id = id

/-- What makes a document well formed. -/
structure Valid (d : DefinitionDocument) : Prop where
  id_not_blank : ¬ Text.Blank d.id.toList
  other_no_test : d.tests.find? TransitionInput.other = none
  tests : ∀ id input, d.tests.find? id = some input → input.Valid
  preconditions : ∀ id ∈ d.preconditions, d.KnowsInput id
  fsms : ∀ f ∈ d.fsms, f.Valid
  fsm_ids_distinct : (d.fsms.map (·.id)).Nodup
  initial_nonempty : ∃ entry ∈ d.initial, ∃ name, Lists entry name
  initial_known : ∀ entry ∈ d.initial, ∀ name, Lists entry name → d.KnowsFsm name
  save_reserved : d.actions.find? Operation.saveScratchId = none
  clear_reserved : d.actions.find? Operation.clearScratchId = none
  operations : ∀ id ops, d.actions.find? id = some ops → ∀ op ∈ ops, op.Valid d.KnowsFsm
  fsm_preconditions : ∀ f ∈ d.fsms, ∀ id ∈ f.preconditions, d.KnowsInput id
  inputs : ∀ f ∈ d.fsms, ∀ s ∈ f.states, ∀ t ∈ s.transitions, ∀ id ∈ t.inputs, d.KnowsInput id
  actions : ∀ f ∈ d.fsms, ∀ s ∈ f.states, ∀ t ∈ s.transitions, ∀ id ∈ t.actions,
    d.KnowsAction id

theorem exists_compileTests_iff :
    (∃ tests, d.compileTests = .ok tests) ↔
      ∀ id input, d.tests.find? id = some input → input.Valid := by
  have hentries : (∀ t ∈ d.tests.entries, t.2.Valid) ↔
      ∀ id input, d.tests.find? id = some input → input.Valid := by
    simp only [Prod.forall, Dict.mem_entries_iff]
  rw [← hentries, compileTests]
  constructor
  · rintro ⟨tests, h⟩ t ht
    obtain ⟨entries, hentries, -⟩ := bind_eq_ok_iff.mp h
    obtain ⟨t', ht'⟩ := exists_mapM_eq_ok_iff.mp ⟨entries, hentries⟩ t ht
    obtain ⟨input', hinput', -⟩ := bind_eq_ok_iff.mp ht'
    exact (TransitionInput.exists_compile_iff t.1 t.2).mp ⟨input', hinput'⟩
  · intro h
    have hall : ∀ t ∈ d.tests.entries, ∃ t' : String × TransitionInput,
        (do return (t.1, ← t.2.compile t.1) : Except Fault _) = .ok t' := by
      intro t ht
      obtain ⟨input', hinput'⟩ := (TransitionInput.exists_compile_iff t.1 t.2).mpr (h t ht)
      exact ⟨(t.1, input'), by rw [hinput']; rfl⟩
    obtain ⟨entries, hentries⟩ := exists_mapM_eq_ok_iff.mpr hall
    exact ⟨.ofList entries, bind_eq_ok_iff.mpr ⟨entries, hentries, rfl⟩⟩

theorem compileFsms_eq_ok_iff {earlier : List String} {fsms fsms' : List FsmDefinition} :
    compileFsms earlier fsms = .ok fsms' ↔
      fsms' = fsms.map (·.withImplicitStates) ∧ (∀ f ∈ fsms, f.Valid) ∧
        (fsms.map (·.id)).Nodup ∧ ∀ f ∈ fsms, f.id ∉ earlier := by
  induction fsms generalizing earlier fsms' with
  | nil => simp [compileFsms, eq_comm]
  | cons f rest ih =>
      rw [compileFsms, List.forall_mem_cons, List.forall_mem_cons, List.map_cons, List.map_cons,
        List.nodup_cons]
      simp only [bind_eq_ok_iff, check_bind_eq_ok_iff, FsmDefinition.compile_eq_ok_iff, ih]
      constructor
      · rintro ⟨_, ⟨hf, rfl⟩, hnew, _, ⟨rfl, hrest, hnodup, hearlier⟩, heq⟩
        obtain rfl := Except.ok.inj heq
        rw [FsmDefinition.id_withImplicitStates] at hnew hearlier
        refine ⟨rfl, ⟨hf, hrest⟩, ⟨fun hmem => ?_, hnodup⟩, by simpa using hnew, fun g hg hmem =>
          hearlier g hg (List.mem_cons_of_mem _ hmem)⟩
        obtain ⟨g, hg, hid⟩ := List.mem_map.mp hmem
        exact hearlier g hg (hid ▸ List.mem_cons_self)
      · rintro ⟨rfl, ⟨hf, hrest⟩, ⟨hfirst, hnodup⟩, hnew, hearlier⟩
        have hnew' : ¬ earlier.contains f.withImplicitStates.id = true := by simpa using hnew
        refine ⟨_, ⟨hf, rfl⟩, hnew', _, ⟨rfl, hrest, hnodup, fun g hg hmem => ?_⟩, rfl⟩
        rcases List.mem_cons.mp hmem with hid | hmem
        · exact hfirst (hid ▸ List.mem_map_of_mem hg)
        · exact hearlier g hg hmem

theorem knowsInput_iff {tests : Dict TransitionInput} (h : d.compileTests = .ok tests)
    {id : String} :
    (id == TransitionInput.other || tests.contains id) = true ↔ d.KnowsInput id := by
  rw [Bool.or_eq_true, beq_iff_eq, contains_compileTests h, Dict.contains,
    Option.isSome_iff_exists, KnowsInput]

theorem knowsFsm_iff {id : String} :
    ((d.fsms.map (·.withImplicitStates)).any fun f => f.id == id) = true ↔ d.KnowsFsm id := by
  simp [KnowsFsm]

theorem knowsAction_iff {id : String} :
    (reservedActions.foldl (fun all r => all.insert r.1 [r.2]) d.actions).contains id = true ↔
      d.KnowsAction id := by
  simp only [reservedActions, List.foldl_cons, List.foldl_nil, Dict.contains, Dict.find?_insert,
    KnowsAction]
  split
  · next h => simp [h]
  · next hclear =>
    split
    · next h => simp [h]
    · next hsave => simp [hclear, hsave, Option.isSome_iff_exists]

theorem mem_initial_iff {name : String} :
    name ∈ d.initial.flatMap initialNames ↔ ∃ entry ∈ d.initial, Lists entry name := by
  simp only [List.mem_flatMap, mem_initialNames_iff]

theorem Compiles.valid {defs : DefinitionSet} (h : d.Compiles defs) : d.Valid := by
  obtain ⟨hfsms, hvalid, hnodup, -⟩ := compileFsms_eq_ok_iff.mp h.fsms
  have hinput : ∀ id, _ ↔ d.KnowsInput id := fun _ => knowsInput_iff h.tests
  have haction : ∀ id, defs.actions.contains id = true ↔ d.KnowsAction id := by
    rw [h.actions]
    exact fun _ => knowsAction_iff
  have hfsm : ∀ id, (defs.fsms.any fun f => f.id == id) = true ↔ d.KnowsFsm id := by
    rw [hfsms]
    exact fun _ => knowsFsm_iff
  have hmem : ∀ f ∈ d.fsms, f.withImplicitStates ∈ defs.fsms := fun f hf =>
    hfsms ▸ List.mem_map_of_mem hf
  obtain ⟨name, hname⟩ := List.exists_mem_of_ne_nil _ h.initial_ne_nil
  rw [h.initial] at hname
  obtain ⟨entry, hentry, hlists⟩ := mem_initial_iff.mp hname
  exact
    { id_not_blank := FsmDefinition.isBlankName_eq_false_iff.mp h.id_not_blank
      other_no_test := Dict.contains_eq_false_iff.mp h.tests_not_reserved
      tests := exists_compileTests_iff.mp ⟨_, h.tests⟩
      preconditions := fun id hid => (hinput id).mp (h.known_preconditions id hid)
      fsms := hvalid
      fsm_ids_distinct := hnodup
      initial_nonempty := ⟨entry, hentry, name, hlists⟩
      initial_known := fun entry hentry name hlists => (hfsm name).mp <| h.known_initial name <| by
        rw [h.initial]
        exact mem_initial_iff.mpr ⟨entry, hentry, hlists⟩
      save_reserved := Dict.contains_eq_false_iff.mp <|
        h.actions_not_reserved (Operation.saveScratchId, .saveScratch) (by simp [reservedActions])
      clear_reserved := Dict.contains_eq_false_iff.mp <|
        h.actions_not_reserved (Operation.clearScratchId, .clearScratch) (by simp [reservedActions])
      operations := fun id ops hops op hop => (Operation.check_eq_ok_iff hfsm op).mp <|
        h.operations (id, ops) ((Dict.mem_entries_iff _ id ops).mpr hops) op hop
      fsm_preconditions := fun f hf id hid =>
        (hinput id).mp (h.known_fsm_preconditions _ (hmem f hf) id hid)
      inputs := fun f hf => FsmDefinition.forall_transition_iff.mp fun s hs t ht id hid =>
        (hinput id).mp (h.known_inputs _ (hmem f hf) s hs t ht id hid)
      actions := fun f hf => FsmDefinition.forall_transition_iff.mp fun s hs t ht id hid =>
        (haction id).mp (h.known_actions _ (hmem f hf) s hs t ht id hid) }

theorem Valid.exists_compiles (h : d.Valid) : ∃ defs, d.Compiles defs := by
  obtain ⟨tests, htests⟩ := exists_compileTests_iff.mpr h.tests
  obtain ⟨entry, hentry, name, hlists⟩ := h.initial_nonempty
  have hinput : ∀ id, _ ↔ d.KnowsInput id := fun _ => knowsInput_iff htests
  have hfsm : ∀ id, _ ↔ d.KnowsFsm id := fun _ => knowsFsm_iff
  refine ⟨{ document := d
            initial := d.initial.flatMap initialNames
            tests := tests
            actions := reservedActions.foldl (fun all r => all.insert r.1 [r.2]) d.actions
            fsms := d.fsms.map (·.withImplicitStates) },
    { document := rfl
      initial := rfl
      tests := htests
      actions := rfl
      fsms := compileFsms_eq_ok_iff.mpr
        ⟨rfl, h.fsms, h.fsm_ids_distinct, fun _ _ => List.not_mem_nil⟩
      id_not_blank := FsmDefinition.isBlankName_eq_false_iff.mpr h.id_not_blank
      tests_not_reserved := Dict.contains_eq_false_iff.mpr h.other_no_test
      actions_not_reserved := by
        simpa [reservedActions] using ⟨Dict.contains_eq_false_iff.mpr h.save_reserved,
          Dict.contains_eq_false_iff.mpr h.clear_reserved⟩
      known_preconditions := fun id hid => (hinput id).mpr (h.preconditions id hid)
      initial_ne_nil := List.ne_nil_of_mem (mem_initial_iff.mpr ⟨entry, hentry, hlists⟩)
      known_initial := fun id hid => (hfsm id).mpr <| by
        obtain ⟨entry, hentry, hlists⟩ := mem_initial_iff.mp hid
        exact h.initial_known entry hentry id hlists
      operations := fun e he op hop => (Operation.check_eq_ok_iff hfsm op).mpr <|
        h.operations e.1 e.2 ((Dict.mem_entries_iff _ e.1 e.2).mp he) op hop
      known_fsm_preconditions := List.forall_mem_map.mpr fun f hf id hid =>
        (hinput id).mpr (h.fsm_preconditions f hf id hid)
      known_inputs := List.forall_mem_map.mpr fun f hf =>
        FsmDefinition.forall_transition_iff.mpr fun s hs t ht id hid =>
          (hinput id).mpr (h.inputs f hf s hs t ht id hid)
      known_actions := List.forall_mem_map.mpr fun f hf =>
        FsmDefinition.forall_transition_iff.mpr fun s hs t ht id hid =>
          knowsAction_iff.mpr (h.actions f hf s hs t ht id hid) }⟩

/-- Compilation accepts exactly the documents that are well formed. -/
theorem accepts_iff_valid (d : DefinitionDocument) :
    (∃ defs, d.compile = .ok defs) ↔ d.Valid := by
  simp only [compile_eq_ok_iff]
  exact ⟨fun ⟨_, h⟩ => h.valid, Valid.exists_compiles⟩

end DefinitionDocument

end TraceAutomata
