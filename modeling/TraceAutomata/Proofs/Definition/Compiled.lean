import Mathlib.Data.List.Forall2
import Mathlib.Data.List.Nodup
import TraceAutomata.Definition.Compile

namespace TraceAutomata

section Checks

variable {ε α β : Type}

theorem bind_eq_ok_iff {x : Except ε α} {f : α → Except ε β} {b : β} :
    (x >>= f) = .ok b ↔ ∃ a, x = .ok a ∧ f a = .ok b := by
  cases x with
  | error e => simp [bind, Except.bind]
  | ok a => simp [bind, Except.bind]

theorem check_bind_eq_ok_iff {c : Prop} [Decidable c] {e : ε} {f : Unit → Except ε β} {b : β} :
    (if c then (throw e : Except ε Unit) >>= f else f ()) = .ok b ↔ ¬ c ∧ f () = .ok b := by
  by_cases h : c
  · simp [h, throw, throwThe, MonadExceptOf.throw, bind, Except.bind]
  · simp [h]

theorem exists_unit {p : Unit → Prop} : (∃ u, p u) ↔ p () :=
  ⟨fun ⟨_, h⟩ => h, fun h => ⟨(), h⟩⟩

theorem forM_eq_ok_iff {list : List α} {f : α → Except ε Unit} :
    list.forM f = .ok () ↔ ∀ a ∈ list, f a = .ok () := by
  induction list with
  | nil => simp [pure, Except.pure]
  | cons a rest ih =>
      rw [List.forall_mem_cons, ← ih]
      exact bind_eq_ok_iff.trans exists_unit

theorem exists_mapM_eq_ok_iff {f : α → Except ε β} {list : List α} :
    (∃ list', list.mapM f = .ok list') ↔ ∀ a ∈ list, ∃ b, f a = .ok b := by
  induction list with
  | nil => simp [pure, Except.pure]
  | cons a rest ih =>
      rw [List.mapM_cons, List.forall_mem_cons, ← ih]
      simp only [bind_eq_ok_iff]
      constructor
      · rintro ⟨list', b, hb, rest', hrest, -⟩
        exact ⟨⟨b, hb⟩, rest', hrest⟩
      · rintro ⟨⟨b, hb⟩, rest', hrest⟩
        exact ⟨b :: rest', b, hb, rest', hrest, rfl⟩

end Checks

namespace FsmDefinition

/-- What the checks say of an fsm with all of its states. -/
structure WellFormed (f : FsmDefinition) : Prop where
  initial_not_terminal : f.initial ∉ f.terminals
  terminals_ne : ∀ name, f.finalState = some name → f.abandonState ≠ some name
  state_initial : (f.state? f.initial).isSome
  state_target : ∀ s ∈ f.states, ∀ t ∈ s.transitions, (f.state? t.target).isSome

theorem checkTerminals_eq_ok_iff (f : FsmDefinition) :
    f.checkTerminals = .ok () ↔
      f.initial ∉ f.terminals ∧
        ∀ name, f.finalState = some name → f.abandonState ≠ some name := by
  rw [checkTerminals]
  cases hfound : f.terminals.find? (· == f.initial) with
  | some name =>
      have hmem := List.mem_of_find?_eq_some hfound
      have heq : name = f.initial := by simpa using List.find?_some hfound
      simp [heq ▸ hmem]
  | none =>
      have hnot : f.initial ∉ f.terminals := fun hmem => by
        simpa using List.find?_eq_none.mp hfound _ hmem
      cases hfinal : f.finalState with
      | none => simp [hnot]
      | some name =>
          by_cases habandon : f.abandonState = some name
          · simp [habandon]
          · simp [hnot, habandon, Ne.symm habandon]

theorem checkTargets_eq_ok_iff (f : FsmDefinition) :
    f.checkTargets = .ok () ↔
      (f.state? f.initial).isSome ∧
        ∀ s ∈ f.states, ∀ t ∈ s.transitions, (f.state? t.target).isSome := by
  rw [checkTargets]
  cases hfound : (f.initial :: f.states.flatMap fun s => s.transitions.map (·.target)).find?
      fun name => !(f.state? name).isSome with
  | some name =>
      have hmem := List.mem_of_find?_eq_some hfound
      have hnone := List.find?_some hfound
      simp only [reduceCtorEq, false_iff, not_and]
      intro hinitial htargets
      rcases List.mem_cons.mp hmem with rfl | hmem
      · simp [hinitial] at hnone
      · simp only [List.mem_flatMap, List.mem_map] at hmem
        obtain ⟨s, hs, t, ht, rfl⟩ := hmem
        simp [htargets s hs t ht] at hnone
  | none =>
      have hall : ∀ name, name = f.initial ∨
          name ∈ f.states.flatMap (fun s => s.transitions.map (·.target)) →
            (f.state? name).isSome := fun name hname => by
        simpa [Option.isSome_iff_ne_none] using
          List.find?_eq_none.mp hfound name (List.mem_cons.mpr hname)
      simp only [true_iff]
      refine ⟨hall _ (.inl rfl), fun s hs t ht => hall _ (.inr ?_)⟩
      exact List.mem_flatMap.mpr ⟨s, hs, List.mem_map_of_mem ht⟩

theorem compile_eq_ok {f f' : FsmDefinition} (h : f.compile = .ok f') :
    f' = f.withImplicitStates ∧ f'.WellFormed := by
  rw [compile] at h
  simp only [check_bind_eq_ok_iff, bind_eq_ok_iff, exists_unit] at h
  obtain ⟨-, hterminals, -, htargets, -, heq⟩ := h
  obtain rfl : f.withImplicitStates = f' := Except.ok.inj heq
  have hterm := (checkTerminals_eq_ok_iff f).mp hterminals
  have htarg := (checkTargets_eq_ok_iff f.withImplicitStates).mp htargets
  exact ⟨rfl, hterm.1, hterm.2, htarg.1, htarg.2⟩

end FsmDefinition

namespace DefinitionDocument

theorem compileFsms_eq_ok {earlier : List String} {fsms fsms' : List FsmDefinition}
    (h : compileFsms earlier fsms = .ok fsms') :
    List.Forall₂ (fun f f' => f.compile = .ok f') fsms fsms' ∧
      (fsms'.map (·.id)).Nodup ∧ ∀ f ∈ fsms', f.id ∉ earlier := by
  induction fsms generalizing earlier fsms' with
  | nil =>
      rw [compileFsms] at h
      obtain rfl : [] = fsms' := Except.ok.inj h
      simp
  | cons f rest ih =>
      rw [compileFsms] at h
      simp only [bind_eq_ok_iff, check_bind_eq_ok_iff] at h
      obtain ⟨f', hf, hnew, rest', hrest, heq⟩ := h
      obtain rfl : f' :: rest' = fsms' := Except.ok.inj heq
      obtain ⟨hall, hnodup, hearlier⟩ := ih hrest
      have hnew' : f'.id ∉ earlier := by simpa using hnew
      refine ⟨.cons hf hall, List.nodup_cons.mpr ⟨fun hmem => ?_, hnodup⟩, fun g hg => ?_⟩
      · obtain ⟨g, hg, heq⟩ := List.mem_map.mp hmem
        exact hearlier g hg (heq ▸ List.mem_cons_self)
      · rcases List.mem_cons.mp hg with rfl | hg
        · exact hnew'
        · exact fun hmem => hearlier g hg (List.mem_cons_of_mem _ hmem)

theorem checkKnown_eq_ok_iff {known : String → Bool} {fault : String → Fault}
    {names : List String} :
    checkKnown known fault names = .ok () ↔ ∀ name ∈ names, known name = true := by
  rw [checkKnown]
  cases hfound : names.find? fun name => !known name with
  | none => simpa using hfound
  | some name =>
      simp only [reduceCtorEq, false_iff]
      intro hall
      simpa [hall name (List.mem_of_find?_eq_some hfound)] using List.find?_some hfound

/-- All checks that a document has to pass, with what is made of it. -/
structure Compiles (d : DefinitionDocument) (defs : DefinitionSet) : Prop where
  document : defs.document = d
  initial : defs.initial = d.initial.flatMap initialNames
  tests : d.compileTests = .ok defs.tests
  actions : defs.actions =
    reservedActions.foldl (fun all r => all.insert r.1 [r.2]) d.actions
  fsms : compileFsms [] d.fsms = .ok defs.fsms
  id_not_blank : FsmDefinition.isBlankName d.id = false
  tests_not_reserved : d.tests.contains TransitionInput.other = false
  actions_not_reserved : ∀ r ∈ reservedActions, d.actions.contains r.1 = false
  known_preconditions : ∀ id ∈ d.preconditions,
    (id == TransitionInput.other || defs.tests.contains id) = true
  initial_ne_nil : defs.initial ≠ []
  known_initial : ∀ id ∈ defs.initial, (defs.fsms.any fun f => f.id == id) = true
  operations : ∀ entry ∈ d.actions.entries, ∀ op ∈ entry.2,
    Operation.check entry.1 (fun id => defs.fsms.any fun f => f.id == id) op = .ok ()
  known_fsm_preconditions : ∀ f ∈ defs.fsms, ∀ id ∈ f.preconditions,
    (id == TransitionInput.other || defs.tests.contains id) = true
  known_inputs : ∀ f ∈ defs.fsms, ∀ s ∈ f.states, ∀ t ∈ s.transitions, ∀ id ∈ t.inputs,
    (id == TransitionInput.other || defs.tests.contains id) = true
  known_actions : ∀ f ∈ defs.fsms, ∀ s ∈ f.states, ∀ t ∈ s.transitions, ∀ id ∈ t.actions,
    defs.actions.contains id = true

theorem compile_eq_ok_iff (d : DefinitionDocument) (defs : DefinitionSet) :
    d.compile = .ok defs ↔ d.Compiles defs := by
  rw [compile]
  cases hreserved : reservedActions.find? fun r => d.actions.contains r.1 with
  | some r =>
      have hmem := List.mem_of_find?_eq_some hreserved
      have hcontains : d.actions.contains r.1 = true := by
        simpa using List.find?_some hreserved
      constructor
      · intro h
        simp only [check_bind_eq_ok_iff, bind_eq_ok_iff, exists_unit] at h
        obtain ⟨-, -, tests, -, -, fsms, -, -, -, h⟩ := h
        simp [throw, throwThe, MonadExceptOf.throw] at h
      · intro h
        rw [h.actions_not_reserved r hmem] at hcontains
        cases hcontains
  | none =>
      have hfree : ∀ r ∈ reservedActions, d.actions.contains r.1 = false := fun r hr => by
        simpa using List.find?_eq_none.mp hreserved r hr
      simp only [check_bind_eq_ok_iff, bind_eq_ok_iff, exists_unit, checkKnown_eq_ok_iff,
        forM_eq_ok_iff]
      constructor
      · rintro ⟨hid, hother, tests, htests, hpre, fsms, hfsms, hnil, hinitial, hops, huse, heq⟩
        obtain rfl := Except.ok.inj heq
        exact
          { document := rfl
            initial := rfl
            tests := htests
            actions := rfl
            fsms := hfsms
            id_not_blank := by simpa using hid
            tests_not_reserved := by simpa using hother
            actions_not_reserved := hfree
            known_preconditions := hpre
            initial_ne_nil := by simpa using hnil
            known_initial := hinitial
            operations := hops
            known_fsm_preconditions := fun f hf => (huse f hf).1
            known_inputs := fun f hf s hs t ht => ((huse f hf).2 s hs t ht).1
            known_actions := fun f hf s hs t ht => ((huse f hf).2 s hs t ht).2 }
      · intro h
        obtain ⟨document, initial, tests, actions, fsms⟩ := defs
        obtain rfl : document = d := h.document
        obtain rfl := h.initial
        obtain rfl := h.actions
        refine ⟨by simpa using h.id_not_blank, by simpa using h.tests_not_reserved, tests,
          h.tests, h.known_preconditions, fsms, h.fsms, by simpa using h.initial_ne_nil,
          h.known_initial, h.operations, fun f hf => ⟨h.known_fsm_preconditions f hf,
            fun s hs t ht => ⟨h.known_inputs f hf s hs t ht, h.known_actions f hf s hs t ht⟩⟩,
          rfl⟩

end DefinitionDocument

/-- What the checks say of all fsms together. -/
structure DefinitionSet.WellFormed (d : DefinitionSet) : Prop where
  nodup_ids : (d.fsms.map (·.id)).Nodup
  fsm : ∀ f ∈ d.fsms, f.WellFormed

theorem DefinitionDocument.Compiles.wellFormed {d : DefinitionDocument} {defs : DefinitionSet}
    (h : d.Compiles defs) : defs.WellFormed where
  nodup_ids := (compileFsms_eq_ok h.fsms).2.1
  fsm f hf := by
    have hall := (compileFsms_eq_ok h.fsms).1
    obtain ⟨i, hi, rfl⟩ := List.getElem_of_mem hf
    have hget := hall.get (by rw [hall.length_eq]; exact hi) hi
    exact (FsmDefinition.compile_eq_ok hget).2

/-- A pattern of two fsms, of which one ends with its first event and the other one with its
second. The latter notes its progress and emits an event. -/
def DefinitionDocument.sample : DefinitionDocument where
  id := "pattern"
  initial := ["job, task"]
  preconditions := []
  scratchFields := .ofList [("pid", "process")]
  tests := ∅
  actions := .ofList
    [("note",
      [.stateChange [.name "progress"] (.literal (.long 1)), .synthetic (.literal "begun") ∅])]
  fsms :=
    [{ id := "job", initial := "idle", finalState := some "done",
       states :=
        [{ name := "idle",
           transitions :=
            [{ inputs := ["other"], target := "busy", actions := ["note"],
               saveScratch := true }] },
          { name := "busy", transitions := [{ inputs := ["other"], target := "done" }] }] },
      { id := "task", initial := "idle", finalState := some "done",
        states := [{ name := "idle", transitions := [{ inputs := ["other"], target := "done" }] }] }]

/-- A pattern of two fsms, with a test besides the input that always passes as the preconditions of
the pattern and of one fsm. A job starts a task with its first event and with its last one, and goes
to and fro between two automatic states as long as an event turns it. A task starts another one. -/
def DefinitionDocument.nested : DefinitionDocument where
  id := "pattern"
  initial := ["job"]
  preconditions := ["known", "other"]
  scratchFields := ∅
  tests := .ofList
    [("known", .event { names := ["begin", "turn", "end"] }),
      ("begin", .event { names := ["begin"] }), ("turn", .event { names := ["turn"] }),
      ("end", .event { names := ["end"] })]
  actions := .ofList [("delegate", [.spawn ["task"]])]
  fsms :=
    [{ id := "job", initial := "idle", finalState := some "done",
       preconditions := ["known", "other"],
       states :=
        [{ name := "idle",
           transitions := [{ inputs := ["begin"], target := "left", actions := ["delegate"] }] },
          { name := "left", automatic := true,
            transitions :=
              [{ inputs := ["turn"], target := "right" },
                { inputs := ["end"], target := "done", actions := ["delegate"] }] },
          { name := "right", automatic := true,
            transitions := [{ inputs := ["turn"], target := "left" }] }] },
      { id := "task", initial := "idle", finalState := some "done", concurrent := true,
        states :=
        [{ name := "idle", transitions := [{ inputs := ["other"], target := "ready" }] },
          { name := "ready", automatic := true,
            transitions := [{ inputs := ["other"], target := "busy", actions := ["delegate"] }] },
          { name := "busy", transitions := [{ inputs := ["end"], target := "done" }] }] }]

theorem DefinitionDocument.exists_compile (d : DefinitionDocument)
    (h : d.compile.toOption.isSome = true) : ∃ defs, d.compile = .ok defs := by
  cases hcompile : d.compile with
  | ok defs => exact ⟨defs, rfl⟩
  | error fault =>
      rw [hcompile] at h
      cases h

theorem DefinitionDocument.exists_compile_sample : ∃ defs, sample.compile = .ok defs :=
  sample.exists_compile (by decide +kernel)

namespace DefinitionSet

variable {d : DefinitionSet} {id : String} {index : Nat} {f : FsmDefinition}

theorem index_inj (hnodup : (d.fsms.map (·.id)).Nodup) {i j : Nat} {f g : FsmDefinition}
    (hf : d.fsms[i]? = some f) (hg : d.fsms[j]? = some g) (heq : f.id = g.id) : i = j := by
  have hi : (d.fsms.map (·.id))[i]? = some f.id := by simp [hf]
  have hj : (d.fsms.map (·.id))[j]? = some f.id := by simp [hg, heq]
  have hlt := (List.getElem?_eq_some_iff.mp hi).1
  exact (List.getElem?_inj hlt hnodup).mp (hi.trans hj.symm)

theorem fsmIndex?_eq_some_iff (hnodup : (d.fsms.map (·.id)).Nodup) :
    d.fsmIndex? id = some index ↔ ∃ f, d.fsms[index]? = some f ∧ f.id = id := by
  rw [fsmIndex?, List.findIdx?_eq_some_iff_getElem]
  constructor
  · rintro ⟨hlt, hid, -⟩
    exact ⟨d.fsms[index], List.getElem?_eq_getElem hlt, by simpa using hid⟩
  · rintro ⟨f, hf, hid⟩
    obtain ⟨hlt, rfl⟩ := List.getElem?_eq_some_iff.mp hf
    refine ⟨hlt, by simpa using hid, fun j hj heq => ?_⟩
    have hjid : d.fsms[j].id = id := by simpa using heq
    have hget := List.getElem?_eq_getElem (Nat.lt_trans hj hlt)
    exact Nat.ne_of_lt hj (index_inj hnodup hget hf (hjid.trans hid.symm))

theorem fsm?_eq_some_iff (hnodup : (d.fsms.map (·.id)).Nodup) :
    d.fsm? id = some f ↔ f ∈ d.fsms ∧ f.id = id := by
  rw [fsm?]
  constructor
  · intro h
    exact ⟨List.mem_of_find?_eq_some h, by simpa using List.find?_some h⟩
  · rintro ⟨hf, hid⟩
    cases hfound : d.fsms.find? fun f => f.id == id with
    | none => simpa [hid] using List.find?_eq_none.mp hfound f hf
    | some g =>
        have hg : g.id = id := by simpa using List.find?_some hfound
        have hgf := List.inj_on_of_nodup_map hnodup (List.mem_of_find?_eq_some hfound) hf
          (hg.trans hid.symm)
        rw [hgf]

theorem fsmIndex?_of_getElem? (hnodup : (d.fsms.map (·.id)).Nodup)
    (hf : d.fsms[index]? = some f) : d.fsmIndex? f.id = some index :=
  (fsmIndex?_eq_some_iff hnodup).mpr ⟨f, hf, rfl⟩

theorem fsm?_of_mem (hnodup : (d.fsms.map (·.id)).Nodup) (hf : f ∈ d.fsms) :
    d.fsm? f.id = some f :=
  (fsm?_eq_some_iff hnodup).mpr ⟨hf, rfl⟩

theorem test_eq_ok_iff {input : TransitionInput} :
    d.test id = .ok input ↔ d.tests.find? id = some input := by
  rw [test]
  cases d.tests.find? id <;> simp

theorem action_eq_ok_iff {ops : List Operation} :
    d.action id = .ok ops ↔ d.actions.find? id = some ops := by
  rw [action]
  cases d.actions.find? id <;> simp

end DefinitionSet

end TraceAutomata
