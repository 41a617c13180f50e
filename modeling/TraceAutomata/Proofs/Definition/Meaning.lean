import TraceAutomata.Proofs.Condition.Spelling
import TraceAutomata.Proofs.Definition.Closed

namespace TraceAutomata

namespace EventTest

/-- What a condition that is given as text says in a context. -/
def textHolds (ctx : GuardContext) (text : String) : Except Fault Bool := do
  let c ← (Condition.parse text).mapError fun fault => .definition (.condition fault)
  c.evaluate ctx

/-- What the conditions of a test say in a context. The one that is given as text is looked at only if
the one that is given as a tree holds; what is not given holds. -/
def conditionsHold (ctx : GuardContext) (t : EventTest) : Except Fault Bool := do
  if ← t.condition.elim (.ok true) (Condition.evaluate ctx) then
    t.whenText.elim (.ok true) (textHolds ctx)
  else return false

/-- A test is used in place of the one that is written: what it answers is what the written one says,
and nothing is left in it to be read. -/
structure UsedAs (t used : EventTest) : Prop where
  /-- Where no name matches, no condition has a part in the answer. -/
  mismatch : ∀ ctx : GuardContext, t.matchesName ctx.event.name = false →
    ∀ condition, TransitionInput.evaluate ctx (.event { used with condition }) = .ok false
  matching : ∀ ctx : GuardContext, t.matchesName ctx.event.name = true →
    TransitionInput.evaluate ctx (.event used) = t.conditionsHold ctx
  again : ∀ id, TransitionInput.compile id (.event used) = .ok (.event used)

variable {t used : EventTest} {ctx : GuardContext}

theorem before_absent (x : Except Fault Bool) :
    (do if ← x then .ok true else return false) = x := by
  rcases x with fault | _ | _ <;> rfl

theorem evaluate_join (existing : Option Condition) (c : Condition) :
    (join existing c).evaluate ctx = do
      if ← existing.elim (.ok true) (Condition.evaluate ctx) then c.evaluate ctx
      else return false := by
  cases existing with
  | none => rfl
  | some existing =>
      rw [join, Condition.evaluate, Condition.evaluateAll, Condition.evaluateAll,
        Condition.evaluateAll, Option.elim_some]
      exact congrArg (fun next => do if ← existing.evaluate ctx then next else return false)
        (before_absent (c.evaluate ctx))

theorem compile_eq_ok (h : t.compile = .ok used) :
    used.names = t.names ∧ used.whenText = none ∧
      ∀ ctx, used.condition.elim (.ok true) (Condition.evaluate ctx) = t.conditionsHold ctx := by
  rw [compile] at h
  cases htext : t.whenText with
  | none =>
      rw [htext] at h
      obtain rfl := Except.ok.inj h
      refine ⟨rfl, htext, fun ctx => ?_⟩
      rw [conditionsHold, htext]
      exact (before_absent _).symm
  | some text =>
      rw [htext] at h
      simp only at h
      split at h
      · cases h
      · next c hparse =>
        obtain rfl := Except.ok.inj h
        refine ⟨rfl, rfl, fun ctx => ?_⟩
        have hread : textHolds ctx text = c.evaluate ctx := by
          rw [textHolds, hparse]
          rfl
        rw [conditionsHold, htext, Option.elim_some, Option.elim_some, hread, evaluate_join]

theorem usedAs_of_compile (hnames : t.names ≠ []) (h : t.compile = .ok used) : t.UsedAs used := by
  obtain ⟨hsame, htext, hcondition⟩ := compile_eq_ok h
  have hmatches : ∀ name, used.matchesName name = t.matchesName name := fun name => by
    rw [matchesName, matchesName, hsame]
  refine ⟨fun ctx hno condition => ?_, fun ctx hyes => ?_, fun id => ?_⟩
  · have hno' : ({ used with condition } : EventTest).matchesName ctx.event.name = false :=
      (hmatches _).trans hno
    rw [TransitionInput.evaluate, hno']
    rfl
  · rw [TransitionInput.evaluate, hmatches, if_pos hyes, ← hcondition]
    cases used.condition <;> rfl
  · have hused : used.names.isEmpty = false := by simpa [hsame] using hnames
    rw [TransitionInput.compile, hused, compile, htext]
    rfl

end EventTest

namespace TransitionInput

/-- An input is used in place of the one that is written; time inputs are used as they are. -/
inductive UsedAs : TransitionInput → TransitionInput → Prop
  | event {t used : EventTest} (h : t.UsedAs used) : UsedAs (.event t) (.event used)
  | time (c : Condition) : UsedAs (.time c) (.time c)

theorem usedAs_of_compile {id : String} {input used : TransitionInput}
    (h : input.compile id = .ok used) : input.UsedAs used := by
  cases input with
  | event t =>
      rw [compile] at h
      split at h
      · cases h
      · next hnames =>
        cases htest : t.compile with
        | error fault => rw [htest] at h; cases h
        | ok t' =>
            rw [htest] at h
            obtain rfl := Except.ok.inj h
            exact .event (EventTest.usedAs_of_compile (by simpa using hnames) htest)
  | time c =>
      rw [compile] at h
      split at h
      · cases h
      · obtain rfl := Except.ok.inj h
        exact .time c

end TransitionInput

theorem lookup_of_mapM {α β ε : Type} {f : String → α → Except ε β} {entries : List (String × α)}
    {entries' : List (String × β)}
    (h : (entries.mapM fun t => do return (t.1, ← f t.1 t.2)) = .ok entries') (name : String) :
    Option.Rel (fun a b => f name a = .ok b) (entries.lookup name) (entries'.lookup name) := by
  induction entries generalizing entries' with
  | nil =>
      obtain rfl : [] = entries' := Except.ok.inj h
      exact .none
  | cons t rest ih =>
      rw [List.mapM_cons] at h
      simp only [bind_eq_ok_iff] at h
      obtain ⟨t', ⟨b, hb, ht⟩, rest', hrest, heq⟩ := h
      obtain rfl := Except.ok.inj ht
      obtain rfl := Except.ok.inj heq
      rw [lookup_cons_eq_ite, lookup_cons_eq_ite]
      split
      · next hname =>
        subst hname
        exact .some hb
      · exact ih hrest

theorem DefinitionDocument.find?_compileTests {d : DefinitionDocument} {tests : Dict TransitionInput}
    (h : d.compileTests = .ok tests) (id : String) :
    Option.Rel (fun input used => input.compile id = .ok used) (d.tests.find? id)
      (tests.find? id) := by
  rw [compileTests] at h
  simp only [bind_eq_ok_iff] at h
  obtain ⟨entries, hentries, heq⟩ := h
  obtain rfl := Except.ok.inj heq
  have hnodup : (entries.map Prod.fst).Nodup := by
    rw [map_fst_of_mapM (f := TransitionInput.compile) hentries]
    exact (List.pairwise_map.mpr d.tests.sorted).imp String.ne_of_lt
  have hfound := lookup_of_mapM (f := TransitionInput.compile) hentries id
  rw [Dict.find?, Dict.find?, Dict.entries_ofList, lookup_foldl_insertEntry hnodup,
    List.lookup_nil, Option.or_none]
  exact hfound

/-- Every event test that is accepted is used as it is written, and so are all tests of a document that is
accepted; the document itself stays what it is. -/
theorem tests_used_as_written :
    (∀ id (t : EventTest) (input : TransitionInput),
      TransitionInput.compile id (.event t) = .ok input →
        ∃ used, input = .event used ∧ t.UsedAs used) ∧
    ∀ (d : DefinitionDocument) (defs : DefinitionSet), d.compile = .ok defs →
      defs.document = d ∧
        ∀ id, Option.Rel TransitionInput.UsedAs (d.tests.find? id) (defs.tests.find? id) := by
  constructor
  · intro id t input h
    obtain @⟨_, used, hused⟩ := TransitionInput.usedAs_of_compile h
    exact ⟨used, rfl, hused⟩
  · intro d defs h
    have hcompiles := (d.compile_eq_ok_iff defs).mp h
    refine ⟨hcompiles.document, fun id => ?_⟩
    have hfound := DefinitionDocument.find?_compileTests hcompiles.tests id
    generalize d.tests.find? id = written, defs.tests.find? id = used at hfound ⊢
    cases hfound with
    | none => exact .none
    | some hcompile => exact .some (TransitionInput.usedAs_of_compile hcompile)

open Condition Text in
/-- A condition on one field as a tree and one on another field as text, alone and as a test that stands
among the tests of a document. -/
theorem tests_used_as_written_sample :
    let owner : Condition := .compare (.field "pid") .eq (.literal (.int 7))
    let large : Condition := .compare (.field "fd") .ge (.literal (.int 3))
    let t : EventTest := ⟨["sys_*", "any"], some owner, some "$fd >= 3"⟩
    let used : EventTest := ⟨["sys_*", "any"], some (.and [owner, large]), none⟩
    let d : DefinitionDocument :=
      { DefinitionDocument.nested with
        tests := DefinitionDocument.nested.tests.insert "turn" (.event t) }
    TransitionInput.compile "turn" (.event t) = .ok (.event used) ∧ t.UsedAs used ∧
      ∃ defs, d.compile = .ok defs ∧ defs.document = d ∧
        ∃ found, defs.tests.find? "turn" = some found ∧
          TransitionInput.UsedAs (.event t) found := by
  intro owner large t used d
  have hspace : Blank [' '] := by simp [Blank, isBlank]
  have hlarge : Spells (.part large) "$fd >= 3".toList :=
    .compare .ge (.field (isIdentifier_of_all (by decide) (by decide))) hspace hspace (.int 3)
  have hparse : parse "$fd >= 3" = .ok large :=
    parse_of_spelled ⟨_, [], [], _, rfl, blank_nil, blank_nil,
      (Spells.conjunct hlarge).alternative, by decide +kernel⟩
  have hcompile : TransitionInput.compile "turn" (.event t) = .ok (.event used) := by
    rw [TransitionInput.compile, EventTest.compile]
    simp only [t, hparse]
    rfl
  obtain ⟨used', heq, hused⟩ := tests_used_as_written.1 "turn" t _ hcompile
  obtain rfl := TransitionInput.event.inj heq
  obtain ⟨defs, hdefs⟩ := d.exists_compile (by decide +kernel)
  obtain ⟨hdocument, htests⟩ := tests_used_as_written.2 d defs hdefs
  have hturn := htests "turn"
  have hwritten : d.tests.find? "turn" = some (.event t) :=
    (Dict.find?_insert _ _ _ _).trans (if_pos rfl)
  rw [hwritten] at hturn
  generalize hfound : defs.tests.find? "turn" = found at hturn
  cases hturn with
  | some hmeant => exact ⟨hcompile, hused, defs, hdefs, hdocument, _, hfound, hmeant⟩

end TraceAutomata
