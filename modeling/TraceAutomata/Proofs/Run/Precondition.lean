import TraceAutomata.Proofs.Definition.Closed
import TraceAutomata.Proofs.Run.Delivery

namespace TraceAutomata

namespace DefinitionSet

variable {d : DefinitionSet} {ctx : GuardContext} {id : String} {ids : List String}

/-- Whether an id stands for a test that passes. One that cannot be evaluated does not. -/
def TestPasses (d : DefinitionSet) (ctx : GuardContext) (id : String) : Prop :=
  ∃ input, d.test id = .ok input ∧ input.evaluate ctx = .ok true

theorem accepted_eq_true_iff {x : Except Fault Bool} : accepted x = true ↔ x = .ok true := by
  cases x with
  | ok b => simp [accepted]
  | error e => simp [accepted]

theorem testPasses_iff :
    (match d.test id with
      | .ok input => accepted (input.evaluate ctx)
      | .error _ => false) = true ↔ d.TestPasses ctx id := by
  rw [TestPasses]
  cases d.test id with
  | ok input => simp [accepted_eq_true_iff]
  | error e => simp

theorem inputPasses_iff :
    d.inputPasses ctx id = true ↔ id = TransitionInput.other ∨ d.TestPasses ctx id := by
  rw [inputPasses]
  by_cases hid : id = TransitionInput.other
  · simp [hid]
  · rw [if_neg hid, or_iff_right hid]
    exact testPasses_iff

theorem preconditionsPass_iff :
    d.preconditionsPass ctx ids = true ↔ ids = [] ∨ ∃ id ∈ ids, d.TestPasses ctx id := by
  rw [preconditionsPass, Bool.or_eq_true, List.isEmpty_iff, List.any_eq_true]
  exact or_congr_right (exists_congr fun id => and_congr_right fun _ => testPasses_iff)

def preconditionLists (d : DefinitionSet) : List (List String) :=
  d.preconditions :: d.fsms.map (·.preconditions)

theorem Closed.precondition (h : d.Closed) (hids : ids ∈ d.preconditionLists) (hid : id ∈ ids) :
    id = TransitionInput.other ∨ d.KnowsTest id := by
  by_cases hother : id = TransitionInput.other
  · exact .inl hother
  · rcases List.mem_cons.mp hids with rfl | hids
    · exact .inr (h.preconditions id hid hother)
    · obtain ⟨f, hf, rfl⟩ := List.mem_map.mp hids
      exact .inr (h.fsm_preconditions f hf id hid hother)

def OnlyOther (ids : List String) : Prop :=
  ids ≠ [] ∧ ∀ id ∈ ids, id = TransitionInput.other

theorem OnlyOther.not_pass (h : OnlyOther ids) (hother : ¬ d.KnowsTest TransitionInput.other) :
    d.preconditionsPass ctx ids = false := by
  rw [← Bool.not_eq_true, preconditionsPass_iff]
  rintro (hnil | ⟨id, hid, input, hinput, -⟩)
  · exact h.1 hnil
  · exact hother ⟨input, h.2 id hid ▸ hinput⟩

end DefinitionSet

namespace Run

open DefinitionSet

/-- At this point of a run, the preconditions decide as their tests do. -/
def Gated (r : Run) : Prop :=
  ∀ ids ∈ r.defs.preconditionLists,
    (∀ id ∈ ids, id = TransitionInput.other ∨ r.defs.KnowsTest id) ∧
      ∀ scenario event, r.defs.preconditionsPass (r.context scenario event) ids = true ↔
        ids = [] ∨
          ∃ id ∈ ids, id ≠ TransitionInput.other ∧ r.defs.TestPasses (r.context scenario event) id

theorem gated_of_closed {r : Run} (hclosed : r.defs.Closed)
    (hother : ¬ r.defs.KnowsTest TransitionInput.other) : r.Gated := by
  intro ids hids
  refine ⟨fun id => hclosed.precondition hids, fun scenario event => ?_⟩
  rw [preconditionsPass_iff]
  refine or_congr_right (exists_congr fun id => and_congr_right fun _ => ?_)
  refine ⟨fun hpass => ⟨?_, hpass⟩, And.right⟩
  rintro rfl
  obtain ⟨input, hinput, -⟩ := hpass
  exact hother ⟨input, hinput⟩

section Stopped

variable {r : Run}

/-- An fsm whose preconditions let nothing through hands no event to its scenarios. -/
theorem visit_of_onlyOther (hother : ¬ r.defs.KnowsTest TransitionInput.other) {index : Nat}
    {f : FsmDefinition} (hf : r.defs.fsms[index]? = some f) (h : OnlyOther f.preconditions)
    (event : Event) : visit event r index = r.lined index := by
  have hdefs : (r.lined index).defs = r.defs := (follows_retire _ index).defs
  have hoffer : ∀ ids : List ScenarioId,
      ids.foldl (offer f event) (r.lined index) = r.lined index := by
    intro ids
    induction ids with
    | nil => rfl
    | cons id rest ih =>
        have hsame : offer f event (r.lined index) id = r.lined index := by
          rw [offer]
          cases (r.lined index).scenario? id with
          | none => rfl
          | some s =>
              rw [hdefs]
              simp only [h.not_pass hother, Bool.and_false, Bool.false_eq_true, if_false]
        rw [List.foldl_cons, hsame, ih]
  rw [visit, ← lined]
  simp only [hdefs, hf]
  cases (r.lined index).fsms[index]? with
  | none => rfl
  | some c => exact hoffer c.active

theorem InLine.fed_perform (h : r.InLine)
    (hother : ¬ r.defs.KnowsTest TransitionInput.other)
    (honly : OnlyOther r.defs.preconditions) (call : Call) :
    fed (r.performMoments call) = [] := by
  cases call with
  | event e =>
      cases hdisposed : r.disposed with
      | true => simp [performMoments, onEventMoments, hdisposed, fed]
      | false =>
          have hdelivers := h.deliversOnce hdisposed e
          apply hdelivers.undispatched
          rw [dispatches, hdelivers.ready.follows.defs]
          exact honly.not_pass hother
  | cancel id =>
      rw [performMoments, cancelMoments]
      split <;> rfl
  | dispose =>
      rw [performMoments, disposeMoments]
      split
      · rfl
      · refine fed_eq_nil (List.forall_mem_append.mpr
          ⟨forall_mem_foldMoments (fun r id => ?_) _ _, List.forall_mem_singleton.mpr trivial⟩)
        rw [cancelMoments]
        split
        · exact List.forall_mem_singleton.mpr trivial
        · exact List.forall_mem_nil _

theorem InLine.fed_moments (h : r.InLine) (hother : ¬ r.defs.KnowsTest TransitionInput.other)
    (honly : OnlyOther r.defs.preconditions) (calls : List Call) :
    fed (r.moments calls) = [] := by
  induction calls generalizing r with
  | nil => rfl
  | cons call rest ih =>
      have hpath := perform_path h.staffed.numbered call
      have hdefs := hpath.follows.defs
      rw [moments, foldMoments, fed_append, h.fed_perform hother honly]
      exact ih (.of_path hpath h) (hdefs ▸ hother) (hdefs ▸ honly)

end Stopped

/-- In every run of an accepted document, on any store and at all of its moments, a list of
preconditions passes exactly if it is empty or one of its tests passes. If the pattern lists only the
input that always passes, no scenario is ever handed an event, and if an fsm does, none of its
scenarios is when the fsm is visited. -/
theorem preconditions_decide {d : DefinitionDocument} {defs : DefinitionSet}
    (h : d.compile = .ok defs) {store : Store} {settings : RunSettings} {r : Run}
    (hstart : Run.start defs store settings = .ok r) (calls : List Call) :
    (r.performAll calls).Gated ∧ (∀ m ∈ r.moments calls, m.run.Gated) ∧
      (OnlyOther defs.preconditions → fed (r.moments calls) = []) ∧
      ∀ m ∈ r.moments calls, ∀ index f, defs.fsms[index]? = some f →
        OnlyOther f.preconditions → ∀ event, visit event m.run index = m.run.lined index := by
  have hcompiles := (DefinitionDocument.compile_eq_ok_iff d defs).mp h
  have hother := hcompiles.not_knowsTest_other
  have hinline := start_inLine h hstart
  have hdefs : r.defs = defs := by
    obtain ⟨st, root, -, rfl⟩ := start_eq_ok_iff.mp hstart
    rfl
  have hgated : ∀ r' : Run, r'.defs = defs → r'.Gated := fun r' hdefs =>
    gated_of_closed (hdefs ▸ hcompiles.closed) (hdefs ▸ hother)
  obtain ⟨hlast, hall⟩ := (performAll_trace hinline.staffed.numbered calls).invariant
    (I := fun r => r.defs = defs) (fun _ _ _ move hdefs => move.follows.defs.trans hdefs) hdefs
  refine ⟨hgated _ hlast, fun m hm => hgated _ (hall m hm), fun honly => ?_,
    fun m hm index f hf honly => ?_⟩
  · exact hinline.fed_moments (hdefs ▸ hother) (hdefs ▸ honly) calls
  · have hdefs := hall m hm
    exact visit_of_onlyOther (hdefs ▸ hother) (hdefs ▸ hf) honly

/-- The pattern and one of its fsms list a test besides the input that always passes, and an event that
fails the test is not dispatched. -/
theorem preconditions_decide_sample :
    let calls : List Call := [.event ⟨⟨1, 0⟩, "begin", ∅, none⟩]
    let event : Event := ⟨⟨2, 0⟩, "noise", ∅, none⟩
    ∃ defs r, DefinitionDocument.nested.compile = .ok defs ∧
      Run.start defs (Store.empty 0) { spawnLimit := 2 } = .ok r ∧
      defs.preconditions = ["known", TransitionInput.other] ∧
      ["known", TransitionInput.other] ∈ defs.fsms.map (·.preconditions) ∧
      fed (r.moments calls) = [1, 2, 3] ∧ fed ((r.performAll calls).onEventMoments event) = [] ∧
      (r.performAll calls).Gated ∧ ∀ m ∈ r.moments calls, m.run.Gated := by
  intro calls event
  obtain ⟨defs, r, hcompile, hstart, hcheck⟩ :=
    DefinitionDocument.nested.exists_of_checks { spawnLimit := 2 } 0
      (fun defs r => decide (defs.preconditions = ["known", TransitionInput.other] ∧
        ["known", TransitionInput.other] ∈ defs.fsms.map (·.preconditions) ∧
        fed (r.moments calls) = [1, 2, 3] ∧ fed ((r.performAll calls).onEventMoments event) = []))
      (by decide +kernel)
  obtain ⟨hpattern, hfsm, hfed, hunfed⟩ := of_decide_eq_true hcheck
  obtain ⟨hlast, hall, -⟩ := preconditions_decide hcompile hstart calls
  exact ⟨defs, r, hcompile, hstart, hpattern, hfsm, hfed, hunfed, hlast, hall⟩

/-- A pattern of one fsm, which both list the input that always passes as their precondition. -/
def lenient : DefinitionDocument where
  id := "pattern"
  initial := ["job"]
  preconditions := [TransitionInput.other]
  scratchFields := ∅
  tests := ∅
  actions := ∅
  fsms :=
    [{ id := "job", initial := "idle", finalState := some "done",
       preconditions := [TransitionInput.other],
       states := [{ name := "idle", transitions := [{ inputs := ["other"], target := "done" }] }] }]

/-- Neither precondition lets an event through, although the only transition there is would be
taken on every event. -/
theorem lenient_preconditions_fail :
    ∃ defs r f, lenient.compile = .ok defs ∧ Run.start defs (Store.empty 0) {} = .ok r ∧
      f ∈ defs.fsms ∧ TransitionInput.other ∈ defs.preconditions ∧
      TransitionInput.other ∈ f.preconditions ∧
      (r.readied ⟨⟨10, 0⟩, "A", ∅, none⟩).dispatches ⟨⟨10, 0⟩, "A", ∅, none⟩ = false ∧
      defs.preconditionsPass (r.context "job#1" ⟨⟨10, 0⟩, "A", ∅, none⟩) f.preconditions = false ∧
      defs.inputPasses (r.context "job#1" ⟨⟨10, 0⟩, "A", ∅, none⟩) TransitionInput.other = true ∧
      fed (r.onEventMoments ⟨⟨10, 0⟩, "A", ∅, none⟩) = [] := by
  obtain ⟨defs, r, hcompile, hstart, hcheck⟩ := lenient.exists_of_checks {} 0
    (fun defs r => decide (TransitionInput.other ∈ defs.preconditions ∧
      (r.readied ⟨⟨10, 0⟩, "A", ∅, none⟩).dispatches ⟨⟨10, 0⟩, "A", ∅, none⟩ = false ∧
      fed (r.onEventMoments ⟨⟨10, 0⟩, "A", ∅, none⟩) = [] ∧
      ∃ f ∈ defs.fsms, TransitionInput.other ∈ f.preconditions ∧
        defs.preconditionsPass (r.context "job#1" ⟨⟨10, 0⟩, "A", ∅, none⟩) f.preconditions = false))
    (by decide +kernel)
  obtain ⟨hlisted, hstops, hfed, f, hf, hlisted', hfails⟩ := of_decide_eq_true hcheck
  exact ⟨defs, r, f, hcompile, hstart, hf, hlisted, hlisted', hstops, hfails,
    inputPasses_iff.mpr (.inl rfl), hfed⟩

end Run

end TraceAutomata
