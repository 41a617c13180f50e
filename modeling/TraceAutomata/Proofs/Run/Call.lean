import TraceAutomata.Proofs.Run.Passage

namespace TraceAutomata

namespace Run

/-- What no act changes, and what only grows. -/
structure Follows (r r' : Run) : Prop where
  defs : r'.defs = r.defs
  settings : r'.settings = r.settings
  root : r'.root = r.root
  created_le : r.created ≤ r'.created
  received_le : r.received ≤ r'.received
  numbered : r.Numbered → r'.Numbered

namespace Follows

variable {r r' r'' : Run}

theorem refl (r : Run) : Follows r r :=
  ⟨rfl, rfl, rfl, Nat.le_refl _, Nat.le_refl _, id⟩

theorem trans (h : Follows r r') (h' : Follows r' r'') : Follows r r'' where
  defs := h'.defs.trans h.defs
  settings := h'.settings.trans h.settings
  root := h'.root.trans h.root
  created_le := Nat.le_trans h.created_le h'.created_le
  received_le := Nat.le_trans h.received_le h'.received_le
  numbered hr := h'.numbered (h.numbered hr)

theorem of_keeps {busy : Option ScenarioId} (h : Keeps busy r r') : Follows r r' :=
  ⟨h.defs, h.settings, h.root, h.created_le, Nat.le_of_eq h.received.symm, h.numbered⟩

end Follows

theorem Numbered.filter {r r' : Run} (h : r.Numbered) (p : Scenario → Bool)
    (scenarios : r'.scenarios = r.scenarios.filter p) (created : r'.created = r.created) :
    r'.Numbered := by
  constructor
  · rw [scenarios]
    exact h.increasing.sublist List.filter_sublist
  · intro s hs
    rw [scenarios] at hs
    rw [created]
    exact h.le_created s (List.mem_of_mem_filter hs)

theorem follows_retire (r : Run) (index : Nat) : Follows r (r.retire index) := by
  rw [retire]
  cases r.fsms[index]? with
  | none => exact .refl r
  | some c =>
      exact ⟨rfl, rfl, rfl, Nat.le_refl _, Nat.le_refl _, fun h => h.filter _ rfl rfl⟩

theorem keeps_cancelLive (r : Run) (s : Scenario) : Keeps (some s.id) r (r.cancelLive s) := by
  rw [cancelLive]
  have hid : ∀ s' : Scenario, s'.id = s.id →
      ({ s'.advance .abandoned with endTime := some r.store.endTime } : Scenario).id = s.id := by
    intro s' h
    rw [advance_eq]
    exact h
  have hmodify := keeps_modifyScenario r s.id hid
  refine .trans ?_ (keeps_record _ _ _)
  refine .trans ?_ (keeps_record _ _ _)
  simp only
  split
  · exact (hmodify.trans (keeps_modifyFsm _ _ _ _)).trans (keeps_restartIfIdle _ _ _)
  · exact hmodify

end Run

open Run

theorem Move.follows {m : Moment} {r' : Run} (h : Move m r') : Follows m.run r' := by
  cases h with
  | arrive h => exact ⟨rfl, rfl, rfl, Nat.le_refl _, Nat.le_succ _, fun h => ⟨h.1, h.2⟩⟩
  | begin h => exact ⟨rfl, rfl, rfl, Nat.le_refl _, Nat.le_refl _, fun h => ⟨h.1, h.2⟩⟩
  | appoint hid hindex => exact .of_keeps (keeps_modifyFsm none _ _ _)
  | takeDue hc hdue => exact .of_keeps (keeps_modifyFsm none _ _ _)
  | decide => exact .refl _
  | abort h => exact .of_keeps (keeps_of_eq none rfl rfl rfl rfl rfl rfl rfl rfl)
  | enroll htrigger hf hc htakes hopen => exact .of_keeps (keeps_admitted _ _ _ _ _ _ _)
  | handle => exact .refl _
  | receive hs hlive hf => exact .of_keeps (keeps_receive _ _ _ _)
  | operate hs => exact .refl _
  | change hs => exact .of_keeps (keeps_record none _ _)
  | save hs => exact .of_keeps (keeps_record none _ _)
  | emit hs h => exact .of_keeps (keeps_of_eq none rfl rfl rfl rfl rfl rfl rfl rfl)
  | enter hs hf hstate ht => exact .of_keeps (keeps_enter _ _ _ _ _ _ _)
  | merge => exact .of_keeps (keeps_modifyFsm none _ _ _)
  | retire => exact follows_retire _ _
  | cancel hs hlive => exact .of_keeps (keeps_cancelLive _ _)
  | dispose => exact ⟨rfl, rfl, rfl, Nat.le_refl _, Nat.le_refl _, fun h => ⟨h.1, h.2⟩⟩

theorem Trace.follows {r r' : Run} {ms : List Moment} (h : Trace r ms r') : Follows r r' := by
  induction h with
  | nil r => exact .refl r
  | cons move _ ih => exact move.follows.trans ih

namespace Path

variable {event : Option Event} {r r' : Run} {ms : List Moment}

theorem follows (h : Path event r ms r') : Follows r r' :=
  h.trace.follows

theorem fold {α : Type} {f : Run → α → Run} {moments : Run → α → List Moment} (list : List α)
    (step : ∀ r', ∀ a ∈ list, r'.Numbered → r'.defs = r.defs →
      Path event r' (moments r' a) (f r' a)) (hr : r.Numbered) :
    Path event r (foldMoments f moments r list) (list.foldl f r) := by
  induction list generalizing r with
  | nil => exact .nil r
  | cons a rest ih =>
      have hfirst := step r a List.mem_cons_self hr rfl
      have hfollows := hfirst.follows
      refine hfirst.append (ih (fun r' b hb hr' hdefs => ?_) (hfollows.numbered hr))
      exact step r' b (List.mem_cons_of_mem _ hb) hr' (hdefs.trans hfollows.defs)

end Path

namespace Run

section Events

variable {r : Run} (hr : r.Numbered) (event : Event)

theorem numbered_modifyFsm {r : Run} (hr : r.Numbered) (index : Nat)
    (f : FsmSchedule → FsmSchedule) : (r.modifyFsm index f).Numbered :=
  (keeps_modifyFsm none r index f).numbered hr

include hr

theorem launchRoot_path (index : Nat) :
    Path (some event) r (launchRootMoments event r index) (r.launchRoot index) :=
  (launch_passage (.inl rfl) _ none hr index).path

theorem begin_path (h : r.begun = false) :
    Path (some event) r (beginMoments event r) r.begin := by
  have hr' : ({ r with begun := true } : Run).Numbered := ⟨hr.1, hr.2⟩
  refine .cons (.begin h) (Path.fold _ (fun r' id hid hnumbered hdefs => ?_) hr')
  split
  · next index hindex =>
    refine .cons (.appoint (hdefs ▸ hid) hindex) ?_
    exact launchRoot_path (numbered_modifyFsm hnumbered _ _) event index
  · exact .nil r'

theorem startDue_path (index : Nat) :
    Path (some event) r (startDueMoments event r index) (r.startDue index) := by
  rw [startDueMoments, startDue]
  cases hc : r.fsms[index]? with
  | none => exact .nil r
  | some c =>
      simp only
      split
      · next hdue =>
        refine .cons (.takeDue hc hdue) ?_
        exact launchRoot_path (numbered_modifyFsm hr _ _) event index
      · exact .nil r

theorem offer_path (f : FsmDefinition) (id : ScenarioId) :
    Path (some event) r (offerMoments f event r id) (offer f event r id) := by
  rw [offerMoments, offer]
  cases r.scenario? id with
  | none => exact .nil r
  | some s =>
      simp only
      split
      · exact (handle_passage (fun r index parent hr =>
          launch_passage (.inr rfl) _ (some parent) hr index) hr id).path
      · exact .nil r

theorem visit_path (index : Nat) :
    Path (some event) r (visitMoments event r index) (visit event r index) := by
  have hmerged : (r.modifyFsm index FsmSchedule.mergePending).Numbered :=
    numbered_modifyFsm hr _ _
  have hretired := (follows_retire (r.modifyFsm index FsmSchedule.mergePending) index).numbered
    hmerged
  refine .cons .merge (.cons .retire ?_)
  rw [visit, List.append_eq, List.nil_append]
  cases (retire (r.modifyFsm index FsmSchedule.mergePending) index).defs.fsms[index]? with
  | none => exact .nil _
  | some f =>
      cases (retire (r.modifyFsm index FsmSchedule.mergePending) index).fsms[index]? with
      | none => exact .nil _
      | some c => exact Path.fold _ (fun r' id _ hr' _ => offer_path hr' event f id) hretired

theorem opened_path :
    Path (some event) r (if r.begun then [] else beginMoments event r) r.opened := by
  rw [opened]
  cases h : r.begun with
  | false => exact begin_path hr event h
  | true => exact .nil r

omit hr in
theorem onEvent_eq (h : r.disposed = false) :
    r.onEvent event =
      let opened := (r.arrived event).opened
      let indices := List.range opened.fsms.length
      let due := indices.foldl startDue opened
      if due.defs.preconditionsPass (due.context "" event) due.defs.preconditions then
        indices.foldl (visit event) due
      else due := by
  rw [onEvent, if_neg (by simp [h])]
  rfl

theorem onEvent_path : Path (some event) r (onEventMoments r event) (r.onEvent event) := by
  rw [onEventMoments]
  cases h : r.disposed with
  | true =>
      rw [onEvent, h]
      exact .nil r
  | false =>
      rw [onEvent_eq event h]
      have harrived : (r.arrived event).Numbered := ⟨hr.1, hr.2⟩
      have hopened := opened_path harrived event
      have hdue := Path.fold (List.range (r.arrived event).opened.fsms.length)
        (fun r' index _ hr' _ => startDue_path hr' event index)
        (hopened.follows.numbered harrived)
      refine .append (.cons (.arrive h) (hopened.append hdue)) ?_
      simp only
      split
      · exact Path.fold _ (fun r' index _ hr' _ => visit_path hr' event index)
          (hdue.follows.numbered (hopened.follows.numbered harrived))
      · exact .nil _

end Events

theorem cancel_path (r : Run) (id : ScenarioId) :
    Path none r (cancelMoments r id) (r.cancel id).1 := by
  rw [cancelMoments, cancel]
  cases hfound : (r.scenario? id).filter Scenario.isLive with
  | none => exact .nil r
  | some s =>
      obtain ⟨-, hs, hlive⟩ := scenario?_of_filter hfound
      exact .single (.cancel hs hlive)

theorem cancelAll_path {r : Run} (hr : r.Numbered) (ids : List ScenarioId) :
    Path none r (foldMoments (fun r id => (r.cancel id).1) cancelMoments r ids)
      (ids.foldl (fun r id => (r.cancel id).1) r) :=
  Path.fold _ (fun r' id _ _ _ => cancel_path r' id) hr

theorem dispose_path {r : Run} (hr : r.Numbered) : Path none r (disposeMoments r) r.dispose := by
  rw [disposeMoments, dispose]
  split
  · exact .nil r
  · exact .append (cancelAll_path hr _) (.single .dispose)

end Run

def Call.event? : Call → Option Event
  | .event e => some e
  | .cancel _ => none
  | .dispose => none

namespace Run

theorem perform_path {r : Run} (hr : r.Numbered) (call : Call) :
    Path call.event? r (r.performMoments call) (r.perform call) := by
  cases call with
  | event e => exact onEvent_path hr e
  | cancel id => exact cancel_path r id
  | dispose => exact dispose_path hr

theorem performAll_trace {r : Run} (hr : r.Numbered) (calls : List Call) :
    Trace r (r.moments calls) (r.performAll calls) := by
  rw [moments, performAll]
  induction calls generalizing r with
  | nil => exact .nil r
  | cons call rest ih =>
      have hfirst := perform_path hr call
      exact hfirst.trace.append (ih (hfirst.follows.numbered hr))

end Run

end TraceAutomata
