import TraceAutomata.Proofs.Run.Begin

namespace TraceAutomata

namespace Run

def Elsewhere (index : Nat) (id : ScenarioId) (r : Run) : Prop :=
  ∃ j k, r.defs.fsms[j]? = some k ∧ index ≠ j ∧ Belongs k.id id r

theorem Elsewhere.forward {index : Nat} {id : ScenarioId} {event : Option Event} {r next : Run}
    {ms : List Moment} (hpath : Path event r ms next) (hn : r.Numbered)
    (h : Elsewhere index id r) : Elsewhere index id next := by
  obtain ⟨j, k, hk, hne, hbelongs⟩ := h
  refine ⟨j, k, ?_, hne, hbelongs.forward hn (.of_path hpath hn)⟩
  rw [hpath.follows.defs]
  exact hk

theorem Grounded.elsewhere {index j : Nat} {id : ScenarioId} {r : Run} {c : FsmSchedule}
    (h : r.Grounded) (hc : r.fsms[j]? = some c) (hne : index ≠ j) (hid : id ∈ c.tracked) :
    Elsewhere index id r := by
  obtain ⟨k, hk⟩ := h.scheduled.exists_fsm hc
  exact ⟨j, k, hk, hne, h.belongs hk hc hid⟩

namespace InStep

variable {f : FsmDefinition} {index : Nat} {time : Int64} {r r' : Run} {event : Event}

theorem arrive (h : InStep f index time r r') (event : Event) (hdisposed : r.disposed = false) :
    InStep f index (r.arrived event).store.endTime (r.arrived event) (r'.arrived event) := by
  have hdisposed' : r'.disposed = false := h.kindred.disposed.trans hdisposed
  refine ⟨h.left.move (.arrive (e := event) hdisposed),
    h.right.move (.arrive (e := event) hdisposed'),
    h.locale, ⟨h.kindred.here, h.kindred.defs, h.kindred.settings, ?_, h.kindred.begun,
      h.kindred.disposed, h.kindred.line⟩, ⟨?_, rfl, ?_, fun n => ?_⟩, [], ?_, ?_⟩
  · exact congrArg (· + 1) h.kindred.received
  · rw [arrived, arrived, Store.startTime_extendTo, Store.startTime_extendTo]
    exact h.recorded.startTime
  · rw [arrived, arrived, Store.endTime_extendTo, Store.endTime_extendTo, h.recorded.endTime,
      h.recorded.endTime']
  · funext p
    have hbelow := congrFun (h.recorded.below n) p
    simp only [Store.below] at hbelow
    simp only [Store.below, arrived, Store.historyAt?_extendTo]
    exact hbelow
  · rw [List.append_nil]
  · rw [List.append_nil]

theorem below_nameless {r : Run} (h : r.Anchored) (p : List String) :
    r.store.below (r.pathOf "") p = none := by
  apply below_of_not_started h
  rintro ⟨fsm, sequence, -, hname⟩
  have htext := congrArg String.toList hname
  rw [Scenario.toList_nameOf] at htext
  exact List.append_ne_nil_of_right_ne_nil _ (List.cons_ne_nil _ _) htext.symm

theorem preconditionsPass_eq (h : InStep f index time r r') (event : Event) :
    r'.defs.preconditionsPass (r'.context "" event) r'.defs.preconditions =
      r.defs.preconditionsPass (r.context "" event) r.defs.preconditions := by
  have hagree : (r.context "" event).Agree (r'.context "" event) := by
    apply h.recorded.agree h.left.anchored h.right.anchored
    funext p
    rw [below_nameless h.left.anchored, below_nameless h.right.anchored]
  rw [h.kindred.defs]
  exact h.locale.preconditionsPass_eq hagree _

theorem onEvent (h : InStep f index time r r') (hinitial : f.id ∈ r.defs.initial) :
    ∃ time', Tandem f index time' r' (r.onEventMoments event) (r.onEvent event)
      (r'.onEvent event) := by
  rw [onEventMoments]
  cases hdisposed : r.disposed with
  | true =>
      rw [Run.onEvent, Run.onEvent, h.kindred.disposed, hdisposed]
      exact ⟨time, .nil h⟩
  | false =>
      have harrived := h.arrive event hdisposed
      have htime : event.nanos ≤ (r.arrived event).store.endTime := Store.le_endTime_extendTo _ _
      have hopened := harrived.opened htime hinitial
      obtain ⟨hdue, hlength⟩ := hopened.inStep.sweep (fun _ i hr => startDue_path hr event i)
        (fun _ _ _ _ _ _ => startDue_concern) (fun _ _ h => (Lockstep.startDue h event).toLockstep)
        htime rfl
      obtain ⟨hvisited, -⟩ := hdue.inStep.sweep (fun _ i hr => visit_path hr event i)
        (fun _ _ _ hr hlocal hk => visit_concern hr hlocal hk)
        (fun _ _ h => Lockstep.visit h htime) htime hlength
      have hfirst : Tandem f index _ r' [⟨r, some event, .arrive⟩] _ _ :=
        Tandem.single r harrived rfl rfl
      have hbefore := (hfirst.append hopened).append hdue
      have hpass := hdue.inStep.preconditionsPass_eq event
      refine ⟨(r.arrived event).store.endTime, ?_⟩
      rw [onEvent_eq event hdisposed, onEvent_eq event (h.kindred.disposed.trans hdisposed)]
      simp only [hopened.inStep.length_eq_one, Bool.false_eq_true, if_false, List.range_one,
        List.foldl_cons, List.foldl_nil, hpass]
      exact hbefore.guard hvisited _

theorem cancel_others (h : InStep f index time r r') {ids : List ScenarioId}
    (hids : ∀ id ∈ ids, Elsewhere index id r) :
    Tandem f index time r' (foldMoments (fun r id => (r.cancel id).1) cancelMoments r ids)
        (ids.foldl (fun r id => (r.cancel id).1) r) r' ∧
      (ids.foldl (fun r id => (r.cancel id).1) r).fsms[index]? = r.fsms[index]? := by
  induction ids generalizing r with
  | nil => exact ⟨.nil h, rfl⟩
  | cons id rest ih =>
      have hpath := cancel_path r id
      obtain ⟨j, k, hk, hne, hbelongs⟩ := hids id List.mem_cons_self
      have habout : Concerns k.id j (cancelMoments r id) := cancel_concern hbelongs
      have hnone : ∀ e : Event, none = some e → e.nanos ≤ time := fun e he => by cases he
      have hfirst := Tandem.other h hpath hk hne habout hnone
      obtain ⟨hrest, hline⟩ := ih hfirst.inStep fun id' hid' =>
        (hids id' (List.mem_cons_of_mem _ hid')).forward hpath h.left.numbered
      exact ⟨hfirst.append hrest, hline.trans (h.untouched hpath hk hne habout hnone).schedule⟩

theorem cancel_own (h : InStep f index time r r') {ids ids' : List ScenarioId}
    (hids : List.Forall₂ (Twins f r r') ids ids') :
    Tandem f index time r' (foldMoments (fun r id => (r.cancel id).1) cancelMoments r ids)
      (ids.foldl (fun r id => (r.cancel id).1) r)
      (ids'.foldl (fun r id => (r.cancel id).1) r') := by
  induction ids generalizing r r' ids' with
  | nil =>
      cases hids
      exact .nil h
  | cons id rest ih =>
      obtain _ | ⟨hid, hrest⟩ := hids
      have hfirst := Lockstep.cancel h hid
      have hbelongs : Belongs f.id id r := by
        obtain ⟨s, -, hs, -, -, hfsm⟩ := hid
        refine ⟨?_, fun x hx => ?_⟩
        · rw [← id_of_scenario? hs]
          exact h.left.numbered.le_created s (mem_of_scenario? hs)
        · obtain rfl := Option.some.inj (hs.symm.trans hx)
          exact hfsm
      have htandem : Tandem f index time r' (cancelMoments r id) _ _ :=
        .own hfirst.toLockstep (cancel_path r id) (cancel_concern hbelongs)
      exact htandem.append (ih htandem.inStep (hrest.imp hfirst.twins))

theorem disposed (h : InStep f index time r r') :
    InStep f index time { r with disposed := true } { r' with disposed := true } := by
  have hkindred : Kindred f index { r with disposed := true } { r' with disposed := true } :=
    ⟨h.kindred.here, h.kindred.defs, h.kindred.settings, h.kindred.received, h.kindred.begun, rfl,
      h.kindred.line⟩
  have hrecorded : SameRecord f time { r with disposed := true } { r' with disposed := true } :=
    h.recorded.congr rfl rfl rfl rfl
  exact (Lockstep.step h .dispose .dispose rfl rfl hkindred hrecorded).inStep

theorem dispose (h : InStep f index time r r') :
    Tandem f index time r' (disposeMoments r) r.dispose r'.dispose := by
  rw [disposeMoments, Run.dispose, Run.dispose, h.kindred.disposed]
  cases hdisposed : r.disposed with
  | true => exact .nil h
  | false =>
      obtain ⟨c, c', hc, hc', -⟩ := h.kindred.line
      have hright : r'.fsms.flatMap FsmSchedule.tracked = c'.tracked := by
        obtain ⟨c₀, hone⟩ := List.length_eq_one_iff.mp h.length_eq_one
        rw [hone] at hc' ⊢
        obtain rfl : c₀ = c' := Option.some.inj hc'
        simp
      have hsplit : r.fsms = r.fsms.take index ++ c :: r.fsms.drop (index + 1) := by
        obtain ⟨hlt, rfl⟩ := List.getElem?_eq_some_iff.mp hc
        rw [← List.drop_eq_getElem_cons hlt, List.take_append_drop]
      have hbefore : ∀ id ∈ (r.fsms.take index).flatMap FsmSchedule.tracked,
          Elsewhere index id r := by
        intro id hid
        obtain ⟨cj, hcj, hid⟩ := List.mem_flatMap.mp hid
        obtain ⟨j, hj, rfl⟩ := List.mem_take_iff_getElem.mp hcj
        have hlt := Nat.lt_min.mp hj
        exact h.left.elsewhere (List.getElem?_eq_getElem hlt.2) (Nat.ne_of_gt hlt.1) hid
      have hafter : ∀ id ∈ (r.fsms.drop (index + 1)).flatMap FsmSchedule.tracked,
          Elsewhere index id r := by
        intro id hid
        obtain ⟨cj, hcj, hid⟩ := List.mem_flatMap.mp hid
        obtain ⟨j, hj, rfl⟩ := List.mem_drop_iff_getElem.mp hcj
        exact h.left.elsewhere (List.getElem?_eq_getElem (by omega)) (by omega) hid
      have hids : r.fsms.flatMap FsmSchedule.tracked =
          (r.fsms.take index).flatMap FsmSchedule.tracked ++
            (c.tracked ++ (r.fsms.drop (index + 1)).flatMap FsmSchedule.tracked) := by
        conv_lhs => rw [hsplit]
        rw [List.flatMap_append, List.flatMap_cons]
      obtain ⟨hfirst, hsame⟩ := h.cancel_others hbefore
      obtain ⟨c₁, c₁', hc₁, hc₁', hline⟩ := hfirst.inStep.kindred.line
      obtain rfl : c = c₁ := Option.some.inj (hc.symm.trans (hsame.symm.trans hc₁))
      obtain rfl : c' = c₁' := Option.some.inj (hc'.symm.trans hc₁')
      have hown := hfirst.inStep.cancel_own hline.tracked
      obtain ⟨hlast, -⟩ := hown.inStep.cancel_others fun id hid =>
        ((hafter id hid).forward (cancelAll_path h.left.numbered _) h.left.numbered).forward
          (cancelAll_path hfirst.inStep.left.numbered _) hfirst.inStep.left.numbered
      have hall := hfirst.append (hown.append hlast)
      rw [← foldMoments_append, ← List.foldl_append] at hall
      rw [← foldMoments_append, ← List.foldl_append, ← hids] at hall
      rw [hright]
      exact hall.append (.single _ hall.inStep.disposed rfl rfl)

theorem perform (h : InStep f index time r r') (hinitial : f.id ∈ r.defs.initial) (call : Call)
    (hcall : ∀ id, call ≠ .cancel id) :
    ∃ time', Tandem f index time' r' (r.performMoments call) (r.perform call)
      (r'.perform call) := by
  cases call with
  | event e => exact h.onEvent hinitial
  | cancel id => exact (hcall id rfl).elim
  | dispose => exact ⟨time, h.dispose⟩

/-- The two runs are in step after any calls, as long as no single scenario is cancelled. -/
theorem performAll (h : InStep f index time r r') (hinitial : f.id ∈ r.defs.initial)
    {calls : List Call} (hcalls : ∀ id, .cancel id ∉ calls) :
    ∃ time', Tandem f index time' r' (r.moments calls) (r.performAll calls)
      (r'.performAll calls) := by
  induction calls generalizing r r' time with
  | nil => exact ⟨time, .nil h⟩
  | cons call rest ih =>
      obtain ⟨time₁, hfirst⟩ := h.perform hinitial call fun id heq =>
        hcalls id (heq ▸ List.mem_cons_self)
      have hdefs := (perform_path h.left.numbered call).follows.defs
      obtain ⟨time₂, hrest⟩ := ih hfirst.inStep (hdefs ▸ hinitial) fun id hid =>
        hcalls id (List.mem_cons_of_mem _ hid)
      exact ⟨time₂, hfirst.append hrest⟩

end InStep

theorem Fresh.inStep {defs : DefinitionSet} {settings : RunSettings} {time : Int64} {r r' : Run}
    {f : FsmDefinition} {index : Nat} (h : r.Fresh defs settings time)
    (h' : r'.Fresh (defs.only f) settings time) (hground : r.Grounded) (hground' : r'.Grounded)
    (hlocal : defs.Local) (hf : defs.fsms[index]? = some f) : InStep f index time r r' where
  left := hground
  right := hground'
  locale := by
    rw [h.defs]
    exact hlocal
  kindred :=
    { here := by rw [h.defs, hf]
      defs := by rw [h'.defs, h.defs]
      settings := by rw [h'.settings, h.settings]
      received := by rw [h'.received, h.received]
      begun := by rw [h'.begun, h.begun]
      disposed := by rw [h'.disposed, h.disposed]
      line := by
        refine ⟨{ id := f.id }, { id := f.id }, ?_, ?_, [], [], rfl, .nil, .nil⟩
        · rw [h.fsms, List.getElem?_map, hf]
          rfl
        · rw [h'.fsms]
          rfl }
  recorded :=
    { startTime := h'.startTime.trans h.startTime.symm
      endTime := h.endTime
      endTime' := h'.endTime
      below := by
        intro n
        funext p
        rw [Store.below, Store.below, pathOf, pathOf, h.defs, h'.defs, h.historyAt?, h'.historyAt?]
        rfl }
  emitted := ⟨[], by simp, by simp⟩

end Run

end TraceAutomata
