import TraceAutomata.Proofs.Run.Unison

namespace TraceAutomata

namespace Run

section Visits

variable {f : FsmDefinition} {index : Nat} {time : Int64} {sent sent' : List SyntheticEvent}
  {r r' next next' : Run} {event : Event}

theorem launchRoot_eq {f : FsmDefinition} {c : FsmSchedule} (hf : r.defs.fsms[index]? = some f)
    (hc : r.fsms[index]? = some c) :
    r.launchRoot index =
      if r.takesScenario index f c then
        match History.openScenario r.root (Scenario.nameOf f.id (c.created + 1)) r.store with
        | .error _ st => { r with store := st }
        | .ok subtree st => r.admitted index f c none r.store.endTime subtree st
      else r := by
  rw [Run.launchRoot, launch, hf, hc]
  rfl

theorem exists_open (h : r.Anchored) (name : String) :
    ∃ subtree st, History.openScenario r.root name r.store = .ok subtree st := by
  obtain ⟨st, subtree, hopen, -⟩ := History.openScenario_spec h.tree h.root name
  exact ⟨subtree, st, hopen⟩

theorem getElem?_admitted {f : FsmDefinition} {c : FsmSchedule} {parent : Option String}
    {time : Int64} {subtree : Quark} {st : Store} (hc : r.fsms[index]? = some c) :
    (r.admitted index f c parent time subtree st).fsms[index]? =
      some { c with
        created := c.created + 1, pending := c.pending ++ [r.created + 1]
        waiting := c.waiting + 1 } := by
  rw [admitted_eq, List.getElem?_modify, hc]
  simp

theorem Matching.refl (h : Lockstep f index time sent sent' r r') :
    Matching f index time r r' r r' :=
  ⟨h.kindred, h.recorded, fun _ _ hid => hid⟩

namespace Lockstep

theorem fold_twins {g g' : Run → ScenarioId → Run}
    (change : ∀ r r' id id', Lockstep f index time sent sent' r r' → Twins f r r' id id' →
      Abreast f index time sent sent' r r' (g r id) (g' r' id'))
    {ids ids' : List ScenarioId} (h : Lockstep f index time sent sent' r r')
    (hids : List.Forall₂ (Twins f r r') ids ids') :
    Abreast f index time sent sent' r r' (ids.foldl g r) (ids'.foldl g' r') := by
  induction ids generalizing r r' ids' with
  | nil =>
      cases hids
      exact .refl h
  | cons id rest ih =>
      obtain _ | ⟨hid, hrest⟩ := hids
      have hfirst := change r r' id _ h hid
      exact hfirst.trans (ih hfirst.toLockstep (hrest.imp hfirst.twins))

theorem admitted (h : Lockstep f index time sent sent' r r') {c c' : FsmSchedule}
    (hc : r.fsms[index]? = some c) (hc' : r'.fsms[0]? = some c')
    (hline : SameLine (Twins f r r') c c') {subtree subtree' : Quark} {st st' : Store}
    (hopen : History.openScenario r.root (Scenario.nameOf f.id (c.created + 1)) r.store =
      .ok subtree st)
    (hopen' : History.openScenario r'.root (Scenario.nameOf f.id (c'.created + 1)) r'.store =
      .ok subtree' st') :
    Matching f index time r r' (r.admitted index f c none r.store.endTime subtree st)
      (r'.admitted 0 f c' none r'.store.endTime subtree' st') := by
  have hcreated : c'.created = c.created := by
    obtain ⟨_, _, rfl, -⟩ := hline
    rfl
  have hkeeps := keeps_admitted (r := r) index f c none r.store.endTime subtree st
  have hkeeps' := keeps_admitted (r := r') 0 f c' none r'.store.endTime subtree' st'
  have htwins : ∀ id id', Twins f r r' id id' →
      Twins f (r.admitted index f c none r.store.endTime subtree st)
        (r'.admitted 0 f c' none r'.store.endTime subtree' st') id id' := fun id id' hid =>
    hid.keep h.left.numbered h.right.numbered hkeeps hkeeps'
  have hnew : Twins f (r.admitted index f c none r.store.endTime subtree st)
      (r'.admitted 0 f c' none r'.store.endTime subtree' st') (r.created + 1) (r'.created + 1) := by
    refine ⟨_, _, (hkeeps.numbered h.left.numbered).scenario?_of_mem (mem_admitted.mpr (.inr rfl)),
      (hkeeps'.numbered h.right.numbered).scenario?_of_mem (mem_admitted.mpr (.inr rfl)), ?_, rfl⟩
    rw [hcreated]
    exact ⟨_, _, rfl⟩
  refine ⟨h.kindred.of_line hkeeps.steady hkeeps'.steady ?_, ?_, htwins⟩
  · obtain ⟨active, pending, rfl, hactive, hpending⟩ := hline.imp htwins
    exact ⟨_, _, getElem?_admitted hc, getElem?_admitted hc', active, pending ++ [r'.created + 1],
      rfl, hactive, List.rel_append hpending (.cons hnew .nil)⟩
  · obtain ⟨hopened, -, hend⟩ := h.left.anchored.opened
      (not_started_next h.left.nodup_ids h.kindred.here hc) hopen r.store.endTime f.id none
    obtain ⟨hopened', -, hend'⟩ := h.right.anchored.opened
      (not_started_next h.right.nodup_ids h.kindred.here' hc') hopen' r'.store.endTime f.id none
    refine ⟨?_, ?_, ?_, fun n => ?_⟩
    · rw [admitted_eq, admitted_eq]
      exact hopened'.startTime.trans (h.recorded.startTime.trans hopened.startTime.symm)
    · rw [admitted_eq]
      exact (hend (Int64.le_refl _)).trans h.recorded.endTime
    · rw [admitted_eq]
      exact (hend' (Int64.le_refl _)).trans h.recorded.endTime'
    · rw [pathOf, pathOf, hkeeps.defs, hkeeps'.defs, ← pathOf, ← pathOf, admitted_eq, admitted_eq]
      rw [hcreated] at hopened'
      rcases eq_or_ne n (c.created + 1) with rfl | hne
      · refine hopened'.below.trans (Eq.trans ?_ hopened.below.symm)
        rw [h.recorded.endTime, h.recorded.endTime']
      · have hname : Scenario.nameOf f.id n ≠ Scenario.nameOf f.id (c.created + 1) := fun heq =>
          hne (Scenario.nameOf_injective heq).2
        exact (hopened'.below_eq hname).trans ((h.recorded.below n).trans
          (hopened.below_eq hname).symm)

theorem launchRoot (h : Lockstep f index time sent sent' r r') (now : Event) :
    Abreast f index time sent sent' r r' (r.launchRoot index) (r'.launchRoot 0) := by
  obtain ⟨c, c', hc, hc', hline⟩ := h.kindred.line
  rw [launchRoot_eq h.kindred.here hc, launchRoot_eq h.kindred.here' hc',
    h.kindred.takesScenario_eq hline]
  split
  · next htakes =>
    obtain ⟨subtree, st, hopen⟩ :=
      exists_open h.left.anchored (Scenario.nameOf f.id (c.created + 1))
    obtain ⟨subtree', st', hopen'⟩ :=
      exists_open h.right.anchored (Scenario.nameOf f.id (c'.created + 1))
    rw [hopen, hopen']
    have htakes' : r'.takesScenario 0 f c' = true := by
      rw [h.kindred.takesScenario_eq hline]
      exact htakes
    have move : Move ⟨r, some now, .enroll index none none⟩ _ :=
      .enroll (.inl rfl) h.kindred.here hc htakes hopen
    have move' : Move ⟨r', some now, .enroll 0 none none⟩ _ :=
      .enroll (.inl rfl) h.kindred.here' hc' htakes' hopen'
    exact h.abreast move move' rfl rfl (h.admitted hc hc' hline hopen hopen')
  · exact .refl h

theorem startDue (h : Lockstep f index time sent sent' r r') (now : Event) :
    Abreast f index time sent sent' r r' (r.startDue index) (r'.startDue 0) := by
  obtain ⟨c, c', hc, hc', hline⟩ := h.kindred.line
  have hdue : c'.startNext = c.startNext := by
    obtain ⟨_, _, rfl, -⟩ := hline
    rfl
  rw [Run.startDue, Run.startDue, hc, hc']
  simp only [hdue]
  split
  · next hnext =>
    have htaken := h.abreast (.takeDue (e := now) hc hnext) (.takeDue (e := now) hc' (hdue ▸ hnext))
      rfl rfl ((Matching.refl h).modifyFsm fun R c c' hline => by
        obtain ⟨active, pending, rfl, hactive, hpending⟩ := hline
        exact ⟨active, pending, rfl, hactive, hpending⟩)
    exact htaken.trans (htaken.launchRoot now)
  · exact .refl h

theorem appoint (h : Lockstep f index time sent sent' r r') (now : Event)
    (hinitial : f.id ∈ r.defs.initial) :
    Abreast f index time sent sent' r r'
      ((r.modifyFsm index fun c => { c with isRoot := true }).launchRoot index)
      ((r'.modifyFsm 0 fun c => { c with isRoot := true }).launchRoot 0) := by
  have hindex : r.defs.fsmIndex? f.id = some index :=
    DefinitionSet.fsmIndex?_of_getElem? h.left.nodup_ids h.kindred.here
  have hindex' : r'.defs.fsmIndex? f.id = some 0 :=
    DefinitionSet.fsmIndex?_of_getElem? h.right.nodup_ids h.kindred.here'
  have hinitial' : f.id ∈ r'.defs.initial := by
    rw [h.kindred.defs]
    exact List.mem_cons_self
  have hnoted := h.abreast (.appoint (e := now) hinitial hindex)
    (.appoint (e := now) hinitial' hindex') rfl rfl
    ((Matching.refl h).modifyFsm fun R c c' hline => by
      obtain ⟨active, pending, rfl, hactive, hpending⟩ := hline
      exact ⟨active, pending, rfl, hactive, hpending⟩)
  exact hnoted.trans (hnoted.launchRoot now)

theorem retire (h : Lockstep f index time sent sent' r r') (now : Event)
    (hpending : ∀ c, r.fsms[index]? = some c → c.pending = []) :
    Lockstep f index time sent sent' (r.retire index) (r'.retire 0) := by
  obtain ⟨c, c', hc, hc', active, pending, rfl, hactive, hempty⟩ := h.kindred.line
  rw [hpending c hc, List.forall₂_nil_left_iff] at hempty
  subst hempty
  have move : Move ⟨r, some now, .retire index⟩ (r.retire index) := .retire
  have move' : Move ⟨r', some now, .retire 0⟩ (r'.retire 0) := .retire
  have hstore : (r.retire index).store = r.store := by
    rw [retire_eq hc]
    rfl
  have hstore' : (r'.retire 0).store = r'.store := by
    rw [retire_eq hc']
    rfl
  have hlive : List.Forall₂ (fun id id' => r.isLive id = true ∧ Twins f r r' id id')
      (c.active.filter r.isLive) (active.filter r'.isLive) := by
    rw [List.forall₂_and_left]
    constructor
    · intro id hid
      exact (List.mem_filter.mp hid).2
    · apply List.rel_filter _ hactive
      intro id id' hid
      simp only [hid.isLive_eq]
  have hstay : ∀ id id', r.isLive id = true ∧ Twins f r r' id id' →
      Twins f (r.retire index) (r'.retire 0) id id' := by
    rintro id id' ⟨hid, htwins⟩
    have hid' : r'.isLive id' = true := htwins.isLive_eq.trans hid
    obtain ⟨s, s', hs, hs', hrest⟩ := htwins
    exact ⟨s, s', (scenario?_retire hc hid).trans hs, (scenario?_retire hc' hid').trans hs', hrest⟩
  refine h.step move move' rfl rfl ?_ ?_
  · have hwithin : ∀ i, (Act.retire i).Within f.id i := fun i => rfl
    apply h.kindred.of_line (move.steady (hwithin index)) (move'.steady (hwithin 0))
    refine ⟨_, _, getElem?_retire hc, getElem?_retire hc', _, [], rfl, hlive.imp hstay, ?_⟩
    rw [hpending c hc]
    exact .nil
  · exact h.recorded.congr (follows_retire r index).defs (follows_retire r' 0).defs hstore hstore'

theorem visit (h : Lockstep f index time sent sent' r r') (htime : event.nanos ≤ time) :
    Lockstep f index time sent sent' (Run.visit event r index) (Run.visit event r' 0) := by
  have hmerged := h.abreast (.merge (e := event)) (.merge (e := event)) rfl rfl
    ((Matching.refl h).modifyFsm fun R c c' hline => by
      have htracked := hline.tracked
      obtain ⟨active, pending, rfl, -⟩ := hline
      exact ⟨active ++ pending, [], rfl, htracked, .nil⟩)
  have hretired := hmerged.retire event fun c hc => by
    rw [modifyFsm, List.getElem?_modify] at hc
    obtain ⟨_, -, rfl⟩ := Option.map_eq_some_iff.mp hc
    rw [if_pos rfl]
    rfl
  obtain ⟨c, c', hc, hc', active, pending, rfl, hactive, -⟩ := hretired.kindred.line
  rw [Run.visit, Run.visit, hretired.kindred.here, hretired.kindred.here', hc, hc']
  exact (hretired.fold_twins (fun _ _ _ _ h hid => h.offer htime hid) hactive).toLockstep

theorem cancel (h : Lockstep f index time sent sent' r r') {id id' : ScenarioId}
    (hid : Twins f r r' id id') :
    Abreast f index time sent sent' r r' (r.cancel id).1 (r'.cancel id').1 := by
  obtain ⟨s, s', hs, hs', halike, hfsm⟩ := hid
  obtain rfl := id_of_scenario? hs
  obtain rfl := id_of_scenario? hs'
  have hfsm' := halike.fsm.trans hfsm
  rw [Run.cancel, Run.cancel, hs, hs', Option.filter_some, Option.filter_some, halike.isLive]
  cases hlive : s.isLive with
  | false => exact .refl h
  | true =>
      have card : ∀ x : Scenario,
          SameCard x { x.advance .abandoned with endTime := some time } := by
        intro x
        rw [advance_eq]
        exact ⟨rfl, rfl, rfl, rfl, rfl⟩
      have halters : Alters ⟨r, none, .cancel s⟩ s _ _ := .cancel
      have hmatching := Matching.altered h (cancelGroups time s.state) hs hs' halike (card s)
        (card s') (halike.cancelled time) fun writes hwrites w hw => by
          rw [← h.recorded.endTime] at hwrites ⊢
          rw [halters.time_eq hlive writes hwrites w hw]
          exact Int64.le_refl _
      have move : Move ⟨r, none, .cancel s⟩ _ := .cancel hs hlive
      have move' : Move ⟨r', none, .cancel s'⟩ _ := .cancel hs' (halike.isLive.trans hlive)
      simp only [if_true]
      rw [cancelLive_altered h.left.numbered hs, (h.ofFsm hfsm).1, h.recorded.endTime] at move ⊢
      rw [cancelLive_altered h.right.numbered hs', (h.ofFsm' hfsm').1, h.recorded.endTime',
        halike.state, halike.isWaiting] at move' ⊢
      refine h.abreast move move' rfl rfl (hmatching.modifyFsm fun R c c' hline => ?_).restartIfIdle
      obtain ⟨active, pending, rfl, hactive, hpending⟩ := hline
      exact ⟨active, pending, rfl, hactive, hpending⟩

end Lockstep

end Visits

end Run

end TraceAutomata
