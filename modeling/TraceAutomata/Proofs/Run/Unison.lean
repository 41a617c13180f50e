import TraceAutomata.Proofs.Run.Lockstep

namespace TraceAutomata

namespace Run

/-- Two runs are in step, and all twins that there were are still twins. -/
structure Abreast (f : FsmDefinition) (index : Nat) (time : Int64)
    (sent sent' : List SyntheticEvent) (r r' next next' : Run) : Prop
    extends Lockstep f index time sent sent' next next' where
  twins : ∀ id id', Twins f r r' id id' → Twins f next next' id id'

section Unison

variable {f : FsmDefinition} {index : Nat} {time : Int64} {sent sent' : List SyntheticEvent}
  {r r' next next' last last' : Run} {s s' : Scenario} {event : Event}

theorem Abreast.refl (h : Lockstep f index time sent sent' r r') :
    Abreast f index time sent sent' r r' r r' :=
  ⟨h, fun _ _ hid => hid⟩

theorem Abreast.trans (h : Abreast f index time sent sent' r r' next next')
    (h' : Abreast f index time sent sent' next next' last last') :
    Abreast f index time sent sent' r r' last last' :=
  ⟨h'.toLockstep, fun id id' hid => h'.twins id id' (h.twins id id' hid)⟩

theorem Twins.congr {id id' : ScenarioId} (scenarios : next.scenarios = r.scenarios)
    (scenarios' : next'.scenarios = r'.scenarios) (h : Twins f r r' id id') :
    Twins f next next' id id' := by
  obtain ⟨s, s', hs, hs', hrest⟩ := h
  rw [scenario?, ← scenarios, ← scenario?] at hs
  rw [scenario?, ← scenarios', ← scenario?] at hs'
  exact ⟨s, s', hs, hs', hrest⟩

/-- A change of two runs that leaves them with the same of the fsm, and with the same twins. -/
structure Matching (f : FsmDefinition) (index : Nat) (time : Int64) (r r' next next' : Run) :
    Prop where
  kindred : Kindred f index next next'
  recorded : SameRecord f time next next'
  twins : ∀ id id', Twins f r r' id id' → Twins f next next' id id'

namespace Matching

theorem modifyFsm (h : Matching f index time r r' next next') {g g' : FsmSchedule → FsmSchedule}
    (hg : ∀ R c c', SameLine R c c' → SameLine R (g c) (g' c')) :
    Matching f index time r r' (next.modifyFsm index g) (next'.modifyFsm 0 g') :=
  ⟨h.kindred.modifyFsm fun c c' => hg _ c c', h.recorded.congr rfl rfl rfl rfl, h.twins⟩

theorem restartIfIdle (h : Matching f index time r r' next next') :
    Matching f index time r r' (next.restartIfIdle index) (next'.restartIfIdle 0) := by
  have hunmoved := unmoved_restartIfIdle next index
  have hunmoved' := unmoved_restartIfIdle next' 0
  refine ⟨h.kindred.restartIfIdle, ?_, fun id id' hid => ?_⟩
  · exact h.recorded.congr (keeps_restartIfIdle none next index).defs
      (keeps_restartIfIdle none next' 0).defs hunmoved.store hunmoved'.store
  · exact (h.twins id id' hid).congr hunmoved.scenarios hunmoved'.scenarios

theorem altered (h : Lockstep f index time sent sent' r r') {t t' : Scenario}
    (groups : List (List Write)) (hs : r.scenario? s.id = some s)
    (hs' : r'.scenario? s'.id = some s') (halike : s.Alike s') (card : SameCard s t)
    (card' : SameCard s' t') (hnext : t.Alike t')
    (htime : ∀ writes ∈ groups, ∀ w ∈ writes, w.time ≤ time) :
    Matching f index time r r' (r.altered s t groups) (r'.altered s' t' groups) := by
  have hl := h.left.anchored
  have hr := h.right.anchored
  refine ⟨?_, ?_, fun id id' hid => ?_⟩
  · exact h.kindred.altered hl hr hs hs' halike card card' hnext
  · exact h.recorded.recordAll groups hl hr (mem_of_scenario? hs) (mem_of_scenario? hs') halike
      htime rfl rfl rfl rfl
  · exact hid.altered hl hr hs hs' halike card card' hnext

end Matching

theorem Lockstep.abreast (h : Lockstep f index time sent sent' r r') {e e' : Option Event}
    {act act' : Act} (move : Move ⟨r, e, act⟩ next) (move' : Move ⟨r', e', act'⟩ next')
    (hact : act.emitted? = none) (hact' : act'.emitted? = none)
    (hm : Matching f index time r r' next next') :
    Abreast f index time sent sent' r r' next next' :=
  ⟨h.step move move' hact hact' hm.kindred hm.recorded, hm.twins⟩

namespace Lockstep

theorem ofFsm (h : Lockstep f index time sent sent' r r') (hfsm : s.fsm = f.id) :
    r.OfFsm s index f :=
  .of_getElem? h.left.nodup_ids h.kindred.here hfsm

theorem ofFsm' (h : Lockstep f index time sent sent' r r') (hfsm : s.fsm = f.id) :
    r'.OfFsm s 0 f :=
  .of_getElem? h.right.nodup_ids h.kindred.here' hfsm

theorem receive (h : Lockstep f index time sent sent' r r') (hs : r.scenario? s.id = some s)
    (hs' : r'.scenario? s'.id = some s') (halike : s.Alike s') (hfsm : s.fsm = f.id)
    (hlive : s.isLive = true) (htime : event.nanos ≤ time) :
    Abreast f index time sent sent' r r' (r.receive f s event) (r'.receive f s' event) := by
  have hsame : receiveGroups f s' event.nanos = receiveGroups f s event.nanos := by
    rw [receiveGroups, receiveGroups, halike.hasStarted, halike.state]
  have hfsm' := halike.fsm.trans hfsm
  have hlive' := halike.isLive.trans hlive
  have hnext : Scenario.Alike { s with lastEvent := some r.received }
      { s' with lastEvent := some r'.received } := by
    rw [h.kindred.received]
    exact halike.handled _
  have move : Move ⟨r, some event, _⟩ _ := .receive hs hlive (h.ofFsm hfsm)
  have move' : Move ⟨r', some event, _⟩ _ := .receive hs' hlive' (h.ofFsm' hfsm')
  have halters : Alters ⟨r, some event, .receive f s⟩ s _ _ := .receive (h.ofFsm hfsm)
  have card : SameCard s { s with lastEvent := some r.received } := ⟨rfl, rfl, rfl, rfl, rfl⟩
  have card' : SameCard s' { s' with lastEvent := some r'.received } := ⟨rfl, rfl, rfl, rfl, rfl⟩
  rw [receive_altered h.left.numbered hs] at move ⊢
  rw [receive_altered h.right.numbered hs', hsame] at move' ⊢
  refine h.abreast move move' rfl rfl (.altered h _ hs hs' halike card card' hnext ?_)
  intro writes hwrites w hw
  rw [halters.time_eq hlive writes hwrites w hw]
  exact htime

end Lockstep

theorem status_advance (s : Scenario) (next : ScenarioStatus) :
    (s.advance next).status = if s.status.canBecome next then next else s.status := by
  rw [Scenario.advance]
  split <;> rfl

theorem leavesInitial_alike (h : s.Alike s') (f : FsmDefinition) (current next : String) :
    leavesInitial f s' current next = leavesInitial f s current next := by
  rw [leavesInitial, leavesInitial, h.isWaiting]

/-- A transition does not depend on the number and the place of a scenario. -/
theorem moved_alike (h : s.Alike s') (f : FsmDefinition) (current next : String) (time : Int64) :
    (moved f current next time s).Alike (moved f current next time s') := by
  have hleaves := leavesInitial_alike h f current next
  have hstatus : (moved f current next time s').status = (moved f current next time s).status := by
    have hcurrent := h.status
    rw [moved, moved, hleaves]
    cases leavesInitial f s current next <;> cases f.isAbandon next <;> cases f.isFinal next <;>
      simp [status_advance, hcurrent]
  obtain ⟨id, subtree, rfl⟩ := h
  refine ⟨id, subtree, ?_⟩
  rw [moved_eq, hstatus, hleaves]
  conv_rhs => rw [moved_eq]

theorem SameLine.counted {R : ScenarioId → ScenarioId → Prop} {c c' : FsmSchedule}
    (h : SameLine R c c') (f : FsmDefinition) (left : Bool) (status : ScenarioStatus) :
    SameLine R (Run.counted f left status c) (Run.counted f left status c') := by
  obtain ⟨active, pending, rfl, hactive, hpending⟩ := h
  cases left <;> cases status <;> exact ⟨active, pending, rfl, hactive, hpending⟩

namespace Lockstep

theorem enter (h : Lockstep f index time sent sent' r r') (ha : Pair f s s' r r')
    (htime : event.nanos ≤ time) {state : StateDefinition} (hstate : f.state? s.state = some state)
    {t : Transition} (ht : t ∈ state.transitions) :
    Abreast f index time sent sent' r r' (r.enter index f s.id s.state t.target event.nanos).1
        (r'.enter 0 f s'.id s.state t.target event.nanos).1 ∧
      (r'.enter 0 f s'.id s.state t.target event.nanos).2 =
        (r.enter index f s.id s.state t.target event.nanos).2 := by
  obtain ⟨hbusy, hbusy', halike, hfsm⟩ := ha
  have hs := hbusy.2.1
  have hs' := hbusy'.2.1
  have hfsm' := halike.fsm.trans hfsm
  have hnext := moved_alike halike f s.state t.target event.nanos
  have halters : Alters ⟨r, some event, .enter index f s t.target⟩ s _ _ :=
    .enter hbusy.2 (h.ofFsm hfsm) hstate ht
  have move : Move ⟨r, some event, .enter index f s t.target⟩ _ :=
    .enter hbusy.2 (h.ofFsm hfsm) hstate ht
  have move' : Move ⟨r', some event, .enter 0 f s' t.target⟩ _ :=
    .enter hbusy'.2 (h.ofFsm' hfsm') (halike.state ▸ hstate) ht
  have card' : SameCard s' (moved f s.state t.target event.nanos s') := by
    rw [moved_eq]
    exact ⟨rfl, rfl, rfl, rfl, rfl⟩
  have hmatching : Matching f index time r r' _ _ :=
    (Matching.altered h _ hs hs' halike halters.sameCard card' hnext fun writes hwrites w hw => by
      rw [halters.time_eq hbusy.2.2.1 writes hwrites w hw]
      exact htime).modifyFsm fun R c c' hline => hline.counted f
        (leavesInitial f s s.state t.target) (moved f s.state t.target event.nanos s).status
  have hright := enter_altered hs' 0 f s.state t.target event.nanos
  simp only [leavesInitial_alike halike, hnext.status] at hright
  rw [halike.state] at move'
  rw [enter_altered hs] at move ⊢
  rw [hright] at move' ⊢
  simp only at move move' ⊢
  split at move
  · next hterminal =>
    rw [if_pos hterminal] at move' ⊢
    rw [if_pos hterminal]
    exact ⟨h.abreast move move' rfl rfl hmatching.restartIfIdle, rfl⟩
  · next hterminal =>
    rw [if_neg hterminal] at move' ⊢
    rw [if_neg hterminal]
    split at move
    · next hagain =>
      rw [if_pos hagain] at move' ⊢
      rw [if_pos hagain]
      exact ⟨h.abreast move move' rfl rfl hmatching, rfl⟩
    · next hagain =>
      rw [if_neg hagain] at move' ⊢
      rw [if_neg hagain]
      exact ⟨h.abreast move move' rfl rfl hmatching, rfl⟩

theorem takeStep (h : Lockstep f index time sent sent' r r') (htime : event.nanos ≤ time)
    {id id' : ScenarioId} (hid : Twins f r r' id id') :
    Abreast f index time sent sent' r r' (r.step (spawnOn event) event id).1
        (r'.step (spawnOn event) event id').1 ∧
      (r'.step (spawnOn event) event id').2 = (r.step (spawnOn event) event id).2 := by
  obtain ⟨s, s', hs, hs', halike, hfsm⟩ := hid
  obtain rfl := id_of_scenario? hs
  obtain rfl := id_of_scenario? hs'
  have hfsm' := halike.fsm.trans hfsm
  rw [Run.step, Run.step, hs, hs', Option.filter_some, Option.filter_some, halike.isLive]
  cases hlive : s.isLive with
  | false => exact ⟨.refl h, rfl⟩
  | true =>
      have hreceive := h.receive hs hs' halike hfsm hlive htime
      have hbusy := busy_receive h.left.numbered (f := f) hs hlive event
      have hbusy' := busy_receive h.right.numbered (f := f) hs' (halike.isLive.trans hlive) event
      simp only [if_true, (h.ofFsm hfsm).1, (h.ofFsm hfsm).2, (h.ofFsm' hfsm').1,
        (h.ofFsm' hfsm').2, halike.state, halike.name]
      cases hstate : f.state? s.state with
      | none => exact ⟨hreceive, rfl⟩
      | some state =>
          have hpair : Pair f { s with lastEvent := some r.received }
              { s' with lastEvent := some r'.received } (r.receive f s event)
              (r'.receive f s' event) := by
            refine ⟨hbusy, hbusy', ?_, hfsm⟩
            rw [h.kindred.received]
            exact halike.handled _
          have hresolve : (r'.receive f s' event).defs.resolve state
              ((r'.receive f s' event).context s.name event) =
                (r.receive f s event).defs.resolve state
                  ((r.receive f s event).context s.name event) := by
            rw [hreceive.kindred.defs]
            exact hreceive.locale.resolve_eq
              (hreceive.agree (s := { s with lastEvent := some r.received })
                (mem_of_scenario? hbusy.2.1) hfsm event) state
          simp only [hresolve]
          split
          · next hmatched =>
            obtain ⟨t, ht, htarget⟩ := exists_of_resolve hmatched
            rw [htarget]
            generalize ((r.receive f s event).defs.resolve state
              ((r.receive f s event).context s.name event)).actions = actions
            have hkeeps := (actions_passage (spawnOn_passage event) hbusy actions).keeps
            have hkeeps' := (actions_passage (spawnOn_passage event) hbusy' actions).keeps
            have hactions := hreceive.actions hpair htime actions
            have henter := hactions.enter (hpair.keep hkeeps hkeeps') htime hstate ht
            refine ⟨(hreceive.trans ⟨hactions, fun id id' hid => ?_⟩).trans henter.1, ?_⟩
            · exact hid.keep hreceive.left.numbered hreceive.right.numbered hkeeps hkeeps'
            · exact henter.2
          · exact ⟨hreceive, rfl⟩

theorem chain (h : Lockstep f index time sent sent' r r') (htime : event.nanos ≤ time)
    {id id' : ScenarioId} (hid : Twins f r r' id id') (allowed : Nat) :
    Abreast f index time sent sent' r r' (Run.chain (spawnOn event) event id allowed r)
      (Run.chain (spawnOn event) event id' allowed r') := by
  induction allowed generalizing r r' with
  | zero => exact (h.takeStep htime hid).1
  | succ allowed ih =>
      have hstep := h.takeStep htime hid
      rw [Run.chain, Run.chain]
      generalize r.step (spawnOn event) event id = result at hstep
      generalize r'.step (spawnOn event) event id' = result' at hstep
      obtain ⟨next, outcome⟩ := result
      obtain ⟨next', outcome'⟩ := result'
      obtain ⟨hnext, rfl⟩ := hstep
      cases outcome' with
      | again => exact hnext.trans (ih hnext.toLockstep (hnext.twins id id' hid))
      | settled => exact hnext
      | failed fault => exact hnext

theorem handle (h : Lockstep f index time sent sent' r r') (htime : event.nanos ≤ time)
    {id id' : ScenarioId} (hid : Twins f r r' id id') :
    Abreast f index time sent sent' r r' (Run.handle (spawnOn event) event id r)
      (Run.handle (spawnOn event) event id' r') := by
  have hlimit : r'.chainLimit id' = r.chainLimit id := by
    obtain ⟨s, s', hs, hs', halike, hfsm⟩ := hid
    have hfsm' := halike.fsm.trans hfsm
    rw [chainLimit, chainLimit, h.kindred.settings, hs, hs', Option.bind_some, Option.bind_some,
      (h.ofFsm hfsm).2, (h.ofFsm' hfsm').2]
  rw [Run.handle, Run.handle, hlimit]
  exact h.chain htime hid _

theorem offer (h : Lockstep f index time sent sent' r r') (htime : event.nanos ≤ time)
    {id id' : ScenarioId} (hid : Twins f r r' id id') :
    Abreast f index time sent sent' r r' (Run.offer f event r id) (Run.offer f event r' id') := by
  have hhandle := h.handle htime hid
  obtain ⟨s, s', hs, hs', ⟨_, _, rfl⟩, hfsm⟩ := hid
  have hpass : r'.defs.preconditionsPass (r'.context s.name event) f.preconditions =
      r.defs.preconditionsPass (r.context s.name event) f.preconditions := by
    rw [h.kindred.defs]
    exact h.locale.preconditionsPass_eq (h.agree (mem_of_scenario? hs) hfsm event) f.preconditions
  rw [Run.offer, Run.offer, hs, hs']
  simp only [h.kindred.received, hpass]
  change Abreast f index time sent sent' r r' _ (if (s.isLive && _ && _) = true then _ else _)
  split
  · exact hhandle
  · exact .refl h

end Lockstep

end Unison

end Run

end TraceAutomata
