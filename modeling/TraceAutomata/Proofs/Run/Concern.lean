import TraceAutomata.Proofs.Condition.Local
import TraceAutomata.Proofs.Run.Status

namespace TraceAutomata

def Act.Within (fsm : String) (index : Nat) : Act → Prop
  | .appoint i | .takeDue i | .decide _ i _ _ | .abort i | .enroll i _ _ | .merge i | .retire i =>
      i = index
  | .handle _ => True
  | .receive _ s | .enter _ _ s _ | .cancel s => s.fsm = fsm
  | .operate scope _ | .change scope _ _ | .save scope _ _ | .emit scope _ => scope.fsm = fsm
  | .arrive | .begin | .dispose => False

namespace Run

def Concerns (fsm : String) (index : Nat) (ms : List Moment) : Prop :=
  ∀ m ∈ ms, m.act.Within fsm index

theorem Concerns.nil (fsm : String) (index : Nat) : Concerns fsm index [] := by
  intro m hm
  cases hm

theorem Concerns.cons {fsm : String} {index : Nat} {m : Moment} {ms : List Moment}
    (hm : m.act.Within fsm index) (h : Concerns fsm index ms) : Concerns fsm index (m :: ms) :=
  List.forall_mem_cons.mpr ⟨hm, h⟩

theorem Concerns.append {fsm : String} {index : Nat} {ms ms' : List Moment}
    (h : Concerns fsm index ms) (h' : Concerns fsm index ms') : Concerns fsm index (ms ++ ms') :=
  List.forall_mem_append.mpr ⟨h, h'⟩

theorem Concerns.fold {α : Type} {f : Run → α → Run} {moments : Run → α → List Moment}
    {I : Run → Prop} {fsm : String} {index : Nat} {list : List α} {r : Run}
    (step : ∀ r, ∀ a ∈ list, I r → Concerns fsm index (moments r a) ∧ I (f r a)) (hr : I r) :
    Concerns fsm index (foldMoments f moments r list) := by
  induction list generalizing r with
  | nil => exact .nil fsm index
  | cons a rest ih =>
      obtain ⟨hfirst, hnext⟩ := step r a List.mem_cons_self hr
      exact hfirst.append (ih (fun r b hb => step r b (List.mem_cons_of_mem _ hb)) hnext)

theorem MovesForward.refl {r : Run} : MovesForward r r :=
  ⟨Nat.le_refl _, fun s hs _ => ⟨s, hs, .refl s, .refl _⟩⟩

theorem MovesForward.of_path {event : Option Event} {r r' : Run} {ms : List Moment}
    (h : Path event r ms r') (hn : r.Numbered) : MovesForward r r' := by
  induction h with
  | nil r => exact .refl
  | cons move _ ih => exact (MovesForward.of_move hn move).trans (ih (move.follows.numbered hn))

/-- A number that was given to a scenario of an fsm, if the scenario is still there. -/
structure Belongs (fsm : String) (id : ScenarioId) (r : Run) : Prop where
  le_created : id ≤ r.created
  fsm : ∀ s, r.scenario? id = some s → s.fsm = fsm

theorem Belongs.forward {fsm : String} {id : ScenarioId} {r r' : Run} (hn : r.Numbered)
    (hmoves : MovesForward r r') (h : Belongs fsm id r) : Belongs fsm id r' where
  le_created := Nat.le_trans h.le_created hmoves.created_le
  fsm s' hs' := by
    have hid := id_of_scenario? hs'
    obtain ⟨s, hs, hcard, -⟩ :=
      hmoves.reaches s' (mem_of_scenario? hs') (hid ▸ h.le_created)
    have hfound := hn.scenario?_of_mem hs
    rw [← hcard.id, hid] at hfound
    rw [hcard.fsm]
    exact h.fsm s hfound

section Handling

variable {spawn : Spawn} {spawned : Run → Nat → String → List Moment} {event : Event}
  {fsm : String} {index : Nat}

theorem slots_concern {scope : ActionScope} (hscope : scope.fsm = fsm) (r : Run)
    (slots : List (String × Value)) : Concerns fsm index (slotMoments event scope r slots) := by
  apply Concerns.fold (I := fun _ => True) _ trivial
  intro r entry _ _
  exact ⟨.cons hscope (.nil fsm index), trivial⟩

theorem operate_concern {scope : ActionScope} (hscope : scope.fsm = fsm) (r : Run)
    {op : Operation} (hop : op.isLocal = true) :
    Concerns fsm index (operateMoments spawn spawned event scope r op) := by
  unfold operateMoments
  refine .cons hscope ?_
  cases op with
  | stateChange path value =>
      simp only
      split
      · exact .cons hscope (.nil fsm index)
      · exact .nil fsm index
  | saveScratch => exact slots_concern hscope r _
  | clearScratch => exact slots_concern hscope r _
  | synthetic name fields =>
      simp only
      split
      · exact .cons hscope (.nil fsm index)
      · exact .nil fsm index
  | spawn fsms => cases hop

theorem action_concern {scope : ActionScope} (hscope : scope.fsm = fsm) {r : Run}
    (hlocal : r.defs.Local) (id : String) :
    Concerns fsm index (actionMoments spawn spawned event scope r id) := by
  rw [actionMoments]
  cases hops : r.defs.action id with
  | error e => exact .nil fsm index
  | ok ops =>
      apply Concerns.fold (I := fun _ => True) _ trivial
      intro r op hop _
      exact ⟨operate_concern hscope r (hlocal.of_action hops op hop), trivial⟩

variable (hspawn : ∀ r index parent, r.Numbered →
  Passage event none r (spawned r index parent) (spawn r index parent))

include hspawn

theorem actions_concern {s : Scenario} (hfsm : s.fsm = fsm) {r : Run} (hs : Busy s r)
    (hlocal : r.defs.Local) (actions : List String) :
    Concerns fsm index (actionsMoments spawn spawned event s.id actions r) := by
  rw [actionsMoments, hs.2.1]
  apply Concerns.fold (I := fun r => Busy s r ∧ r.defs.Local) _ ⟨hs, hlocal⟩
  rintro r id _ ⟨hs, hlocal⟩
  have hkeeps := (action_passage hspawn hs id).keeps
  refine ⟨action_concern hfsm hlocal id, Busy.keep hkeeps hs, ?_⟩
  rw [hkeeps.defs]
  exact hlocal

theorem step_concern {r : Run} (hn : r.Numbered) (hlocal : r.defs.Local) {id : ScenarioId}
    (hid : Belongs fsm id r) : Concerns fsm index (stepMoments spawn spawned event id r) := by
  rw [stepMoments]
  cases hfound : (r.scenario? id).filter Scenario.isLive with
  | none => exact .nil fsm index
  | some s =>
      obtain ⟨rfl, hs, hlive⟩ := scenario?_of_filter hfound
      have hfsm := hid.fsm s hs
      simp only
      split
      · next i f hindex hf =>
        refine .cons hfsm ?_
        split
        · exact .nil fsm index
        · next state hstate =>
          split
          · have hbusy := busy_receive hn (f := f) hs hlive event
            have hlocal' : (r.receive f s event).defs.Local := by
              rw [(keeps_receive r f s event).defs]
              exact hlocal
            exact (actions_concern hspawn (s := { s with lastEvent := some r.received }) hfsm hbusy
              hlocal' _).append (.cons hfsm (.nil fsm index))
          · exact .nil fsm index
      · exact .nil fsm index

theorem chain_concern {r : Run} (hn : r.Numbered) (hlocal : r.defs.Local) {id : ScenarioId}
    (hid : Belongs fsm id r) (allowed : Nat) :
    Concerns fsm index (chainMoments spawn spawned event id allowed r) := by
  induction allowed generalizing r with
  | zero => exact step_concern hspawn hn hlocal hid
  | succ allowed ih =>
      have hpassage := step_passage hspawn hn id
      rw [chainMoments]
      refine (step_concern hspawn hn hlocal hid).append ?_
      rcases hres : r.step spawn event id with ⟨next, outcome⟩
      rw [hres] at hpassage
      cases outcome with
      | again =>
          have hlocal' : next.defs.Local := by
            rw [hpassage.keeps.defs]
            exact hlocal
          exact ih (hpassage.keeps.numbered hn) hlocal'
            (hid.forward hn (.of_path hpassage.path hn))
      | settled => exact .nil fsm index
      | failed fault => exact .nil fsm index

end Handling

theorem spawnOn_passage (event : Event) (r : Run) (index : Nat) (parent : String)
    (hr : r.Numbered) :
    Passage event none r (spawnOnMoments event r index parent) (spawnOn event r index parent) :=
  launch_passage (.inr rfl) _ (some parent) hr index

section Visiting

variable {event : Event} {fsm : String} {index : Nat} {r : Run}

theorem offer_concern (hn : r.Numbered) (hlocal : r.defs.Local) {id : ScenarioId}
    (hid : Belongs fsm id r) (f : FsmDefinition) :
    Concerns fsm index (offerMoments f event r id) := by
  rw [offerMoments]
  cases r.scenario? id with
  | none => exact .nil fsm index
  | some s =>
      simp only
      split
      · exact .cons trivial (chain_concern (spawnOn_passage event) hn hlocal hid _)
      · exact .nil fsm index

theorem Grounded.belongs (h : r.Grounded) {g : FsmDefinition} {c : FsmSchedule}
    (hg : r.defs.fsms[index]? = some g) (hc : r.fsms[index]? = some c) {id : ScenarioId}
    (hid : id ∈ c.tracked) : Belongs g.id id r := by
  have hsound := h.scheduled.sound index g c hg hc
  refine ⟨hsound.le_created h.numbered hid, fun s hs => ?_⟩
  obtain ⟨x, hx, hxid, hfsm⟩ := (hsound.mem_tracked id).mp hid
  obtain rfl := h.numbered.eq_of_id hx (mem_of_scenario? hs) (hxid.trans (id_of_scenario? hs).symm)
  exact hfsm

theorem visit_concern (h : r.Grounded) (hlocal : r.defs.Local) {g : FsmDefinition}
    (hg : r.defs.fsms[index]? = some g) : Concerns g.id index (visitMoments event r index) := by
  have hmerged : (r.modifyFsm index FsmSchedule.mergePending).Grounded :=
    h.move (Move.merge (e := event))
  have hretired : ((r.modifyFsm index FsmSchedule.mergePending).retire index).Grounded :=
    hmerged.move (Move.retire (e := event))
  have hdefs := (follows_retire (r.modifyFsm index FsmSchedule.mergePending) index).defs
  refine .append (.cons rfl (.cons rfl (.nil _ _))) ?_
  split
  · next f c hf hc =>
    obtain rfl : g = f := by
      rw [hdefs] at hf
      exact Option.some.inj (hg.symm.trans hf)
    apply Concerns.fold
      (I := fun r => r.Numbered ∧ r.defs.Local ∧ ∀ id ∈ c.active, Belongs g.id id r)
    · rintro r id hid ⟨hn, hlocal, hall⟩
      have hpath := offer_path hn event g id
      refine ⟨offer_concern hn hlocal (hall id hid) g, hpath.follows.numbered hn, ?_, ?_⟩
      · rw [hpath.follows.defs]
        exact hlocal
      · intro id' hid'
        exact (hall id' hid').forward hn (.of_path hpath hn)
    · refine ⟨hretired.numbered, by rw [hdefs]; exact hlocal, fun id hid => ?_⟩
      exact hretired.belongs hf hc (List.mem_append_left _ hid)
  · exact .nil _ _

theorem launchRoot_concern (now : Event) (r : Run) :
    Concerns fsm index (launchRootMoments now r index) := by
  refine .cons rfl ?_
  split
  · split
    · simp only
      split
      · exact .cons rfl (.nil fsm index)
      · exact .cons rfl (.nil fsm index)
    · exact .nil fsm index
  · exact .nil fsm index

theorem startDue_concern : Concerns fsm index (startDueMoments event r index) := by
  rw [startDueMoments]
  split
  · split
    · exact .cons rfl (launchRoot_concern event _)
    · exact .nil fsm index
  · exact .nil fsm index

theorem cancel_concern {id : ScenarioId} (hid : Belongs fsm id r) :
    Concerns fsm index (cancelMoments r id) := by
  rw [cancelMoments]
  cases hfound : (r.scenario? id).filter Scenario.isLive with
  | none => exact .nil fsm index
  | some s =>
      obtain ⟨rfl, hs, -⟩ := scenario?_of_filter hfound
      exact .cons (hid.fsm s hs) (.nil fsm index)

end Visiting

end Run

end TraceAutomata
