import TraceAutomata.Proofs.Run.Path

/-!
The moments of every call lead from the run before it to the run after it. The induction is on
how deeply starts are nested: while a scenario is busy, scenarios that it starts leave it and all
other scenarios alone, so it is still as it was when it enters its next state.
-/

namespace TraceAutomata.Run

/-- The moments lead from one run to the other, and only one scenario that there was changes. -/
structure Passage (event : Event) (busy : Option ScenarioId) (r : Run) (ms : List Moment)
    (r' : Run) : Prop where
  path : Path (some event) r ms r'
  keeps : Keeps busy r r'

namespace Passage

variable {event : Event} {busy : Option ScenarioId} {r r' r'' : Run} {ms ms' : List Moment}

theorem nil (event : Event) (busy : Option ScenarioId) (r : Run) : Passage event busy r [] r :=
  ⟨.nil r, .refl busy r⟩

theorem append (h : Passage event busy r ms r') (h' : Passage event busy r' ms' r'') :
    Passage event busy r (ms ++ ms') r'' :=
  ⟨h.path.append h'.path, h.keeps.trans h'.keeps⟩

theorem cons {act : Act} (move : Move ⟨r, some event, act⟩ r') (keeps : Keeps busy r r')
    (h : Passage event busy r' ms r'') : Passage event busy r (⟨r, some event, act⟩ :: ms) r'' :=
  ⟨.cons move h.path, keeps.trans h.keeps⟩

theorem single {act : Act} (move : Move ⟨r, some event, act⟩ r') (keeps : Keeps busy r r') :
    Passage event busy r [⟨r, some event, act⟩] r' :=
  cons move keeps (nil event busy r')

theorem weaken (h : Passage event none r ms r') : Passage event busy r ms r' :=
  ⟨h.path, h.keeps.weaken⟩

theorem fold {α : Type} {f : Run → α → Run} {moments : Run → α → List Moment}
    {P : Run → Prop} (keep : ∀ r r', Keeps busy r r' → P r → P r') {list : List α}
    (step : ∀ r, ∀ a ∈ list, P r → Passage event busy r (moments r a) (f r a)) (hr : P r) :
    Passage event busy r (foldMoments f moments r list) (list.foldl f r) := by
  induction list generalizing r with
  | nil => exact nil event busy r
  | cons a rest ih =>
      have hstep := step r a List.mem_cons_self hr
      exact hstep.append
        (ih (fun r b hb => step r b (List.mem_cons_of_mem _ hb)) (keep _ _ hstep.keeps hr))

end Passage

def Busy (s : Scenario) (r : Run) : Prop :=
  r.Numbered ∧ r.Acting s

theorem Busy.keep {s : Scenario} {r r' : Run} (h : Keeps none r r') (hs : Busy s r) :
    Busy s r' := by
  obtain ⟨hnumbered, hfound, hlive, hlast⟩ := hs
  have hle : s.id ≤ r.created := hnumbered.le_created s (mem_of_scenario? hfound)
  refine ⟨h.numbered hnumbered, ?_, hlive, ?_⟩
  · rw [h.scenario? s.id hle (by simp), hfound]
  · rw [h.received, hlast]

section Operations

variable {spawn : Spawn} {spawned : Run → Nat → String → List Moment} {event : Event}
  (hspawn : ∀ r index parent, r.Numbered →
    Passage event none r (spawned r index parent) (spawn r index parent))

theorem saveFields_eq (r : Run) (scope : ActionScope) :
    r.saveFields scope event = (r.savedSlots event).foldl (saveSlot scope event) r := by
  rw [saveFields, savedSlots, List.foldl_filterMap]
  congr
  funext r entry
  obtain ⟨field, slot⟩ := entry
  cases h : event.field? field <;> simp [h, saveSlot]

theorem clearSlots_eq (r : Run) (scope : ActionScope) :
    r.clearSlots scope event = r.clearedSlots.foldl (saveSlot scope event) r := by
  rw [clearSlots, clearedSlots, List.foldl_map]
  rfl

theorem slots_passage {s : Scenario} {r : Run} (hs : Busy s r) (slots : List (String × Value)) :
    Passage event none r (slotMoments event s.scope r slots)
      (slots.foldl (saveSlot s.scope event) r) := by
  apply Passage.fold (P := Busy s) (fun _ _ h => Busy.keep h) _ hs
  intro r entry _ hs
  exact .single (.save hs.2) (keeps_record none r _)

theorem spawnAll_cons (spawn : Spawn) (parent fsm : String) (rest : List String) (r : Run) :
    spawnAll spawn parent (fsm :: rest) r =
      match r.defs.fsmIndex? fsm with
      | none => .error (.unknownFsm fsm) r
      | some index => spawnAll spawn parent rest (spawn r index parent) := by
  have hget : (get : RunM Run) r = .ok r r := rfl
  simp only [spawnAll, bind, EStateM.bind, hget]
  cases r.defs.fsmIndex? fsm <;> rfl

include hspawn in
theorem spawnAll_passage {r : Run} (hr : r.Numbered) (parent : String) (fsms : List String) :
    Passage event none r (spawnAllMoments spawn spawned parent fsms r)
      (attempt (spawnAll spawn parent fsms) r) := by
  induction fsms generalizing r with
  | nil => exact .nil event none r
  | cons fsm rest ih =>
      rw [attempt, spawnAll_cons, spawnAllMoments]
      cases r.defs.fsmIndex? fsm with
      | none => exact .nil event none r
      | some index =>
          have hfirst := hspawn r index parent hr
          exact hfirst.append (ih (hfirst.keeps.numbered hr))

theorem attempt_change (m : StoreM Unit) (r : Run) : attempt (change m) r = r.record m := by
  rw [attempt, change, record]
  cases m r.store <;> rfl

include hspawn in
theorem operate_passage {s : Scenario} {r : Run} (hs : Busy s r) (op : Operation) :
    Passage event none r (operateMoments spawn spawned event s.scope r op)
      (attempt (operate spawn s.scope event op) r) := by
  unfold operateMoments
  refine .cons (.operate hs.2) (.refl none r) ?_
  cases op with
  | stateChange path value =>
      simp only [operate, attempt]
      cases AttributePath.names (r.context s.scope.scenario event) path with
      | error e => exact .nil event none r
      | ok names =>
          cases value.resolve (r.context s.scope.scenario event) with
          | error e => exact .nil event none r
          | ok value =>
              have hchange := attempt_change
                (History.write s.scope.subtree event.nanos names value) r
              rw [attempt] at hchange
              simp only [hchange]
              exact .single (.change hs.2) (keeps_record none r _)
  | saveScratch =>
      have heq : attempt (operate spawn s.scope event .saveScratch) r =
          r.saveFields s.scope event := rfl
      rw [heq, saveFields_eq]
      exact slots_passage hs _
  | clearScratch =>
      have heq : attempt (operate spawn s.scope event .clearScratch) r =
          r.clearSlots s.scope event := rfl
      rw [heq, clearSlots_eq]
      exact slots_passage hs _
  | synthetic name fields =>
      simp only [operate, attempt]
      cases hsyn : r.synthesize s.scope event name fields with
      | error e => exact .nil event none r
      | ok synthetic =>
          exact .single (.emit hs.2 hsyn) (keeps_of_eq none rfl rfl rfl rfl rfl rfl rfl rfl)
  | spawn fsms => exact spawnAll_passage hspawn hs.1 s.scope.fsm fsms

include hspawn in
theorem action_passage {s : Scenario} {r : Run} (hs : Busy s r) (id : String) :
    Passage event none r (actionMoments spawn spawned event s.scope r id)
      (runAction spawn s.scope event r id) := by
  rw [actionMoments, runAction]
  cases r.defs.action id with
  | error e => exact .nil event none r
  | ok ops =>
      exact Passage.fold (P := Busy s) (fun _ _ h => Busy.keep h)
        (fun r op _ hs => operate_passage hspawn hs op) hs

include hspawn in
theorem actions_passage {s : Scenario} {r : Run} (hs : Busy s r) (actions : List String) :
    Passage event none r (actionsMoments spawn spawned event s.id actions r)
      (runActions spawn s.id event actions r) := by
  rw [actionsMoments, runActions, hs.2.1]
  exact Passage.fold (P := Busy s) (fun _ _ h => Busy.keep h)
    (fun r id _ hs => action_passage hspawn hs id) hs

end Operations

theorem exists_of_resolve {d : DefinitionSet} {state : StateDefinition} {ctx : GuardContext}
    (h : (d.resolve state ctx).matched = true) :
    ∃ t ∈ state.transitions, (d.resolve state ctx).next = t.target := by
  rw [DefinitionSet.resolve] at h ⊢
  cases hfound : state.transitions.find? fun t => t.inputs.all (d.inputPasses ctx) with
  | none => simp [hfound] at h
  | some t => exact ⟨t, List.mem_of_find?_eq_some hfound, rfl⟩

theorem received_receive (r : Run) (f : FsmDefinition) (s : Scenario) (event : Event) :
    (r.receive f s event).received = r.received :=
  (keeps_receive r f s event).received

theorem busy_receive {r : Run} (hr : r.Numbered) {f : FsmDefinition} {s : Scenario}
    (hs : r.scenario? s.id = some s) (hlive : s.isLive = true) (event : Event) :
    Busy { s with lastEvent := some r.received } (r.receive f s event) := by
  refine ⟨(keeps_receive r f s event).numbered hr, ?_, hlive, ?_⟩
  · rw [receive_eq, recordAll_eq]
    have hid : ∀ s' : Scenario, s'.id = s.id →
        ({ s' with lastEvent := some r.received } : Scenario).id = s.id := fun _ h => h
    have hself := scenario?_modifyScenario_self r hid
    rw [hs] at hself
    exact hself
  · rw [received_receive]

theorem scenario?_of_filter {r : Run} {id : ScenarioId} {s : Scenario}
    (h : (r.scenario? id).filter Scenario.isLive = some s) :
    s.id = id ∧ r.scenario? s.id = some s ∧ s.isLive = true := by
  obtain ⟨hfound, hlive⟩ := Option.filter_eq_some_iff.mp h
  have hid := id_of_scenario? hfound
  exact ⟨hid, hid ▸ hfound, hlive⟩

section Handling

variable {spawn : Spawn} {spawned : Run → Nat → String → List Moment} {event : Event}
  (hspawn : ∀ r index parent, r.Numbered →
    Passage event none r (spawned r index parent) (spawn r index parent))

include hspawn in
theorem step_passage {r : Run} (hr : r.Numbered) (id : ScenarioId) :
    Passage event (some id) r (stepMoments spawn spawned event id r)
      (r.step spawn event id).1 := by
  rw [stepMoments, step]
  cases hfound : (r.scenario? id).filter Scenario.isLive with
  | none => exact .nil event (some id) r
  | some s =>
      obtain ⟨rfl, hs, hlive⟩ := scenario?_of_filter hfound
      simp only
      cases hindex : r.defs.fsmIndex? s.fsm with
      | none => exact .nil event (some s.id) r
      | some index =>
          cases hf : r.defs.fsm? s.fsm with
          | none => exact .nil event (some s.id) r
          | some f =>
              have hreceive := Move.receive (e := event) hs hlive ⟨hindex, hf⟩
              have hbusy := busy_receive hr (f := f) hs hlive event
              refine .cons hreceive (keeps_receive r f s event) ?_
              simp only
              cases hstate : f.state? s.state with
              | none => exact .nil event _ _
              | some state =>
                  simp only
                  split
                  · next hmatched =>
                    obtain ⟨t, ht, htarget⟩ := exists_of_resolve hmatched
                    have hactions := actions_passage hspawn hbusy
                      ((r.receive f s event).defs.resolve state
                        ((r.receive f s event).context s.name event)).actions
                    have hafter := Busy.keep hactions.keeps hbusy
                    have hdefs := hactions.keeps.defs.trans (keeps_receive r f s event).defs
                    refine hactions.weaken.append ?_
                    rw [htarget, received_receive]
                    refine .single (.enter hafter.2 ⟨?_, ?_⟩ hstate ht) (keeps_enter _ _ _ _ _ _ _)
                    · rw [hdefs]
                      exact hindex
                    · rw [hdefs]
                      exact hf
                  · exact .nil event _ _

include hspawn in
theorem chain_passage {r : Run} (hr : r.Numbered) (id : ScenarioId) (allowed : Nat) :
    Passage event (some id) r (chainMoments spawn spawned event id allowed r)
      (chain spawn event id allowed r) := by
  induction allowed generalizing r with
  | zero => exact step_passage hspawn hr id
  | succ allowed ih =>
      have hstep := step_passage hspawn hr id
      rw [chainMoments, chain]
      refine hstep.append ?_
      rcases hres : r.step spawn event id with ⟨next, outcome⟩
      rw [hres] at hstep
      cases outcome with
      | again => exact ih (hstep.keeps.numbered hr)
      | settled => exact .nil event _ _
      | failed fault => exact .nil event _ _

include hspawn in
theorem handle_passage {r : Run} (hr : r.Numbered) (id : ScenarioId) :
    Passage event (some id) r (handleMoments spawn spawned event id r)
      (handle spawn event id r) :=
  .cons .handle (.refl _ r) (chain_passage hspawn hr id _)

end Handling

theorem created_admitted (r : Run) (index : Nat) (f : FsmDefinition) (c : FsmSchedule)
    (parent : Option String) (time : Int64) (subtree : Quark) (st : Store) :
    (r.admitted index f c parent time subtree st).created = r.created + 1 := by
  simp [admitted, addScenario, modifyFsm]

theorem Keeps.of_new {r r' r'' : Run} (h : Keeps none r r') (hnew : r'.created = r.created + 1)
    (h' : Keeps (some r'.created) r' r'') : Keeps none r r'' where
  defs := h'.defs.trans h.defs
  settings := h'.settings.trans h.settings
  root := h'.root.trans h.root
  received := h'.received.trans h.received
  begun := h'.begun.trans h.begun
  disposed := h'.disposed.trans h.disposed
  created_le := Nat.le_trans h.created_le h'.created_le
  scenario? id hle hne := by
    have hlt : id < r'.created := hnew ▸ Nat.lt_succ_of_le hle
    have hother : some id ≠ some r'.created := fun heq => Nat.ne_of_lt hlt (Option.some.inj heq)
    exact (h'.scenario? id (Nat.le_of_lt hlt) hother).trans (h.scenario? id hle hne)
  numbered hr := h'.numbered (h.numbered hr)

theorem launch_passage {event : Event} {trigger : Option Event}
    (htrigger : trigger = none ∨ trigger = some event) (budget : Nat)
    (parent : Option String) {r : Run} (hr : r.Numbered) (index : Nat) :
    Passage event none r (launchMoments event budget parent trigger r index)
      (launch budget parent trigger r index) := by
  induction budget generalizing parent trigger r index with
  | zero => exact .single .decide (.refl none r)
  | succ budget ih =>
      rw [launchMoments, launch]
      refine .cons .decide (.refl none r) ?_
      cases hf : r.defs.fsms[index]? with
      | none => exact .nil event none r
      | some f =>
          cases hc : r.fsms[index]? with
          | none => exact .nil event none r
          | some c =>
              simp only
              split
              · next htakes =>
                cases hopen : History.openScenario r.root
                    (Scenario.nameOf f.id (c.created + 1)) r.store with
                | error error st =>
                    exact .single (.abort hopen) (keeps_of_eq none rfl rfl rfl rfl rfl rfl rfl rfl)
                | ok subtree st =>
                    have hadmit : Move ⟨r, some event, .enroll index parent trigger⟩ _ :=
                      .enroll htrigger hf hc htakes hopen
                    have hkeeps := keeps_admitted (r := r) index f c parent
                      ((trigger.map Event.nanos).getD r.store.endTime) subtree st
                    rcases htrigger with rfl | rfl
                    · exact .single hadmit hkeeps
                    · have hhandle := handle_passage
                        (fun r index parent hr => ih (.inr rfl) (some parent) hr index)
                        (hkeeps.numbered hr)
                        (r.admitted index f c parent event.nanos subtree st).created
                      exact ⟨.cons hadmit hhandle.path,
                        hkeeps.of_new (created_admitted ..) hhandle.keeps⟩
              · exact .nil event none r

end TraceAutomata.Run
