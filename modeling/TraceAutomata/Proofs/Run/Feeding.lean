import TraceAutomata.Proofs.Run.Line

namespace TraceAutomata

namespace Moment

def fed? (m : Moment) : Option ScenarioId :=
  match m.act with
  | .handle id => some id
  | _ => none

/-- The act neither hands the event to a scenario nor starts one on behalf of another, and a
scenario that notes the event had noted it before. -/
def Idle (m : Moment) : Prop :=
  match m.act with
  | .arrive | .handle _ | .enroll _ (some _) _ => False
  | .receive _ s => s.lastEvent = some m.run.received
  | _ => True

/-- A scenario that an action starts is handed the event in the next act, and a scenario that is
handed the event notes it in the next act. -/
def Answered (m : Moment) (ms : List Moment) : Prop :=
  match m.act with
  | .enroll _ (some _) _ => ∃ next ∈ ms.head?, next.act = .handle (m.run.created + 1)
  | .handle id => ∃ next ∈ ms.head?, ∃ f s, next.act = .receive f s ∧ s.id = id
  | _ => True

theorem Idle.fed?_eq_none {m : Moment} (h : m.Idle) : m.fed? = none := by
  obtain ⟨r, event, act⟩ := m
  cases act with
  | handle id => exact h.elim
  | _ => rfl

theorem Idle.answered {m : Moment} (h : m.Idle) (ms : List Moment) : m.Answered ms := by
  obtain ⟨r, event, act⟩ := m
  cases act with
  | handle id => exact h.elim
  | enroll index parent trigger =>
      cases parent with
      | none => trivial
      | some p => exact h.elim
  | _ => trivial

theorem Answered.append {m : Moment} {ms : List Moment} (h : m.Answered ms)
    (ms' : List Moment) : m.Answered (ms ++ ms') := by
  have hhead : ∀ next ∈ ms.head?, next ∈ (ms ++ ms').head? := fun next hnext =>
    List.mem_head?_append_of_mem_head? hnext
  obtain ⟨r, event, act⟩ := m
  cases act with
  | handle id =>
      obtain ⟨next, hnext, hact⟩ := h
      exact ⟨next, hhead next hnext, hact⟩
  | enroll index parent trigger =>
      cases parent with
      | none => trivial
      | some p =>
          obtain ⟨next, hnext, hact⟩ := h
          exact ⟨next, hhead next hnext, hact⟩
  | _ => trivial

end Moment

namespace Run

/-- The scenarios that the event is handed to, one after the other. -/
def fed (ms : List Moment) : List ScenarioId :=
  ms.filterMap Moment.fed?

theorem fed_append (ms ms' : List Moment) : fed (ms ++ ms') = fed ms ++ fed ms' :=
  List.filterMap_append

theorem fed_cons_of_idle {m : Moment} (h : m.Idle) (ms : List Moment) :
    fed (m :: ms) = fed ms :=
  List.filterMap_cons_none h.fed?_eq_none

theorem fed_cons_enroll {r : Run} {now : Option Event} {index : Nat} {parent : Option String}
    {trigger : Option Event} (ms : List Moment) :
    fed (⟨r, now, .enroll index parent trigger⟩ :: ms) = fed ms := rfl

theorem fed_cons_handle {r r' : Run} {now now' : Option Event} {f : FsmDefinition} {s : Scenario}
    (ms : List Moment) :
    fed (⟨r, now, .handle s.id⟩ :: ⟨r', now', .receive f s⟩ :: ms) = s.id :: fed ms := rfl

theorem fed_eq_nil {ms : List Moment} (h : ∀ m ∈ ms, m.Idle) : fed ms = [] :=
  List.filterMap_eq_nil_iff.mpr fun m hm => (h m hm).fed?_eq_none

/-- Nothing comes between the start of a scenario by an action, its being handed the event and its
noting it. -/
def Prompt : List Moment → Prop
  | [] => True
  | m :: ms => m.Answered ms ∧ Prompt ms

theorem Prompt.append {ms ms' : List Moment} (h : Prompt ms) (h' : Prompt ms') :
    Prompt (ms ++ ms') := by
  induction ms with
  | nil => exact h'
  | cons m ms ih => exact ⟨h.1.append ms', ih h.2⟩

/-- The acts hand the event to new scenarios only, each as soon as it has been started. -/
inductive Nested : List Moment → Prop
  | nil : Nested []
  | idle {m : Moment} {ms : List Moment} (h : m.Idle) (rest : Nested ms) : Nested (m :: ms)
  | spawn {r r' r'' : Run} {now : Option Event} {index : Nat} {parent : String}
      {trigger : Option Event} {f : FsmDefinition} {s : Scenario} {ms : List Moment}
      (new : s.id = r.created + 1) (rest : Nested ms) :
      Nested (⟨r, now, .enroll index (some parent) trigger⟩ :: ⟨r', now, .handle s.id⟩ ::
        ⟨r'', now, .receive f s⟩ :: ms)

namespace Nested

theorem append {ms ms' : List Moment} (h : Nested ms) (h' : Nested ms') :
    Nested (ms ++ ms') := by
  induction h with
  | nil => exact h'
  | idle hidle _ ih => exact .idle hidle ih
  | spawn hnew _ ih => exact .spawn hnew ih

theorem of_idle {ms : List Moment} (h : ∀ m ∈ ms, m.Idle) : Nested ms := by
  induction ms with
  | nil => exact .nil
  | cons m ms ih =>
      obtain ⟨hm, hrest⟩ := List.forall_mem_cons.mp h
      exact .idle hm (ih hrest)

theorem fold {α : Type} {f : Run → α → Run} {moments : Run → α → List Moment}
    {I : Run → Prop} {list : List α} {r : Run}
    (step : ∀ r, ∀ a ∈ list, I r → Nested (moments r a) ∧ I (f r a)) (hr : I r) :
    Nested (foldMoments f moments r list) := by
  induction list generalizing r with
  | nil => exact .nil
  | cons a rest ih =>
      obtain ⟨hfirst, hnext⟩ := step r a List.mem_cons_self hr
      exact hfirst.append (ih (fun r b hb => step r b (List.mem_cons_of_mem _ hb)) hnext)

theorem prompt {ms : List Moment} (h : Nested ms) : Prompt ms := by
  induction h with
  | nil => trivial
  | idle hidle _ ih => exact ⟨hidle.answered _, ih⟩
  | @spawn r r' r'' now index parent trigger f s ms hnew rest ih =>
      exact ⟨⟨_, rfl, congrArg Act.handle hnew⟩, ⟨_, rfl, f, s, rfl, rfl⟩, trivial, ih⟩

end Nested

/-- The event has been handed to these scenarios, and of those that are remembered they are the ones
that have noted it. -/
structure Delivered (already : List ScenarioId) (r : Run) : Prop where
  nodup : already.Nodup
  le_created : ∀ id ∈ already, id ≤ r.created
  noted : ∀ s ∈ r.scenarios, s.lastEvent = some r.received ↔ s.id ∈ already

theorem exists_delivered {r : Run} (hn : r.Numbered) : ∃ already, Delivered already r := by
  let noting := r.scenarios.filter fun s => s.lastEvent == some r.received
  refine ⟨noting.map (·.id), hn.nodup_ids.sublist (List.filter_sublist.map _), ?_, ?_⟩
  · intro id hid
    obtain ⟨s, hs, rfl⟩ := List.mem_map.mp hid
    exact hn.le_created s (List.mem_of_mem_filter hs)
  · intro s hs
    rw [List.mem_map]
    constructor
    · intro hlast
      exact ⟨s, List.mem_filter.mpr ⟨hs, beq_iff_eq.mpr hlast⟩, rfl⟩
    · rintro ⟨x, hx, hid⟩
      obtain ⟨hmem, hlast⟩ := List.mem_filter.mp hx
      rw [← hn.eq_of_id hmem hs hid]
      exact beq_iff_eq.mp hlast

theorem received_eq_of_move {m : Moment} {r' : Run} (move : Move m r') (h : m.act ≠ .arrive) :
    r'.received = m.run.received := by
  cases move with
  | arrive _ => exact (h rfl).elim
  | begin _ => rfl
  | appoint _ _ => rfl
  | takeDue _ _ => rfl
  | decide => rfl
  | abort _ => rfl
  | enroll _ _ _ _ _ => exact (keeps_admitted _ _ _ _ _ _ _).received
  | handle => rfl
  | receive _ _ _ => exact (keeps_receive _ _ _ _).received
  | operate _ => rfl
  | change _ => exact (keeps_record none _ _).received
  | save _ => exact (keeps_record none _ _).received
  | emit _ _ => rfl
  | enter _ _ _ _ => exact (keeps_enter _ _ _ _ _ _ _).received
  | merge => rfl
  | @retire r e index =>
      cases hc : r.fsms[index]? with
      | none => rw [Run.retire, hc]
      | some c =>
          rw [retire_eq hc]
          rfl
  | cancel _ _ => exact (keeps_cancelLive _ _).received
  | dispose => rfl

namespace Delivered

variable {already : List ScenarioId} {r r' : Run} {m : Moment}

theorem move (h : Delivered already m.run) (hn : m.run.Numbered) (move : Move m r')
    (harrive : m.act ≠ .arrive)
    (hreceive : ∀ f s, m.act = .receive f s → s.lastEvent = some m.run.received) :
    Delivered already r' := by
  refine ⟨h.nodup, fun id hid =>
    Nat.le_trans (h.le_created id hid) move.follows.created_le, ?_⟩
  intro x hx
  rw [received_eq_of_move move harrive]
  cases Effect.of_move hn move with
  | quiet scenarios => exact h.noted x (scenarios.subset hx)
  | alters s s' groups hs hlive halters scenarios =>
      rw [scenarios, mem_modifyScenario hs] at hx
      rcases hx with rfl | ⟨hx, -⟩
      · have hlast : x.lastEvent = s.lastEvent := by
          rcases halters.lastEvent_eq with heq | ⟨⟨f, hact⟩, heq⟩
          · exact heq
          · rw [heq, hreceive f s hact]
        rw [hlast, halters.sameCard.id]
        exact h.noted s (mem_of_scenario? hs)
      · exact h.noted x hx
  | admits index f c parent trigger subtree st _ _ _ _ _ heq =>
      rw [heq, admitted_eq, List.mem_append, List.mem_singleton] at hx
      rcases hx with hx | rfl
      · exact h.noted x hx
      · refine ⟨fun hlast => (Option.some_ne_none _ hlast.symm).elim, fun hid => ?_⟩
        exact (Nat.not_succ_le_self _ (h.le_created _ hid)).elim
  | aborts _ _ _ _ _ _ heq =>
      rw [heq] at hx
      exact h.noted x hx

theorem idle (h : Delivered already m.run) (hn : m.run.Numbered) (move : Move m r')
    (hidle : m.Idle) : Delivered already r' := by
  obtain ⟨r, event, act⟩ := m
  refine h.move hn move ?_ ?_
  · rintro rfl
    exact hidle
  · rintro f s rfl
    exact hidle

theorem receive (h : Delivered already r) (hn : r.Numbered) {event : Event}
    {f : FsmDefinition} {s : Scenario} (move : Move ⟨r, some event, .receive f s⟩ r')
    (hnew : s.id ∉ already) : Delivered (already ++ [s.id]) r' := by
  have hle := move.follows.created_le
  cases move with
  | receive hs hlive hf =>
      refine ⟨List.nodup_append.mpr ⟨h.nodup, List.nodup_singleton _, ?_⟩, ?_, ?_⟩
      · rintro id hid _ hself rfl
        exact hnew (List.mem_singleton.mp hself ▸ hid)
      · intro id hid
        rcases List.mem_append.mp hid with hid | hid
        · exact Nat.le_trans (h.le_created id hid) hle
        · rw [List.mem_singleton.mp hid]
          exact Nat.le_trans (hn.le_created s (mem_of_scenario? hs)) hle
      · intro x hx
        rw [receive_altered hn hs] at hx ⊢
        rw [List.mem_append, List.mem_singleton]
        rcases (mem_modifyScenario hs x).mp hx with rfl | ⟨hx, hne⟩
        · exact ⟨fun _ => .inr rfl, fun _ => rfl⟩
        · exact (h.noted x hx).trans ⟨.inl, fun hid => hid.resolve_right hne⟩

end Delivered

/-- Nested acts hand the event to scenarios that are started meanwhile. -/
theorem Nested.delivered {ms : List Moment} (hnested : Nested ms) {event : Event} {r r' : Run}
    (hpath : Path (some event) r ms r') (hn : r.Numbered) {already : List ScenarioId}
    (h : Delivered already r) :
    Delivered (already ++ fed ms) r' ∧ ∀ id ∈ fed ms, r.created < id := by
  induction hnested generalizing r already with
  | nil =>
      cases hpath
      rw [fed, List.filterMap_nil, List.append_nil]
      exact ⟨h, fun id hid => by cases hid⟩
  | idle hidle _ ih =>
      cases hpath with
      | cons move rest =>
          have hfollows := move.follows
          obtain ⟨hrest, hnew⟩ := ih rest (hfollows.numbered hn) (h.idle hn move hidle)
          rw [fed_cons_of_idle hidle]
          exact ⟨hrest, fun id hid => Nat.lt_of_le_of_lt hfollows.created_le (hnew id hid)⟩
  | @spawn _ _ _ _ _ _ _ f s ms hid _ ih =>
      obtain _ | ⟨henroll, _ | ⟨hhandle, _ | ⟨hreceive, rest⟩⟩⟩ := hpath
      cases hhandle
      have hstarted := h.move hn henroll (by simp) (by simp)
      have hnumbered := henroll.follows.numbered hn
      have hnew : s.id ∉ already := fun hmem =>
        Nat.not_succ_le_self _ (hid ▸ h.le_created _ hmem)
      have hnoted := hstarted.receive hnumbered hreceive hnew
      obtain ⟨hrest, hothers⟩ := ih rest (hreceive.follows.numbered hnumbered) hnoted
      have hle := Nat.le_trans henroll.follows.created_le hreceive.follows.created_le
      rw [fed_cons_enroll, fed_cons_handle, List.append_cons]
      refine ⟨hrest, List.forall_mem_cons.mpr ⟨hid ▸ Nat.lt_succ_self _, fun id hmem => ?_⟩⟩
      exact Nat.lt_of_le_of_lt hle (hothers id hmem)

theorem Nested.delivered_handled {ms : List Moment} (hnested : Nested ms) {event : Event}
    {r r' : Run} {f : FsmDefinition} {s : Scenario}
    (hpath : Path (some event) r
      (⟨r, some event, .handle s.id⟩ :: ⟨r, some event, .receive f s⟩ :: ms) r')
    (hn : r.Numbered) {already : List ScenarioId} (h : Delivered already r)
    (hnew : s.id ∉ already) :
    Delivered (already ++ s.id :: fed ms) r' ∧ ∀ id ∈ fed ms, r.created < id := by
  obtain _ | ⟨hhandle, _ | ⟨hreceive, rest⟩⟩ := hpath
  cases hhandle
  obtain ⟨hfed, hothers⟩ := hnested.delivered rest (hreceive.follows.numbered hn)
    (h.receive hn hreceive hnew)
  rw [List.append_cons]
  exact ⟨hfed, fun id hid => Nat.lt_of_le_of_lt hreceive.follows.created_le (hothers id hid)⟩

section Handling

variable {spawn : Spawn} {spawned : Run → Nat → String → List Moment} {event : Event}

theorem slots_nested (scope : ActionScope) (r : Run) (slots : List (String × Value)) :
    Nested (slotMoments event scope r slots) := by
  apply Nested.fold (I := fun _ => True) _ trivial
  intro r entry _ _
  exact ⟨.idle trivial .nil, trivial⟩

variable
  (hspawn : ∀ r index parent, r.Numbered →
    Passage event none r (spawned r index parent) (spawn r index parent))
  (hnested : ∀ r index parent, r.Staffed → Nested (spawned r index parent))

include hspawn hnested

theorem spawnAll_nested {r : Run} (hstaffed : r.Staffed) (parent : String) (fsms : List String) :
    Nested (spawnAllMoments spawn spawned parent fsms r) := by
  induction fsms generalizing r with
  | nil => exact .nil
  | cons fsm rest ih =>
      rw [spawnAllMoments]
      cases r.defs.fsmIndex? fsm with
      | none => exact .nil
      | some index =>
          have hpath := (hspawn r index parent hstaffed.numbered).path
          exact (hnested r index parent hstaffed).append (ih (.of_path hpath hstaffed))

theorem operate_nested (scope : ActionScope) {r : Run} (hstaffed : r.Staffed) (op : Operation) :
    Nested (operateMoments spawn spawned event scope r op) := by
  unfold operateMoments
  refine .idle trivial ?_
  cases op with
  | stateChange path value =>
      simp only
      split
      · exact .idle trivial .nil
      · exact .nil
  | saveScratch => exact slots_nested scope r _
  | clearScratch => exact slots_nested scope r _
  | synthetic name fields =>
      simp only
      split
      · exact .idle trivial .nil
      · exact .nil
  | spawn fsms => exact spawnAll_nested hspawn hnested hstaffed scope.fsm fsms

theorem action_nested {s : Scenario} {r : Run} (hs : Busy s r) (hstaffed : r.Staffed)
    (id : String) : Nested (actionMoments spawn spawned event s.scope r id) := by
  rw [actionMoments]
  cases r.defs.action id with
  | error e => exact .nil
  | ok ops =>
      apply Nested.fold (I := fun r => Busy s r ∧ r.Staffed) _ ⟨hs, hstaffed⟩
      rintro r op _ ⟨hs, hstaffed⟩
      have hpassage := operate_passage hspawn hs op
      exact ⟨operate_nested hspawn hnested s.scope hstaffed op, Busy.keep hpassage.keeps hs,
        .of_path hpassage.path hstaffed⟩

theorem actions_nested {s : Scenario} {r : Run} (hs : Busy s r) (hstaffed : r.Staffed)
    (actions : List String) : Nested (actionsMoments spawn spawned event s.id actions r) := by
  rw [actionsMoments, hs.2.1]
  apply Nested.fold (I := fun r => Busy s r ∧ r.Staffed) _ ⟨hs, hstaffed⟩
  rintro r id _ ⟨hs, hstaffed⟩
  have hpassage := action_passage hspawn hs id
  exact ⟨action_nested hspawn hnested hs hstaffed id, Busy.keep hpassage.keeps hs,
    .of_path hpassage.path hstaffed⟩

theorem step_notes {r : Run} (hstaffed : r.Staffed) {s : Scenario}
    (hs : r.scenario? s.id = some s) (hlive : s.isLive = true) :
    ∃ f ms, stepMoments spawn spawned event s.id r = ⟨r, some event, .receive f s⟩ :: ms ∧
      Nested ms := by
  obtain ⟨index, f, hof⟩ := hstaffed.scheduled.exists_ofFsm hstaffed.wellFormed (mem_of_scenario? hs)
  have hfound : (r.scenario? s.id).filter Scenario.isLive = some s :=
    Option.filter_eq_some_iff.mpr ⟨hs, hlive⟩
  rw [stepMoments, hfound]
  simp only [hof.1, hof.2]
  refine ⟨f, _, rfl, ?_⟩
  split
  · exact .nil
  · split
    · have hbusy := busy_receive hstaffed.numbered (f := f) hs hlive event
      have hnoted := hstaffed.move (Move.receive (e := event) hs hlive hof)
      exact (actions_nested hspawn hnested (s := { s with lastEvent := some r.received }) hbusy
        hnoted _).append (.idle trivial .nil)
    · exact .nil

theorem step_nested {r : Run} (hstaffed : r.Staffed) {already : List ScenarioId}
    (h : Delivered already r) {id : ScenarioId} (hid : id ∈ already) :
    Nested (stepMoments spawn spawned event id r) := by
  cases hfound : (r.scenario? id).filter Scenario.isLive with
  | none =>
      rw [stepMoments, hfound]
      exact .nil
  | some s =>
      obtain ⟨rfl, hs, hlive⟩ := scenario?_of_filter hfound
      obtain ⟨f, ms, heq, hms⟩ := step_notes hspawn hnested hstaffed hs hlive
      rw [heq]
      exact .idle ((h.noted s (mem_of_scenario? hs)).mpr hid) hms

theorem chain_nested {r : Run} (hstaffed : r.Staffed) {already : List ScenarioId}
    (h : Delivered already r) {id : ScenarioId} (hid : id ∈ already) (allowed : Nat) :
    Nested (chainMoments spawn spawned event id allowed r) := by
  induction allowed generalizing r already with
  | zero => exact step_nested hspawn hnested hstaffed h hid
  | succ allowed ih =>
      have hstep := step_nested hspawn hnested hstaffed h hid
      have hpath := (step_passage hspawn hstaffed.numbered id).path
      rw [chainMoments]
      refine hstep.append ?_
      rcases hres : r.step spawn event id with ⟨next, outcome⟩
      rw [hres] at hpath
      cases outcome with
      | again =>
          exact ih (.of_path hpath hstaffed) (hstep.delivered hpath hstaffed.numbered h).1
            (List.mem_append_left _ hid)
      | settled => exact .nil
      | failed fault => exact .nil

theorem handle_nested {r : Run} (hstaffed : r.Staffed) {s : Scenario}
    (hs : r.scenario? s.id = some s) (hlive : s.isLive = true)
    (hnew : s.lastEvent ≠ some r.received) :
    ∃ f ms, handleMoments spawn spawned event s.id r =
      ⟨r, some event, .handle s.id⟩ :: ⟨r, some event, .receive f s⟩ :: ms ∧ Nested ms := by
  obtain ⟨f, ms, hstep, hms⟩ := step_notes hspawn hnested hstaffed hs hlive
  rw [handleMoments]
  cases r.chainLimit s.id with
  | zero => exact ⟨f, ms, congrArg _ hstep, hms⟩
  | succ allowed =>
      have hn := hstaffed.numbered
      have hpath := (step_passage hspawn hn s.id).path
      rw [chainMoments, hstep]
      refine ⟨f, _, rfl, hms.append ?_⟩
      rw [hstep] at hpath
      rcases hres : r.step spawn event s.id with ⟨next, outcome⟩
      rw [hres] at hpath
      cases outcome with
      | again =>
          obtain ⟨already, hdelivered⟩ := exists_delivered hn
          have hnot : s.id ∉ already := fun hid =>
            hnew ((hdelivered.noted s (mem_of_scenario? hs)).mpr hid)
          have hstaffed' := Staffed.of_path hpath hstaffed
          obtain _ | ⟨hreceive, rest⟩ := hpath
          have hnext := (hms.delivered rest (hreceive.follows.numbered hn)
            (hdelivered.receive hn hreceive hnot)).1
          exact chain_nested hspawn hnested hstaffed' hnext (by simp) allowed
      | settled => exact .nil
      | failed fault => exact .nil

end Handling

theorem launch_nested {event : Event} (budget : Nat) (parent : String) {r : Run}
    (hstaffed : r.Staffed) (index : Nat) :
    Nested (launchMoments event budget (some parent) (some event) r index) := by
  induction budget generalizing parent r index with
  | zero => exact .idle trivial .nil
  | succ budget ih =>
      rw [launchMoments]
      refine .idle trivial ?_
      cases hf : r.defs.fsms[index]? with
      | none => exact .nil
      | some f =>
          cases hc : r.fsms[index]? with
          | none => exact .nil
          | some c =>
              simp only
              split
              · next htakes =>
                cases hopen : History.openScenario r.root
                    (Scenario.nameOf f.id (c.created + 1)) r.store with
                | error error st => exact .idle trivial .nil
                | ok subtree st =>
                    have hadmit :
                        Move ⟨r, some event, .enroll index (some parent) (some event)⟩ _ :=
                      .enroll (.inr rfl) hf hc htakes hopen
                    have hstaffed' := hstaffed.move hadmit
                    have hs := hstaffed'.numbered.scenario?_of_mem (mem_admitted.mpr (.inr rfl))
                    obtain ⟨f', ms, hhandle, hms⟩ := handle_nested
                      (fun r index parent hr =>
                        launch_passage (.inr rfl) budget (some parent) hr index)
                      (fun r index parent hstaffed => ih parent hstaffed index)
                      hstaffed' hs rfl (Option.some_ne_none _).symm
                    simp only [created_admitted]
                    exact hhandle ▸ .spawn rfl hms
              · exact .nil

theorem launchRoot_idle (now : Event) (r : Run) (index : Nat) :
    ∀ m ∈ launchRootMoments now r index, m.Idle := by
  refine List.forall_mem_cons.mpr ⟨trivial, ?_⟩
  split
  · split
    · simp only
      split
      · exact List.forall_mem_singleton.mpr trivial
      · exact List.forall_mem_singleton.mpr trivial
    · exact List.forall_mem_nil _
  · exact List.forall_mem_nil _

end Run

end TraceAutomata
