import TraceAutomata.Proofs.Run.Call

namespace TraceAutomata

def identityWrites (time : Int64) (fsm : String) (parent : Option String) : List Write :=
  ⟨[Layout.fsm], time, .string fsm⟩ ::
    (parent.map fun p => (⟨[Layout.parent], time, .string p⟩ : Write)).toList

def stateWrites (time : Int64) (state : String) (status : ScenarioStatus) : List Write :=
  [⟨[Layout.state], time, .string state⟩, ⟨[Layout.status], time, .string status.text⟩]

def receiveGroups (f : FsmDefinition) (s : Scenario) (time : Int64) : List (List Write) :=
  if !s.hasStarted && s.state == f.initial then
    [stateWrites time s.state .waitingStart, [⟨Layout.statePath s.state, time, .long time⟩]]
  else []

def moveGroups (time : Int64) (left changed : Bool) (next : String) (status : ScenarioStatus) :
    List (List Write) :=
  (if left then [[⟨[Layout.startTime], time, .long time⟩]] else []) ++
    (if changed then [[⟨Layout.statePath next, time, .long time⟩]] else []) ++
    (if status.isTerminal then [[⟨[Layout.endTime], time, .long time⟩]] else []) ++
    [stateWrites time next status]

def cancelGroups (time : Int64) (state : String) : List (List Write) :=
  [[⟨[Layout.endTime], time, .long time⟩], stateWrites time state .abandoned]

namespace History

theorem setIdentity_eq (subtree : Quark) (time : Int64) (fsm : String)
    (parent : Option String) :
    setIdentity subtree time fsm parent = writeAll subtree (identityWrites time fsm parent) := by
  funext st
  rw [identityWrites, writeAll_cons]
  cases parent with
  | none =>
      simp only [setIdentity, bind, EStateM.bind]
      cases write subtree time [Layout.fsm] (.string fsm) st <;> rfl
  | some p =>
      rw [Option.map_some, Option.toList_some, ← write_eq_writeAll]
      simp only [setIdentity, bind, EStateM.bind]
      cases write subtree time [Layout.fsm] (.string fsm) st <;> rfl

theorem setState_eq (subtree : Quark) (time : Int64) (state : String)
    (status : ScenarioStatus) :
    setState subtree time state status = writeAll subtree (stateWrites time state status) := by
  funext st
  rw [stateWrites, writeAll_cons, ← write_eq_writeAll]
  simp only [setState, bind, EStateM.bind]
  cases write subtree time [Layout.state] (.string state) st <;> rfl

end History

/-- The time at which an act writes about a scenario that is there already. -/
def Moment.time (m : Moment) : Int64 :=
  match m.event with
  | some e => e.nanos
  | none => m.run.store.endTime

namespace Run

theorem receiveChanges_eq (f : FsmDefinition) (s : Scenario) (time : Int64) :
    receiveChanges f s time = (receiveGroups f s time).map (History.writeAll s.subtree) := by
  rw [receiveChanges, receiveGroups]
  split
  · rw [History.setState_eq, History.enterState, History.write_eq_writeAll]
    rfl
  · rfl

theorem moveChanges_eq (subtree : Quark) (time : Int64) (left changed : Bool) (next : String)
    (status : ScenarioStatus) :
    moveChanges subtree time left changed next status =
      (moveGroups time left changed next status).map (History.writeAll subtree) := by
  rw [moveChanges, moveGroups, History.setState_eq, History.setStartTime, History.setEndTime,
    History.enterState]
  simp only [History.write_eq_writeAll, List.map_append]
  cases left <;> cases changed <;> cases status.isTerminal <;> rfl

theorem recordAll_map (r : Run) (subtree : Quark) (groups : List (List Write)) :
    r.recordAll (groups.map (History.writeAll subtree)) =
      { r with store := History.recordAll subtree groups r.store } := by
  rw [recordAll_eq, List.foldl_map]
  rfl

/-- How an act changes a scenario, and what is recorded of that below its subtree. -/
inductive Alters : Moment → Scenario → Scenario → List (List Write) → Prop
  | receive {r : Run} {e : Event} {f : FsmDefinition} {s : Scenario} {index : Nat}
      (hf : r.OfFsm s index f) :
      Alters ⟨r, some e, .receive f s⟩ s { s with lastEvent := some r.received }
        (receiveGroups f s e.nanos)
  | change {r : Run} {e : Event} {s : Scenario} {names : List String} {value : Value}
      (hs : r.Acting s) :
      Alters ⟨r, some e, .change s.scope names value⟩ s s [[⟨names, e.nanos, value⟩]]
  | save {r : Run} {e : Event} {s : Scenario} {slot : String} {value : Value}
      (hs : r.Acting s) :
      Alters ⟨r, some e, .save s.scope slot value⟩ s s
        [[⟨Layout.slotPath slot, e.nanos, value⟩]]
  | enter {r : Run} {e : Event} {index : Nat} {f : FsmDefinition} {s : Scenario}
      {state : StateDefinition} {t : Transition} (hs : r.Acting s) (hf : r.OfFsm s index f)
      (hstate : f.state? s.state = some state) (ht : t ∈ state.transitions) :
      Alters ⟨r, some e, .enter index f s t.target⟩ s (moved f s.state t.target e.nanos s)
        (moveGroups e.nanos (leavesInitial f s s.state t.target) (t.target != s.state) t.target
          (moved f s.state t.target e.nanos s).status)
  | cancel {r : Run} {s : Scenario} :
      Alters ⟨r, none, .cancel s⟩ s
        { s.advance .abandoned with endTime := some r.store.endTime }
        (cancelGroups r.store.endTime s.state)

/-- The number, name, fsm, parent and place of a scenario, which never change. -/
structure SameCard (s s' : Scenario) : Prop where
  id : s'.id = s.id
  name : s'.name = s.name
  fsm : s'.fsm = s.fsm
  parent : s'.parent = s.parent
  subtree : s'.subtree = s.subtree

theorem SameCard.refl (s : Scenario) : SameCard s s := ⟨rfl, rfl, rfl, rfl, rfl⟩

theorem SameCard.trans {s s' s'' : Scenario} (h : SameCard s s') (h' : SameCard s' s'') :
    SameCard s s'' :=
  ⟨h'.id.trans h.id, h'.name.trans h.name, h'.fsm.trans h.fsm, h'.parent.trans h.parent,
    h'.subtree.trans h.subtree⟩

theorem Alters.sameCard {m : Moment} {s s' : Scenario} {groups : List (List Write)}
    (h : Alters m s s' groups) : SameCard s s' := by
  cases h with
  | receive _ => exact ⟨rfl, rfl, rfl, rfl, rfl⟩
  | change _ => exact .refl s
  | save _ => exact .refl s
  | enter _ _ _ _ =>
      rw [moved_eq]
      exact ⟨rfl, rfl, rfl, rfl, rfl⟩
  | cancel =>
      rw [advance_eq]
      exact ⟨rfl, rfl, rfl, rfl, rfl⟩

theorem status_cancelled {s : Scenario} (hlive : s.isLive = true) (time : Option Int64) :
    ({ s.advance .abandoned with endTime := time } : Scenario).status = .abandoned :=
  status_advance_of_live hlive rfl

/-- The kinds of writes that go with a change of a scenario. -/
inductive Written (m : Moment) (s s' : Scenario) : Write → Prop
  | state (state : String) : Written m s s' ⟨[Layout.state], m.time, .string state⟩
  | status (status : ScenarioStatus) (h : status = s'.status ∨
      s.hasStarted = false ∧ status = .waitingStart ∧ s'.status = s.status) :
      Written m s s' ⟨[Layout.status], m.time, .string status.text⟩
  | entered (state : String) : Written m s s' ⟨Layout.statePath state, m.time, .long m.time⟩
  | started : Written m s s' ⟨[Layout.startTime], m.time, .long m.time⟩
  | ended : Written m s s' ⟨[Layout.endTime], m.time, .long m.time⟩
  | slot (slot : String) (value : Value) :
      Written m s s' ⟨Layout.slotPath slot, m.time, value⟩
  | change (names : List String) (value : Value) (h : m.act = .change s.scope names value) :
      Written m s s' ⟨names, m.time, value⟩

theorem Alters.written {m : Moment} {s s' : Scenario} {groups : List (List Write)}
    (hlive : s.isLive = true) (h : Alters m s s' groups) :
    ∀ writes ∈ groups, ∀ w ∈ writes, Written m s s' w := by
  intro writes hwrites w hw
  cases h with
  | receive _ =>
      rw [receiveGroups] at hwrites
      split at hwrites
      · next hfirst =>
        rw [Bool.and_eq_true, Bool.not_eq_true'] at hfirst
        rcases List.mem_pair.mp hwrites with rfl | rfl
        · rcases List.mem_pair.mp hw with rfl | rfl
          · exact .state _
          · exact .status _ (.inr ⟨hfirst.1, rfl, rfl⟩)
        · obtain rfl := List.mem_singleton.mp hw
          exact .entered _
      · cases hwrites
  | change _ =>
      obtain rfl := List.mem_singleton.mp hwrites
      obtain rfl := List.mem_singleton.mp hw
      exact .change _ _ rfl
  | save _ =>
      obtain rfl := List.mem_singleton.mp hwrites
      obtain rfl := List.mem_singleton.mp hw
      exact .slot _ _
  | enter _ _ _ _ =>
      simp only [moveGroups, List.mem_append, List.mem_ite_nil_right, List.mem_singleton] at hwrites
      rcases hwrites with ((⟨-, rfl⟩ | ⟨-, rfl⟩) | ⟨-, rfl⟩) | rfl
      · obtain rfl := List.mem_singleton.mp hw
        exact .started
      · obtain rfl := List.mem_singleton.mp hw
        exact .entered _
      · obtain rfl := List.mem_singleton.mp hw
        exact .ended
      · rcases List.mem_pair.mp hw with rfl | rfl
        · exact .state _
        · exact .status _ (.inl rfl)
  | cancel =>
      rcases List.mem_pair.mp hwrites with rfl | rfl
      · obtain rfl := List.mem_singleton.mp hw
        exact .ended
      · rcases List.mem_pair.mp hw with rfl | rfl
        · exact .state _
        · exact .status _ (.inl (status_cancelled hlive _).symm)

/-- What an act does to the scenarios and to the store. -/
inductive Effect (m : Moment) (r' : Run) : Prop
  | quiet (scenarios : r'.scenarios.Sublist m.run.scenarios)
      (gone : ∀ s ∈ m.run.scenarios, s ∉ r'.scenarios → s.isLive = false ∧
        ∃ index c, m.act = .retire index ∧ m.run.fsms[index]? = some c ∧ s.id ∈ c.active)
      (counts : r'.fsms.map (·.created) = m.run.fsms.map (·.created))
      (created : r'.created = m.run.created)
      (store : r'.store = m.run.store ∨
        m.act = .arrive ∧ ∃ time, r'.store = m.run.store.extendTo time)
  | alters (s s' : Scenario) (groups : List (List Write)) (hs : m.run.scenario? s.id = some s)
      (hlive : s.isLive = true) (h : Alters m s s' groups)
      (scenarios : r'.scenarios = (m.run.modifyScenario s.id fun _ => s').scenarios)
      (counts : r'.fsms.map (·.created) = m.run.fsms.map (·.created))
      (created : r'.created = m.run.created)
      (store : r'.store = History.recordAll s.subtree groups m.run.store)
  | admits (index : Nat) (f : FsmDefinition) (c : FsmSchedule) (parent : Option String)
      (trigger : Option Event) (subtree : Quark) (st : Store)
      (htrigger : trigger = none ∨ trigger = m.event)
      (act : m.act = .enroll index parent trigger)
      (hf : m.run.defs.fsms[index]? = some f) (hc : m.run.fsms[index]? = some c)
      (hopen : History.openScenario m.run.root (Scenario.nameOf f.id (c.created + 1))
        m.run.store = .ok subtree st)
      (h : r' = m.run.admitted index f c parent
        ((trigger.map Event.nanos).getD m.run.store.endTime) subtree st)
  | aborts (index : Nat) (name : String) (error : StoreError) (st : Store)
      (act : m.act = .abort index)
      (hopen : History.openScenario m.run.root name m.run.store = .error error st)
      (h : r' = { m.run with store := st })

section Effects

variable {r : Run} {event : Option Event} {act : Act}

theorem map_modifyFsm {α : Type} (r : Run) (index : Nat) {p : FsmSchedule → α}
    {g : FsmSchedule → FsmSchedule} (hg : ∀ c, p (g c) = p c) :
    (r.modifyFsm index g).fsms.map p = r.fsms.map p := by
  apply List.ext_getElem?
  intro i
  rw [modifyFsm, List.getElem?_map, List.getElem?_modify, List.getElem?_map]
  cases r.fsms[i]? with
  | none => rfl
  | some c => by_cases hi : index = i <;> simp [hi, hg]

theorem map_restartIfIdle {α : Type} (r : Run) (index : Nat) {p : FsmSchedule → α}
    (hp : ∀ c, p { c with startNext := true } = p c) :
    (r.restartIfIdle index).fsms.map p = r.fsms.map p := by
  rw [restartIfIdle]
  split
  · apply map_modifyFsm
    intro c
    split
    · exact hp c
    · rfl
  · rfl

theorem counts_modifyFsm (r : Run) (index : Nat) {g : FsmSchedule → FsmSchedule}
    (hg : ∀ c, (g c).created = c.created) :
    (r.modifyFsm index g).fsms.map (·.created) = r.fsms.map (·.created) :=
  map_modifyFsm r index hg

/-- The scenarios and the store are the same, and equally many scenarios were started. -/
structure Unmoved (r r' : Run) : Prop where
  scenarios : r'.scenarios = r.scenarios
  counts : r'.fsms.map (·.created) = r.fsms.map (·.created)
  created : r'.created = r.created
  store : r'.store = r.store

theorem Unmoved.trans {r r' r'' : Run} (h : Unmoved r r') (h' : Unmoved r' r'') :
    Unmoved r r'' :=
  ⟨h'.scenarios.trans h.scenarios, h'.counts.trans h.counts, h'.created.trans h.created,
    h'.store.trans h.store⟩

theorem unmoved_modifyFsm (r : Run) (index : Nat) {g : FsmSchedule → FsmSchedule}
    (hg : ∀ c, (g c).created = c.created) : Unmoved r (r.modifyFsm index g) :=
  ⟨rfl, counts_modifyFsm r index hg, rfl, rfl⟩

theorem unmoved_restartIfIdle (r : Run) (index : Nat) : Unmoved r (r.restartIfIdle index) := by
  rw [restartIfIdle]
  split
  · apply unmoved_modifyFsm
    intro c
    split <;> rfl
  · exact ⟨rfl, rfl, rfl, rfl⟩

theorem Unmoved.effect {r' : Run} (h : Unmoved r r') : Effect ⟨r, event, act⟩ r' := by
  refine .quiet ?_ ?_ h.counts h.created (.inl h.store)
  · rw [h.scenarios]
  · intro s hs hnot
    exact (hnot (h.scenarios ▸ hs)).elim

theorem modifyScenario_eq {r : Run} (hn : r.Numbered) {s : Scenario}
    (hs : r.scenario? s.id = some s) (f : Scenario → Scenario) :
    r.modifyScenario s.id f = r.modifyScenario s.id fun _ => f s := by
  have hmap : (r.scenarios.map fun x => if x.id == s.id then f x else x) =
      r.scenarios.map fun x => if x.id == s.id then f s else x := by
    apply List.map_congr_left
    intro x hx
    by_cases heq : x.id = s.id
    · rw [hn.eq_of_id hx (mem_of_scenario? hs) heq]
    · simp [heq]
  rw [modifyScenario, hmap, modifyScenario]

theorem modifyScenario_self (hn : r.Numbered) {s : Scenario} (hs : r.scenario? s.id = some s) :
    (r.modifyScenario s.id fun _ => s).scenarios = r.scenarios := by
  rw [modifyScenario]
  conv_rhs => rw [← List.map_id r.scenarios]
  apply List.map_congr_left
  intro x hx
  by_cases heq : x.id = s.id
  · rw [hn.eq_of_id hx (mem_of_scenario? hs) heq]
    simp
  · simp [heq]

/-- The run after a change of a scenario, with what is recorded of it. -/
def altered (r : Run) (s s' : Scenario) (groups : List (List Write)) : Run :=
  { r.modifyScenario s.id fun _ => s' with store := History.recordAll s.subtree groups r.store }

theorem receive_altered (hn : r.Numbered) {s : Scenario} (hs : r.scenario? s.id = some s)
    (f : FsmDefinition) (event : Event) :
    r.receive f s event =
      r.altered s { s with lastEvent := some r.received } (receiveGroups f s event.nanos) := by
  rw [receive_eq, modifyScenario_eq hn hs, receiveChanges_eq, recordAll_map]
  rfl

theorem enter_altered {s : Scenario} (hs : r.scenario? s.id = some s) (index : Nat)
    (f : FsmDefinition) (current next : String) (time : Int64) :
    r.enter index f s.id current next time =
      let after := moved f current next time s
      let left := leavesInitial f s current next
      let run := (r.altered s after
        (moveGroups time left (next != current) next after.status)).modifyFsm index
          (counted f left after.status)
      if after.status.isTerminal then (run.restartIfIdle index, .settled)
      else if next != current && (f.state? next).any (·.automatic) then (run, .again)
      else (run, .settled) := by
  have hsubtree : (moved f current next time s).subtree = s.subtree := by rw [moved_eq]
  rw [enter, hs]
  simp only [recordMove_eq, moveChanges_eq, recordAll_map, hsubtree]
  rfl

theorem enter_spec (index : Nat) (f : FsmDefinition) {s : Scenario} (current next : String)
    (time : Int64) (hs : r.scenario? s.id = some s) :
    Unmoved
      (r.altered s (moved f current next time s)
        (moveGroups time (leavesInitial f s current next) (next != current) next
          (moved f current next time s).status))
      (r.enter index f s.id current next time).1 := by
  rw [enter_altered hs]
  have hmove := unmoved_modifyFsm
    (r.altered s (moved f current next time s)
      (moveGroups time (leavesInitial f s current next) (next != current) next
        (moved f current next time s).status)) index
    (g := counted f (leavesInitial f s current next) (moved f current next time s).status)
    fun c => created_counted ..
  simp only
  split
  · exact hmove.trans (unmoved_restartIfIdle _ index)
  · split
    · exact hmove
    · exact hmove

theorem record_restartIfIdle (r : Run) (index : Nat) (m : StoreM Unit) :
    (r.restartIfIdle index).record m = (r.record m).restartIfIdle index := by
  rw [record_eq, record_eq, restartIfIdle, restartIfIdle]
  change _ = if r.liveCount index = 0 then _ else _
  split <;> rfl

theorem cancelLive_altered (hn : r.Numbered) {s : Scenario} (hs : r.scenario? s.id = some s) :
    r.cancelLive s =
      let run := r.altered s { s.advance .abandoned with endTime := some r.store.endTime }
        (cancelGroups r.store.endTime s.state)
      match r.defs.fsmIndex? s.fsm with
      | some index =>
          (run.modifyFsm index fun c =>
            { c with
              waiting := if s.isWaiting then c.waiting - 1 else c.waiting
              abandoned := c.abandoned + 1 }).restartIfIdle index
      | none => run := by
  have hgroups : History.recordAll s.subtree (cancelGroups r.store.endTime s.state) r.store =
      (History.setState s.subtree r.store.endTime s.state .abandoned).after
        ((History.setEndTime s.subtree r.store.endTime).after r.store) := by
    rw [History.setState_eq, History.setEndTime, History.write_eq_writeAll]
    rfl
  rw [cancelLive, modifyScenario_eq hn hs, altered, hgroups]
  cases hindex : r.defs.fsmIndex? s.fsm with
  | none =>
      have hindex' : (r.modifyScenario s.id fun _ =>
          { s.advance .abandoned with endTime := some r.store.endTime }).defs.fsmIndex? s.fsm =
            none := hindex
      simp only [hindex']
      rw [record_eq, record_eq]
      rfl
  | some index =>
      have hindex' : (r.modifyScenario s.id fun _ =>
          { s.advance .abandoned with endTime := some r.store.endTime }).defs.fsmIndex? s.fsm =
            some index := hindex
      simp only [hindex', record_restartIfIdle]
      rw [record_eq, record_eq]
      rfl

theorem cancelLive_spec {s : Scenario} (hn : r.Numbered) (hs : r.scenario? s.id = some s) :
    Unmoved
      (r.altered s { s.advance .abandoned with endTime := some r.store.endTime }
        (cancelGroups r.store.endTime s.state))
      (r.cancelLive s) := by
  rw [cancelLive_altered hn hs]
  simp only
  split
  · refine (unmoved_modifyFsm _ _ ?_).trans (unmoved_restartIfIdle _ _)
    intro c
    rfl
  · exact ⟨rfl, rfl, rfl, rfl⟩

def ended (r : Run) (c : FsmSchedule) : List ScenarioId :=
  c.active.filter fun id => !r.isLive id

theorem retire_eq {r : Run} {index : Nat} {c : FsmSchedule} (hc : r.fsms[index]? = some c) :
    r.retire index =
      ({ r with
        scenarios := r.scenarios.filter fun s => !(r.ended c).contains s.id } : Run).modifyFsm
          index fun c' =>
            { c' with active := c'.active.filter fun id => !(r.ended c).contains id } := by
  rw [retire, hc]
  rfl

theorem effect_retire (hn : r.Numbered) {index : Nat} :
    Effect ⟨r, event, .retire index⟩ (r.retire index) := by
  cases hc : r.fsms[index]? with
  | none =>
      rw [retire, hc]
      exact Unmoved.effect ⟨rfl, rfl, rfl, rfl⟩
  | some c =>
      rw [retire_eq hc]
      refine .quiet List.filter_sublist ?_ (counts_modifyFsm _ index fun _ => rfl) rfl (.inl rfl)
      intro s hs hnot
      have hgone : s.id ∈ r.ended c := by
        by_contra hgone
        exact hnot (List.mem_filter.mpr ⟨hs, by simpa using hgone⟩)
      obtain ⟨hactive, hdead⟩ := List.mem_filter.mp hgone
      rw [isLive, hn.scenario?_of_mem hs, Option.any_some, Bool.not_eq_true'] at hdead
      exact ⟨hdead, index, c, rfl, hc, hactive⟩

theorem Effect.of_move {m : Moment} {r' : Run} (hn : m.run.Numbered) (h : Move m r') :
    Effect m r' := by
  cases h with
  | arrive _ =>
      exact .quiet (.refl _) (fun s hs hnot => (hnot hs).elim) rfl rfl (.inr ⟨rfl, _, rfl⟩)
  | begin _ => exact Unmoved.effect ⟨rfl, rfl, rfl, rfl⟩
  | appoint _ _ =>
      apply Unmoved.effect
      apply unmoved_modifyFsm
      intro c
      rfl
  | takeDue _ _ =>
      apply Unmoved.effect
      apply unmoved_modifyFsm
      intro c
      rfl
  | decide => exact Unmoved.effect ⟨rfl, rfl, rfl, rfl⟩
  | abort hopen => exact .aborts _ _ _ _ rfl hopen rfl
  | enroll htrigger hf hc _ hopen =>
      exact .admits _ _ _ _ _ _ _ htrigger rfl hf hc hopen rfl
  | handle => exact Unmoved.effect ⟨rfl, rfl, rfl, rfl⟩
  | receive hs hlive hf =>
      rw [receive_altered hn hs]
      exact .alters _ _ _ hs hlive (.receive hf) rfl rfl rfl rfl
  | operate _ => exact Unmoved.effect ⟨rfl, rfl, rfl, rfl⟩
  | change hs =>
      refine .alters _ _ _ hs.1 hs.2.1 (.change hs) ?_ (by simp) (by simp) ?_
      · rw [modifyScenario_self hn hs.1]
        simp
      · rw [History.write_eq_writeAll]
        simp
        rfl
  | save hs =>
      refine .alters _ _ _ hs.1 hs.2.1 (.save hs) ?_ (by simp) (by simp) ?_
      · rw [modifyScenario_self hn hs.1]
        simp
      · rw [History.saveSlot, History.write_eq_writeAll]
        simp
        rfl
  | emit _ _ => exact Unmoved.effect ⟨rfl, rfl, rfl, rfl⟩
  | @enter r e index f s state t hs hf hstate ht =>
      have h := enter_spec index f s.state t.target e.nanos hs.1
      exact .alters _ _ _ hs.1 hs.2.1 (.enter hs hf hstate ht) h.scenarios h.counts h.created
        h.store
  | merge =>
      apply Unmoved.effect
      apply unmoved_modifyFsm
      intro c
      rfl
  | retire => exact effect_retire hn
  | cancel hs hlive =>
      have h := cancelLive_spec hn hs
      exact .alters _ _ _ hs hlive .cancel h.scenarios h.counts h.created h.store
  | dispose => exact Unmoved.effect ⟨rfl, rfl, rfl, rfl⟩

theorem Effect.forall_scenarios {m : Moment} {r' : Run} {P : Scenario → Prop}
    (effect : Effect m r') (new : ∀ f ∈ m.run.defs.fsms, ∀ sequence parent subtree,
      P (m.run.added f sequence parent subtree))
    (alters : ∀ s s' groups, s.isLive = true → Alters m s s' groups → P s → P s')
    (h : ∀ s ∈ m.run.scenarios, P s) : ∀ s ∈ r'.scenarios, P s := by
  intro x hx
  cases effect with
  | quiet scenarios => exact h x (scenarios.subset hx)
  | alters s s' groups hs hlive halters scenarios =>
      rw [scenarios, mem_modifyScenario hs] at hx
      rcases hx with rfl | ⟨hx, -⟩
      · exact alters s x groups hlive halters (h s (mem_of_scenario? hs))
      · exact h x hx
  | admits index f c parent trigger subtree st _ _ hf _ _ heq =>
      rw [heq, admitted_eq, List.mem_append, List.mem_singleton] at hx
      rcases hx with hx | rfl
      · exact h x hx
      · exact new f (List.mem_of_getElem? hf) (c.created + 1) parent subtree
  | aborts _ _ _ _ _ _ heq =>
      rw [heq] at hx
      exact h x hx

end Effects

end Run

end TraceAutomata
