import Mathlib.Data.List.Nodup
import TraceAutomata.Proofs.Run.Moment
import TraceAutomata.Proofs.Store.View

namespace TraceAutomata

namespace Run

theorem record_eq (r : Run) (m : StoreM Unit) :
    r.record m = { r with store := m.after r.store } := by
  rw [record, StoreM.after]
  cases m r.store <;> rfl

section Record

variable (r : Run) (m : StoreM Unit)

@[simp] theorem record_defs : (r.record m).defs = r.defs := by rw [record_eq]

@[simp] theorem record_settings : (r.record m).settings = r.settings := by rw [record_eq]

@[simp] theorem record_root : (r.record m).root = r.root := by rw [record_eq]

@[simp] theorem record_fsms : (r.record m).fsms = r.fsms := by rw [record_eq]

@[simp] theorem record_scenarios : (r.record m).scenarios = r.scenarios := by rw [record_eq]

@[simp] theorem record_created : (r.record m).created = r.created := by rw [record_eq]

@[simp] theorem record_received : (r.record m).received = r.received := by rw [record_eq]

@[simp] theorem record_begun : (r.record m).begun = r.begun := by rw [record_eq]

@[simp] theorem record_disposed : (r.record m).disposed = r.disposed := by rw [record_eq]

@[simp] theorem record_store : (r.record m).store = m.after r.store := by rw [record_eq]

@[simp] theorem record_scenario? (id : ScenarioId) :
    (r.record m).scenario? id = r.scenario? id := by
  rw [scenario?, record_scenarios, scenario?]

end Record

def recordAll (r : Run) (changes : List (StoreM Unit)) : Run :=
  changes.foldl record r

theorem recordAll_eq (r : Run) (changes : List (StoreM Unit)) :
    r.recordAll changes =
      { r with store := changes.foldl (fun st m => m.after st) r.store } := by
  rw [recordAll]
  induction changes generalizing r with
  | nil => rfl
  | cons m rest ih => rw [List.foldl_cons, ih, record_eq, List.foldl_cons]

def receiveChanges (f : FsmDefinition) (s : Scenario) (time : Int64) : List (StoreM Unit) :=
  if !s.hasStarted && s.state == f.initial then
    [History.setState s.subtree time s.state .waitingStart,
      History.enterState s.subtree time s.state]
  else []

theorem receive_eq (r : Run) (f : FsmDefinition) (s : Scenario) (event : Event) :
    r.receive f s event =
      (r.modifyScenario s.id fun s => { s with lastEvent := some r.received }).recordAll
        (receiveChanges f s event.nanos) := by
  rw [receive, receiveChanges, recordAll]
  split <;> rfl

def moveChanges (subtree : Quark) (time : Int64) (left changed : Bool) (next : String)
    (status : ScenarioStatus) : List (StoreM Unit) :=
  (if left then [History.setStartTime subtree time] else []) ++
    (if changed then [History.enterState subtree time next] else []) ++
    (if status.isTerminal then [History.setEndTime subtree time] else []) ++
    [History.setState subtree time next status]

theorem recordMove_eq (r : Run) (subtree : Quark) (time : Int64) (left changed : Bool)
    (next : String) (status : ScenarioStatus) :
    r.recordMove subtree time left changed next status =
      r.recordAll (moveChanges subtree time left changed next status) := by
  rw [recordMove, moveChanges, recordAll]
  cases left <;> cases changed <;> cases status.isTerminal <;> rfl

/-- The numbers of the remembered scenarios increase, up to the number of the latest one. -/
structure Numbered (r : Run) : Prop where
  increasing : r.scenarios.Pairwise fun s s' => s.id < s'.id
  le_created : ∀ s ∈ r.scenarios, s.id ≤ r.created

/-- What stays the same while one scenario is busy: the definitions, and every other scenario
that there is. -/
structure Keeps (busy : Option ScenarioId) (r r' : Run) : Prop where
  defs : r'.defs = r.defs
  settings : r'.settings = r.settings
  root : r'.root = r.root
  received : r'.received = r.received
  begun : r'.begun = r.begun
  disposed : r'.disposed = r.disposed
  created_le : r.created ≤ r'.created
  scenario? : ∀ id ≤ r.created, some id ≠ busy → r'.scenario? id = r.scenario? id
  numbered : r.Numbered → r'.Numbered

namespace Keeps

variable {busy : Option ScenarioId} {r r' r'' : Run}

theorem refl (busy : Option ScenarioId) (r : Run) : Keeps busy r r :=
  ⟨rfl, rfl, rfl, rfl, rfl, rfl, Nat.le_refl _, fun _ _ _ => rfl, id⟩

theorem trans (h : Keeps busy r r') (h' : Keeps busy r' r'') : Keeps busy r r'' where
  defs := h'.defs.trans h.defs
  settings := h'.settings.trans h.settings
  root := h'.root.trans h.root
  received := h'.received.trans h.received
  begun := h'.begun.trans h.begun
  disposed := h'.disposed.trans h.disposed
  created_le := Nat.le_trans h.created_le h'.created_le
  scenario? id hle hne :=
    (h'.scenario? id (Nat.le_trans hle h.created_le) hne).trans (h.scenario? id hle hne)
  numbered hr := h'.numbered (h.numbered hr)

theorem weaken (h : Keeps none r r') : Keeps busy r r' :=
  { h with scenario? := fun id hle _ => h.scenario? id hle (by simp) }

end Keeps

theorem keeps_of_scenarios (busy : Option ScenarioId) {r r' : Run} (defs : r'.defs = r.defs)
    (settings : r'.settings = r.settings) (root : r'.root = r.root)
    (received : r'.received = r.received) (begun : r'.begun = r.begun)
    (disposed : r'.disposed = r.disposed) (created : r'.created = r.created)
    (scenario? : ∀ id, some id ≠ busy → r'.scenario? id = r.scenario? id)
    (ids : r'.scenarios.map (·.id) = r.scenarios.map (·.id)) : Keeps busy r r' where
  defs := defs
  settings := settings
  root := root
  received := received
  begun := begun
  disposed := disposed
  created_le := Nat.le_of_eq created.symm
  scenario? id _ hne := scenario? id hne
  numbered h := by
    refine ⟨?_, fun s hs => ?_⟩
    · have hinc := List.pairwise_map.mpr h.increasing
      rw [← ids] at hinc
      exact List.pairwise_map.mp hinc
    · have hid : s.id ∈ r'.scenarios.map (·.id) := List.mem_map_of_mem hs
      rw [ids] at hid
      obtain ⟨s', hs', heq⟩ := List.mem_map.mp hid
      rw [created, ← heq]
      exact h.le_created s' hs'

theorem keeps_of_eq (busy : Option ScenarioId) {r r' : Run} (defs : r'.defs = r.defs)
    (settings : r'.settings = r.settings) (root : r'.root = r.root)
    (received : r'.received = r.received) (begun : r'.begun = r.begun)
    (disposed : r'.disposed = r.disposed) (created : r'.created = r.created)
    (scenarios : r'.scenarios = r.scenarios) : Keeps busy r r' :=
  keeps_of_scenarios busy defs settings root received begun disposed created
    (fun id _ => by rw [scenario?, scenarios, scenario?]) (by rw [scenarios])

theorem keeps_record (busy : Option ScenarioId) (r : Run) (m : StoreM Unit) :
    Keeps busy r (r.record m) :=
  keeps_of_eq busy (by simp) (by simp) (by simp) (by simp) (by simp) (by simp) (by simp) (by simp)

theorem keeps_recordAll (busy : Option ScenarioId) (r : Run) (changes : List (StoreM Unit)) :
    Keeps busy r (r.recordAll changes) := by
  rw [recordAll_eq]
  exact keeps_of_eq busy rfl rfl rfl rfl rfl rfl rfl rfl

theorem keeps_modifyFsm (busy : Option ScenarioId) (r : Run) (index : Nat)
    (f : FsmSchedule → FsmSchedule) : Keeps busy r (r.modifyFsm index f) :=
  keeps_of_eq busy rfl rfl rfl rfl rfl rfl rfl rfl

theorem keeps_restartIfIdle (busy : Option ScenarioId) (r : Run) (index : Nat) :
    Keeps busy r (r.restartIfIdle index) := by
  rw [restartIfIdle]
  split
  · exact keeps_modifyFsm busy r index _
  · exact .refl busy r

theorem id_of_scenario? {r : Run} {id : ScenarioId} {s : Scenario}
    (h : r.scenario? id = some s) : s.id = id := by
  have := List.find?_some h
  simpa using this

theorem mem_of_scenario? {r : Run} {id : ScenarioId} {s : Scenario}
    (h : r.scenario? id = some s) : s ∈ r.scenarios :=
  List.mem_of_find?_eq_some h

namespace Numbered

theorem nodup_ids {r : Run} (h : r.Numbered) : (r.scenarios.map (·.id)).Nodup :=
  List.pairwise_map.mpr (h.increasing.imp fun hlt => Nat.ne_of_lt hlt)

theorem eq_of_id {r : Run} (h : r.Numbered) {s s' : Scenario} (hs : s ∈ r.scenarios)
    (hs' : s' ∈ r.scenarios) (heq : s.id = s'.id) : s = s' :=
  List.inj_on_of_nodup_map h.nodup_ids hs hs' heq

theorem scenario?_of_mem {r : Run} (h : r.Numbered) {s : Scenario} (hs : s ∈ r.scenarios) :
    r.scenario? s.id = some s := by
  cases hfound : r.scenario? s.id with
  | none =>
      have := List.find?_eq_none.mp hfound s hs
      simp at this
  | some s' =>
      rw [h.eq_of_id (mem_of_scenario? hfound) hs (id_of_scenario? hfound)]

end Numbered

section ModifyScenario

variable {r : Run} {id : ScenarioId} {f : Scenario → Scenario}

theorem find?_map_ne (hf : ∀ s, s.id = id → (f s).id = id) {other : ScenarioId}
    (hne : other ≠ id) (scenarios : List Scenario) :
    (scenarios.map fun s => if s.id == id then f s else s).find? (fun s => s.id == other) =
      scenarios.find? fun s => s.id == other := by
  induction scenarios with
  | nil => rfl
  | cons s rest ih =>
      rw [List.map_cons, List.find?_cons, List.find?_cons, ih]
      by_cases hs : s.id = id
      · have hfs : ((f s).id == other) = false := hf s hs ▸ beq_false_of_ne hne.symm
        have hso : (s.id == other) = false := hs ▸ beq_false_of_ne hne.symm
        simp only [hs, beq_self_eq_true, if_true, hfs, hs ▸ hso]
      · simp only [beq_false_of_ne hs, Bool.false_eq_true, if_false]

theorem scenario?_modifyScenario_ne (hf : ∀ s, s.id = id → (f s).id = id)
    {other : ScenarioId} (hne : other ≠ id) :
    (r.modifyScenario id f).scenario? other = r.scenario? other :=
  find?_map_ne hf hne r.scenarios

theorem scenario?_modifyScenario_self (r : Run) (hf : ∀ s, s.id = id → (f s).id = id) :
    (r.modifyScenario id f).scenario? id = (r.scenario? id).map f := by
  rw [scenario?, modifyScenario, scenario?]
  induction r.scenarios with
  | nil => rfl
  | cons s rest ih =>
      rw [List.map_cons, List.find?_cons, List.find?_cons, ih]
      by_cases hs : s.id = id
      · simp only [hs, beq_self_eq_true, if_true, hf s hs, Option.map_some]
      · simp only [beq_false_of_ne hs, Bool.false_eq_true, if_false]

theorem ids_modifyScenario (hf : ∀ s, s.id = id → (f s).id = id) :
    (r.modifyScenario id f).scenarios.map (·.id) = r.scenarios.map (·.id) := by
  rw [modifyScenario, List.map_map]
  apply List.map_congr_left
  intro s _
  by_cases hs : s.id = id
  · simp [hs, hf s hs]
  · simp [hs]

theorem keeps_modifyScenario (r : Run) (id : ScenarioId) {f : Scenario → Scenario}
    (hf : ∀ s, s.id = id → (f s).id = id) :
    Keeps (some id) r (r.modifyScenario id f) :=
  keeps_of_scenarios (some id) rfl rfl rfl rfl rfl rfl rfl
    (fun _ hne => scenario?_modifyScenario_ne hf (fun h => hne (congrArg some h)))
    (ids_modifyScenario hf)

end ModifyScenario

theorem mem_modifyScenario {r : Run} {s s' : Scenario} (hs : r.scenario? s.id = some s)
    (x : Scenario) : x ∈ (r.modifyScenario s.id fun _ => s').scenarios ↔
      x = s' ∨ x ∈ r.scenarios ∧ x.id ≠ s.id := by
  rw [modifyScenario, List.mem_map]
  constructor
  · rintro ⟨y, hy, rfl⟩
    by_cases heq : y.id = s.id
    · left
      simp [heq]
    · right
      simp [heq, hy]
  · rintro (rfl | ⟨hx, hne⟩)
    · exact ⟨s, mem_of_scenario? hs, by simp⟩
    · exact ⟨x, hx, by simp [hne]⟩

def added (r : Run) (f : FsmDefinition) (sequence : Nat) (parent : Option String)
    (subtree : Quark) : Scenario :=
  { id := r.created + 1, name := Scenario.nameOf f.id sequence, fsm := f.id, parent,
    state := f.initial, subtree }

section AddScenario

variable {r : Run} {index : Nat} {f : FsmDefinition} {sequence : Nat}
  {parent : Option String} {subtree : Quark}

theorem scenario?_addScenario_of_le {id : ScenarioId} (h : id ≤ r.created) :
    (r.addScenario index f sequence parent subtree).scenario? id = r.scenario? id := by
  have hne : r.created + 1 ≠ id := Nat.ne_of_gt (Nat.lt_succ_of_le h)
  simp [scenario?, addScenario, modifyFsm, List.find?_append, hne]

theorem keeps_addScenario (r : Run) (index : Nat) (f : FsmDefinition) (sequence : Nat)
    (parent : Option String) (subtree : Quark) :
    Keeps none r (r.addScenario index f sequence parent subtree) where
  defs := rfl
  settings := rfl
  root := rfl
  received := rfl
  begun := rfl
  disposed := rfl
  created_le := Nat.le_succ _
  scenario? _ hle _ := scenario?_addScenario_of_le hle
  numbered h := by
    refine ⟨List.pairwise_append.mpr ⟨h.increasing, List.pairwise_singleton _ _, ?_⟩, ?_⟩
    · intro s hs s' hs'
      obtain rfl := List.mem_singleton.mp hs'
      exact Nat.lt_succ_of_le (h.le_created s hs)
    · intro s hs
      rcases List.mem_append.mp hs with hs | hs
      · exact Nat.le_succ_of_le (h.le_created s hs)
      · obtain rfl := List.mem_singleton.mp hs
        exact Nat.le_refl _

end AddScenario

theorem advance_eq (s : Scenario) (next : ScenarioStatus) :
    s.advance next = { s with status := (s.advance next).status } := by
  rw [Scenario.advance]
  split <;> rfl

theorem moved_eq (f : FsmDefinition) (current next : String) (time : Int64) (s : Scenario) :
    moved f current next time s =
      { s with
        state := next
        status := (moved f current next time s).status
        startTime := if leavesInitial f s current next then some time else s.startTime
        endTime := if f.isAbandon next || f.isFinal next then some time else s.endTime } := by
  rw [moved]
  cases leavesInitial f s current next <;> cases f.isAbandon next <;> cases f.isFinal next <;>
    simp only [Bool.false_eq_true, if_false, if_true, Bool.or_true, Bool.or_false] <;>
    (simp only [Scenario.advance]; repeat' split) <;> rfl

theorem status_advance_of_live {s : Scenario} (h : s.isLive = true) {next : ScenarioStatus}
    (hnext : next.isTerminal = true) : (s.advance next).status = next := by
  have hcan : s.status.canBecome next = true := by
    revert h hnext
    rw [Scenario.isLive]
    cases s.status <;> cases next <;> decide
  rw [Scenario.advance, if_pos hcan]

theorem status_moved (f : FsmDefinition) (current next : String) (time : Int64) {s : Scenario}
    (h : s.isLive = true) :
    (moved f current next time s).status =
      if f.isAbandon next then .abandoned
      else if f.isFinal next then .matched
      else if leavesInitial f s current next then .inProgress
      else s.status := by
  have hleft : ∀ left : Bool, (left = true → s.status = .waitingStart) →
      (if left then { s.advance .inProgress with startTime := some time } else s).status =
        (if left then .inProgress else s.status) ∧
      (if left then { s.advance .inProgress with startTime := some time } else s).isLive := by
    intro left hstatus
    cases left with
    | false => exact ⟨rfl, h⟩
    | true =>
        have hw := hstatus rfl
        have hcan : s.status.canBecome .inProgress = true := by rw [hw]; rfl
        simp [Scenario.advance, hcan, Scenario.isLive, ScenarioStatus.isTerminal]
  have hwait : leavesInitial f s current next = true → s.status = .waitingStart := by
    intro hl
    rw [leavesInitial, Bool.and_eq_true] at hl
    simpa [Scenario.isWaiting] using hl.2
  obtain ⟨hstatus, hlive⟩ := hleft _ hwait
  rw [moved]
  simp only
  split
  · exact status_advance_of_live hlive rfl
  · split
    · exact status_advance_of_live hlive rfl
    · exact hstatus

theorem isTerminal_moved (f : FsmDefinition) (current next : String) (time : Int64)
    {s : Scenario} (hlive : s.isLive = true) :
    (moved f current next time s).status.isTerminal = (f.isAbandon next || f.isFinal next) := by
  rw [status_moved f current next time hlive]
  split
  · next habandon =>
    rw [habandon]
    rfl
  · next habandon =>
    rw [eq_false_of_ne_true habandon]
    split
    · next hfinal =>
      rw [hfinal]
      rfl
    · next hfinal =>
      rw [eq_false_of_ne_true hfinal]
      split
      · rfl
      · simpa [Scenario.isLive] using hlive

theorem id_moved (f : FsmDefinition) (current next : String) (time : Int64) (s : Scenario) :
    (moved f current next time s).id = s.id := by
  rw [moved_eq]

section Counted

variable (f : FsmDefinition) (left : Bool) (status : ScenarioStatus) (c : FsmSchedule)

@[simp] theorem id_counted : (counted f left status c).id = c.id := by
  cases left <;> cases status <;> rfl

@[simp] theorem tracked_counted : (counted f left status c).tracked = c.tracked := by
  cases left <;> cases status <;> rfl

@[simp] theorem created_counted : (counted f left status c).created = c.created := by
  cases left <;> cases status <;> rfl

theorem waiting_counted :
    (counted f left status c).waiting = c.waiting - left.toNat := by
  cases left <;> cases status <;> rfl

theorem ended_counted :
    (counted f left status c).matched + (counted f left status c).abandoned =
      c.matched + c.abandoned + status.isTerminal.toNat := by
  cases left <;> cases status <;>
    simp only [counted, ScenarioStatus.isTerminal, Bool.toNat_true, Bool.toNat_false,
      Bool.false_eq_true, if_false, if_true] <;> omega

end Counted

theorem keeps_receive (r : Run) (f : FsmDefinition) (s : Scenario) (event : Event) :
    Keeps (some s.id) r (r.receive f s event) := by
  rw [receive_eq]
  refine .trans (keeps_modifyScenario r s.id ?_) (keeps_recordAll _ _ _)
  intro s' h
  exact h

theorem keeps_enter (r : Run) (index : Nat) (f : FsmDefinition) (id : ScenarioId)
    (current next : String) (time : Int64) :
    Keeps (some id) r (r.enter index f id current next time).1 := by
  rw [enter]
  cases hs : r.scenario? id with
  | none => exact .refl _ r
  | some s =>
      have hid : (moved f current next time s).id = id :=
        (id_moved f current next time s).trans (id_of_scenario? hs)
      have hmove := ((keeps_modifyScenario r id fun _ _ => hid).trans
        (keeps_modifyFsm (some id) _ index
          (counted f (leavesInitial f s current next) (moved f current next time s).status))).trans
        (keeps_recordAll (some id) _ (moveChanges (moved f current next time s).subtree time
          (leavesInitial f s current next) (next != current) next
          (moved f current next time s).status))
      simp only [recordMove_eq]
      split
      · exact hmove.trans (keeps_restartIfIdle _ _ _)
      · split
        · exact hmove
        · exact hmove

theorem admitted_eq (r : Run) (index : Nat) (f : FsmDefinition) (c : FsmSchedule)
    (parent : Option String) (time : Int64) (subtree : Quark) (st : Store) :
    r.admitted index f c parent time subtree st =
      { r with
        store := (History.setIdentity subtree time f.id parent).after st
        created := r.created + 1
        scenarios := r.scenarios ++ [r.added f (c.created + 1) parent subtree]
        fsms := r.fsms.modify index fun c' =>
          { c' with
            created := c.created + 1
            pending := c'.pending ++ [r.created + 1]
            waiting := c'.waiting + 1 } } := by
  rw [admitted, record_eq]
  rfl

theorem keeps_admitted {r : Run} (index : Nat) (f : FsmDefinition) (c : FsmSchedule)
    (parent : Option String) (time : Int64) (subtree : Quark) (st : Store) :
    Keeps none r (r.admitted index f c parent time subtree st) :=
  ((keeps_of_eq none rfl rfl rfl rfl rfl rfl rfl rfl : Keeps none r { r with store := st }).trans
    (keeps_record none _ _)).trans (keeps_addScenario _ _ _ _ _ _)

end Run

end TraceAutomata
