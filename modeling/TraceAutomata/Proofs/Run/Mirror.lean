import TraceAutomata.Proofs.Run.Changes
import TraceAutomata.Proofs.Run.Status
import TraceAutomata.Proofs.Store.Ongoing

namespace TraceAutomata

namespace Layout

/-- The names directly below a scenario that only the run itself writes at. -/
def ownNames : List String :=
  [fsm, parent, state, status, startTime, endTime, states, scratch]

/-- The paths that a record is read from. -/
def cardPaths : List (List String) :=
  [[fsm], [parent], [state], [status], [startTime], [endTime]]

end Layout

namespace Moment

/-- A change of a state does not write at a name that belongs to the run. -/
def Respectful (m : Moment) : Prop :=
  ∀ scope names value, m.act = .change scope names value →
    ∀ name, names.head? = some name → name ∉ Layout.ownNames

instance (m : Moment) : Decidable m.Respectful :=
  match hact : m.act with
  | .change scope names value =>
      decidable_of_iff (∀ name ∈ names.head?, name ∉ Layout.ownNames) <| by
        simp [Respectful, hact]
  | .arrive | .begin | .appoint _ | .takeDue _ | .decide _ _ _ _ | .abort _ | .enroll _ _ _
  | .handle _ | .receive _ _ | .operate _ _ | .save _ _ _ | .emit _ _ | .enter _ _ _ _
  | .merge _ | .retire _ | .cancel _ | .dispose => isTrue fun _ _ _ h => by simp [hact] at h

end Moment

namespace Run

/-- The values that hold below the subtree of a scenario are those in memory. The state and the
status are written with the first event. -/
structure Mirrors (v : View) (s : Scenario) : Prop where
  fsm : v.ongoing [Layout.fsm] = .string s.fsm
  parent : v.ongoing [Layout.parent] = s.parent.elim .null .string
  startTime : v.ongoing [Layout.startTime] = s.startTime.elim .null .long
  endTime : v.ongoing [Layout.endTime] = s.endTime.elim .null .long
  state : s.hasStarted = true ∨ s.isLive = false → v.ongoing [Layout.state] = .string s.state
  status : s.hasStarted = true ∨ s.isLive = false →
    v.ongoing [Layout.status] = .string s.status.text

theorem mirrors_added (r : Run) (f : FsmDefinition) (sequence : Nat) (parent : Option String)
    (subtree : Quark) (time : Int64) :
    Mirrors (View.fresh.writeAll (identityWrites time f.id parent)).1
      (r.added f sequence parent subtree) := by
  have hongoing : ∀ path, (View.fresh.writeAll (identityWrites time f.id parent)).1.ongoing path =
      View.latest path (View.fresh.ongoing path) (identityWrites time f.id parent) := by
    intro path
    apply View.ongoing_writeAll _ (accepts_identity time f.id parent)
    intro w hw _
    rw [identityWrites, List.mem_cons] at hw
    rcases hw with rfl | hw
    · exact Value.solid_string _
    · obtain ⟨p, -, rfl⟩ := Option.map_eq_some_iff.mp (Option.mem_toList.mp hw)
      exact Value.solid_string _
  have hnew : ¬ ((r.added f sequence parent subtree).hasStarted = true ∨
      (r.added f sequence parent subtree).isLive = false) := by
    rintro (h | h) <;> cases h
  constructor
  · rw [hongoing]
    cases parent <;> rfl
  · rw [hongoing]
    cases parent <;> rfl
  · rw [hongoing]
    cases parent <;> rfl
  · rw [hongoing]
    cases parent <;> rfl
  · exact fun h => (hnew h).elim
  · exact fun h => (hnew h).elim

section Alters

variable {m : Moment} {s s' : Scenario} {groups : List (List Write)}

theorem slotPath_not_mem (slot : String) : Layout.slotPath slot ∉ Layout.cardPaths := by
  simp [Layout.slotPath, Layout.cardPaths]

theorem statePath_not_mem (state : String) : Layout.statePath state ∉ Layout.cardPaths := by
  simp [Layout.statePath, Layout.cardPaths]

theorem not_mem_of_respectful (hown : m.Respectful) {scope : ActionScope} {names : List String}
    {value : Value} (hact : m.act = .change scope names value) : names ∉ Layout.cardPaths := by
  intro hmem
  have hhead : ∀ path ∈ Layout.cardPaths, ∃ name, path.head? = some name ∧
      name ∈ Layout.ownNames := by decide
  obtain ⟨name, hname, hmem⟩ := hhead names hmem
  exact hown scope names value hact name hname hmem

theorem solid_of_alters (hlive : s.isLive = true) (h : Alters m s s' groups)
    (hown : m.Respectful) :
    ∀ writes ∈ groups, ∀ w ∈ writes, w.path ∈ Layout.cardPaths → w.value.Solid := by
  intro writes hwrites w hw hpath
  cases h.written hlive writes hwrites w hw with
  | state state => exact Value.solid_string state
  | status status _ => exact Value.solid_string status.text
  | entered _ => exact Value.solid_long m.time
  | started => exact Value.solid_long m.time
  | ended => exact Value.solid_long m.time
  | slot slot _ => exact (slotPath_not_mem slot hpath).elim
  | change _ _ hact => exact (not_mem_of_respectful hown hact hpath).elim

theorem time_of_alters (hlive : s.isLive = true) (h : Alters m s s' groups)
    (hown : m.Respectful) :
    ∀ writes ∈ groups, ∀ w ∈ writes, w.time = m.time ∧ w.path ∉ Layout.identityPaths := by
  have hsub : ∀ path, path ∉ Layout.cardPaths → path ∉ Layout.identityPaths := by
    intro path hpath hmem
    have hcard : ∀ path ∈ Layout.identityPaths, path ∈ Layout.cardPaths := by decide
    exact hpath (hcard path hmem)
  intro writes hwrites w hw
  cases h.written hlive writes hwrites w hw with
  | state _ => exact ⟨rfl, show [Layout.state] ∉ Layout.identityPaths by decide⟩
  | status _ _ => exact ⟨rfl, show [Layout.status] ∉ Layout.identityPaths by decide⟩
  | entered state => exact ⟨rfl, hsub _ (statePath_not_mem state)⟩
  | started => exact ⟨rfl, show [Layout.startTime] ∉ Layout.identityPaths by decide⟩
  | ended => exact ⟨rfl, show [Layout.endTime] ∉ Layout.identityPaths by decide⟩
  | slot slot _ => exact ⟨rfl, hsub _ (slotPath_not_mem slot)⟩
  | change _ _ hact => exact ⟨rfl, hsub _ (not_mem_of_respectful hown hact)⟩

section Latest

open View

variable {path : List String} (value : Value) (time : Int64)

theorem latest_stateWrites (state : String) (status : ScenarioStatus) :
    latest path value (stateWrites time state status) =
      if path = [Layout.status] then .string status.text
      else if path = [Layout.state] then .string state
      else value := by
  rw [stateWrites, latest_cons, latest_cons, latest_nil]
  simp only [eq_comm (b := path)]

theorem latest_receiveGroups (f : FsmDefinition) (s : Scenario)
    (hpath : path ∈ Layout.cardPaths) :
    latest path value (receiveGroups f s time).flatten =
      if !s.hasStarted && s.state == f.initial then
        if path = [Layout.status] then .string ScenarioStatus.waitingStart.text
        else if path = [Layout.state] then .string s.state
        else value
      else value := by
  have hne : Layout.statePath s.state ≠ path := fun h => statePath_not_mem _ (h ▸ hpath)
  rw [receiveGroups]
  split
  · rw [List.flatten_cons, latest_append, latest_stateWrites, List.flatten_cons, List.flatten_nil,
      List.append_nil, latest_cons, latest_nil, if_neg hne]
  · rfl

theorem latest_moveGroups (left changed : Bool) (next : String) (status : ScenarioStatus)
    (hpath : path ∈ Layout.cardPaths) :
    latest path value (moveGroups time left changed next status).flatten =
      if path = [Layout.status] then .string status.text
      else if path = [Layout.state] then .string next
      else if path = [Layout.endTime] ∧ status.isTerminal = true then .long time
      else if path = [Layout.startTime] ∧ left = true then .long time
      else value := by
  have hne : Layout.statePath next ≠ path := fun h => statePath_not_mem _ (h ▸ hpath)
  have hsingle : ∀ (b : Bool) (p : List String) (value : Value),
      latest path value (if b then [[(⟨p, time, .long time⟩ : Write)]] else []).flatten =
        if path = p ∧ b = true then .long time else value := by
    intro b p value
    cases b with
    | false => simp
    | true =>
        rw [if_pos rfl, List.flatten_cons, List.flatten_nil, List.append_nil, latest_cons,
          latest_nil]
        simp [eq_comm (a := p)]
  rw [moveGroups, List.flatten_append, List.flatten_append, List.flatten_append, latest_append,
    latest_append, latest_append, hsingle, hsingle, hsingle, List.flatten_singleton,
    latest_stateWrites]
  simp [hne.symm]

theorem latest_cancelGroups (state : String) :
    latest path value (cancelGroups time state).flatten =
      if path = [Layout.status] then .string ScenarioStatus.abandoned.text
      else if path = [Layout.state] then .string state
      else if path = [Layout.endTime] then .long time
      else value := by
  rw [cancelGroups, List.flatten_cons, latest_append, List.flatten_singleton, latest_stateWrites,
    latest_cons, latest_nil]
  simp only [eq_comm (b := path)]

end Latest

theorem Grounded.initial {r : Run} (hground : r.Grounded) (hs : s ∈ r.scenarios)
    (hlive : s.isLive = true) {index : Nat} {f : FsmDefinition} (hf : r.OfFsm s index f)
    (hstarted : s.hasStarted = false) : s.status = .waitingStart ∧ s.state = f.initial := by
  have hwaiting := hground.begins s hs hlive hstarted
  obtain ⟨hget, hfsm⟩ := hf.spec hground.nodup_ids
  obtain ⟨c, hc⟩ := hground.scheduled.exists_schedule hget
  refine ⟨hwaiting, (hground.scheduled.sound index f c hget hc).of_waiting s hs hfsm ?_⟩
  simp [Scenario.isWaiting, hwaiting]

theorem Mirrors.congr {v v' : View} (h : Mirrors v s)
    (hongoing : ∀ path ∈ Layout.cardPaths, v'.ongoing path = v.ongoing path) : Mirrors v' s where
  fsm := (hongoing _ (by decide)).trans h.fsm
  parent := (hongoing _ (by decide)).trans h.parent
  startTime := (hongoing _ (by decide)).trans h.startTime
  endTime := (hongoing _ (by decide)).trans h.endTime
  state hs := (hongoing _ (by decide)).trans (h.state hs)
  status hs := (hongoing _ (by decide)).trans (h.status hs)

section Cases

variable {v v' : View} {f : FsmDefinition} {time : Int64}

theorem Mirrors.received (h : Mirrors v s)
    (hbegun : s.hasStarted = true ∨ s.status = .waitingStart ∧ s.state = f.initial)
    (hongoing : ∀ path ∈ Layout.cardPaths, v'.ongoing path =
      View.latest path (v.ongoing path) (receiveGroups f s time).flatten) (number : Option Nat) :
    Mirrors v' { s with lastEvent := number } := by
  have hreceive := fun path (hpath : path ∈ Layout.cardPaths) =>
    (hongoing path hpath).trans (latest_receiveGroups _ _ f s hpath)
  have hother : ∀ path ∈ Layout.cardPaths, path ≠ [Layout.status] → path ≠ [Layout.state] →
      v'.ongoing path = v.ongoing path := by
    intro path hpath hstatus hstate
    rw [hreceive path hpath, if_neg hstatus, if_neg hstate, ite_self]
  have hfirst : s.hasStarted = true ∨ s.status = .waitingStart ∧
      (!s.hasStarted && s.state == f.initial) = true := by
    cases hstarted : s.hasStarted with
    | true => exact .inl rfl
    | false =>
        rcases hbegun with hbegun | ⟨hstatus, hstate⟩
        · rw [hstarted] at hbegun
          cases hbegun
        · exact .inr ⟨hstatus, by simp [hstate]⟩
  constructor
  · exact (hother _ (by decide) (by decide) (by decide)).trans h.fsm
  · exact (hother _ (by decide) (by decide) (by decide)).trans h.parent
  · exact (hother _ (by decide) (by decide) (by decide)).trans h.startTime
  · exact (hother _ (by decide) (by decide) (by decide)).trans h.endTime
  · intro _
    rw [hreceive _ (by decide)]
    rcases hfirst with hstarted | ⟨-, hbegun⟩
    · rw [if_neg (by simp [hstarted])]
      exact h.state (.inl hstarted)
    · rw [if_pos hbegun, if_neg (by decide), if_pos rfl]
  · intro _
    rw [hreceive _ (by decide)]
    rcases hfirst with hstarted | ⟨hstatus, hbegun⟩
    · rw [if_neg (by simp [hstarted])]
      exact h.status (.inl hstarted)
    · rw [if_pos hbegun, if_pos rfl]
      exact congrArg (fun status => Value.string (ScenarioStatus.text status)) hstatus.symm

theorem Mirrors.entered (h : Mirrors v s) (hlive : s.isLive = true) (current next : String)
    (changed : Bool)
    (hongoing : ∀ path ∈ Layout.cardPaths, v'.ongoing path =
      View.latest path (v.ongoing path) (moveGroups time (leavesInitial f s current next) changed
        next (moved f current next time s).status).flatten) :
    Mirrors v' (moved f current next time s) := by
  have hmove := fun path (hpath : path ∈ Layout.cardPaths) =>
    (hongoing path hpath).trans (latest_moveGroups _ _ _ _ _ _ hpath)
  have hidentity : ∀ path ∈ Layout.identityPaths, v'.ongoing path = v.ongoing path := by
    intro path hpath
    have hplace : path ∈ Layout.cardPaths ∧ path ≠ [Layout.status] ∧ path ≠ [Layout.state] ∧
        path ≠ [Layout.endTime] ∧ path ≠ [Layout.startTime] := by
      revert path
      decide
    obtain ⟨hcard, hstatus, hstate, hend, hstart⟩ := hplace
    rw [hmove path hcard, if_neg hstatus, if_neg hstate, if_neg fun h => hend h.1,
      if_neg fun h => hstart h.1]
  constructor
  · rw [hidentity _ (by decide), moved_eq]
    exact h.fsm
  · rw [hidentity _ (by decide), moved_eq]
    exact h.parent
  · rw [hmove _ (by decide), if_neg (by decide), if_neg (by decide),
      if_neg fun h => absurd h.1 (by decide), moved_eq]
    cases hleft : leavesInitial f s current next with
    | true =>
        simp only [and_self, if_true]
        rfl
    | false =>
        simp only [Bool.false_eq_true, and_false, if_false]
        exact h.startTime
  · rw [hmove _ (by decide), if_neg (by decide), if_neg (by decide),
      isTerminal_moved f current next time hlive, moved_eq]
    cases f.isAbandon next || f.isFinal next with
    | true =>
        simp only [and_self, if_true]
        rfl
    | false =>
        simp only [Bool.false_eq_true, and_false, if_false]
        rw [if_neg fun h => absurd h.1 (by decide)]
        exact h.endTime
  · intro _
    rw [hmove _ (by decide), if_neg (by decide), if_pos rfl, moved_eq]
  · intro _
    rw [hmove _ (by decide), if_pos rfl]

theorem Mirrors.cancelled (h : Mirrors v s) (hlive : s.isLive = true)
    (hongoing : ∀ path ∈ Layout.cardPaths, v'.ongoing path =
      View.latest path (v.ongoing path) (cancelGroups time s.state).flatten) :
    Mirrors v' { s.advance .abandoned with endTime := some time } := by
  have hcancel := fun path (hpath : path ∈ Layout.cardPaths) =>
    (hongoing path hpath).trans (latest_cancelGroups _ _ _)
  constructor
  · rw [hcancel _ (by decide), if_neg (by decide), if_neg (by decide), if_neg (by decide),
      advance_eq]
    exact h.fsm
  · rw [hcancel _ (by decide), if_neg (by decide), if_neg (by decide), if_neg (by decide),
      advance_eq]
    exact h.parent
  · rw [hcancel _ (by decide), if_neg (by decide), if_neg (by decide), if_neg (by decide),
      advance_eq]
    exact h.startTime
  · rw [hcancel _ (by decide), if_neg (by decide), if_neg (by decide), if_pos rfl]
    rfl
  · intro _
    rw [hcancel _ (by decide), if_neg (by decide), if_pos rfl, advance_eq]
  · intro _
    rw [hcancel _ (by decide), if_pos rfl, status_cancelled hlive]

end Cases

/-- An act whose writes are accepted leaves the record of a scenario as the scenario is. -/
theorem Mirrors.alters {v : View} (hmirrors : Mirrors v s) (hground : m.run.Grounded)
    (hs : s ∈ m.run.scenarios) (hlive : s.isLive = true) (h : Alters m s s' groups)
    (hown : m.Respectful) (haccept : v.accepts groups = true) :
    Mirrors (v.record groups) s' := by
  have hongoing : ∀ path ∈ Layout.cardPaths, (v.record groups).ongoing path =
      View.latest path (v.ongoing path) groups.flatten := by
    intro path hpath
    apply View.ongoing_record v haccept
    intro writes hwrites w hw heq
    exact solid_of_alters hlive h hown writes hwrites w hw (heq ▸ hpath)
  have hother : ∀ (names : List String) (time : Int64) (value : Value),
      names ∉ Layout.cardPaths → groups = [[⟨names, time, value⟩]] →
        Mirrors (v.record groups) s := by
    rintro names time value hnames rfl
    refine hmirrors.congr fun path hpath => ?_
    have hne : names ≠ path := fun heq => hnames (heq ▸ hpath)
    rw [hongoing path hpath, List.flatten_singleton, View.latest_cons, View.latest_nil, if_neg hne]
  cases h with
  | receive hf =>
      have hbegun := (Bool.eq_false_or_eq_true s.hasStarted).imp_right (hground.initial hs hlive hf)
      exact hmirrors.received hbegun hongoing _
  | change _ => exact hother _ _ _ (not_mem_of_respectful hown rfl) rfl
  | save _ => exact hother _ _ _ (slotPath_not_mem _) rfl
  | @enter _ _ _ _ _ _ t _ _ _ _ => exact hmirrors.entered hlive s.state t.target _ hongoing
  | cancel => exact hmirrors.cancelled hlive hongoing

end Alters

end Run

end TraceAutomata
