import TraceAutomata.Proofs.Run.Chronicle
import TraceAutomata.Proofs.Run.Clock
import TraceAutomata.Proofs.Store.Stamped

namespace TraceAutomata

namespace Layout

/-- Whether names lead to the time at which a scenario started, or to that at which it ended. -/
def isLifetime (names : List String) : Bool :=
  names == [startTime] || names == [endTime]

theorem isLifetime_startTime : isLifetime [startTime] = true := by decide

theorem isLifetime_endTime : isLifetime [endTime] = true := by decide

end Layout

namespace Run

/-- A scenario starts and ends once at most, and neither later than at a given time. -/
structure Lived (s : Scenario) (now : Int64) : Prop where
  waiting : s.isWaiting = true → s.startTime = none
  ended : s.endTime.isSome = s.status.isTerminal
  started_le : ∀ t ∈ s.startTime, t ≤ now
  ended_le : ∀ t ∈ s.endTime, t ≤ now
  ordered : ∀ t ∈ s.startTime, ∀ t' ∈ s.endTime, t ≤ t'

/-- What a live scenario becomes at a time, if it starts or ends then. -/
structure Ages (now : Int64) (s s' : Scenario) : Prop where
  startTime : s'.startTime = s.startTime ∨ s'.startTime = some now
  waiting : s'.isWaiting = true → s.isWaiting = true ∧ s'.startTime = s.startTime
  endTime : s'.endTime = if s'.status.isTerminal then some now else none

section Lived

variable {s s' : Scenario} {now now' : Int64}

theorem Lived.mono (h : Lived s now) (hle : now ≤ now') : Lived s now' where
  waiting := h.waiting
  ended := h.ended
  started_le t ht := Int64.le_trans (h.started_le t ht) hle
  ended_le t ht := Int64.le_trans (h.ended_le t ht) hle
  ordered := h.ordered

theorem Lived.endTime_eq_none (h : Lived s now) (hlive : s.isLive = true) : s.endTime = none := by
  rw [Scenario.isLive, Bool.not_eq_true'] at hlive
  rw [← Option.not_isSome_iff_eq_none, h.ended, hlive]
  exact Bool.false_ne_true

theorem Ages.of_stays (hend : s.endTime = none) (hlive : s.isLive = true)
    (hstart : s'.startTime = s.startTime) (hstatus : s'.status = s.status)
    (hend' : s'.endTime = s.endTime) : Ages now s s' where
  startTime := .inl hstart
  waiting h := ⟨by rwa [Scenario.isWaiting, hstatus] at h, hstart⟩
  endTime := by
    rw [Scenario.isLive, Bool.not_eq_true'] at hlive
    rw [hend', hend, hstatus, hlive, if_neg Bool.false_ne_true]

theorem Ages.of_moved {r : Run} {f : FsmDefinition} {index : Nat} (hground : r.Grounded)
    (hs : r.scenario? s.id = some s) (hf : r.OfFsm s index f) (hlive : s.isLive = true)
    (hend : s.endTime = none) (next : String) : Ages now s (moved f s.state next now s) := by
  have hwf := hground.wellFormed.fsm f (List.mem_of_getElem? (hf.spec hground.nodup_ids).1)
  have hwaiting := isWaiting_moved hwf hlive
    (fun h => hground.staffed.initial (mem_of_scenario? hs) hf h) next now
  have hstart : (moved f s.state next now s).startTime =
      if leavesInitial f s s.state next then some now else s.startTime := by rw [moved_eq]
  constructor
  · rw [hstart]
    split
    · exact .inr rfl
    · exact .inl rfl
  · intro h
    rw [hwaiting, Bool.and_eq_true, Bool.not_eq_true'] at h
    rw [hstart, h.2]
    exact ⟨h.1, if_neg Bool.false_ne_true⟩
  · rw [isTerminal_moved f s.state next now hlive, moved_eq, hend]

theorem Lived.ages (h : Lived s now) (hages : Ages now s s') : Lived s' now := by
  have hstarted : ∀ t ∈ s'.startTime, t ≤ now := by
    intro t ht
    rcases hages.startTime with heq | heq
    · exact h.started_le t (heq ▸ ht)
    · rw [heq] at ht
      exact Option.some.inj ht ▸ Int64.le_refl _
  have hended : ∀ t ∈ s'.endTime, t = now := by
    intro t ht
    rw [hages.endTime, Option.mem_ite_none_right] at ht
    exact (Option.some.inj ht.2).symm
  refine ⟨fun hw => ?_, ?_, hstarted, fun t ht => Int64.le_of_eq (hended t ht), ?_⟩
  · obtain ⟨hwaiting, hsame⟩ := hages.waiting hw
    exact hsame.trans (h.waiting hwaiting)
  · rw [hages.endTime]
    cases s'.status.isTerminal <;> rfl
  · intro t ht t' ht'
    rw [hended t' ht']
    exact hstarted t ht

theorem lived_added (r : Run) (f : FsmDefinition) (sequence : Nat) (parent : Option String)
    (subtree : Quark) (now : Int64) : Lived (r.added f sequence parent subtree) now :=
  ⟨fun _ => rfl, rfl, fun _ h => (nomatch h), fun _ h => (nomatch h), fun _ h => (nomatch h)⟩

end Lived

section Alters

variable {m : Moment} {s s' : Scenario} {groups : List (List Write)}

theorem Alters.punctual (h : Alters m s s' groups) (hpunctual : m.Punctual) :
    m.time = m.run.store.endTime := by
  refine hpunctual.resolve_left fun hact => ?_
  cases h <;> cases hact

theorem Ages.of_alters (hground : m.run.Grounded) (hs : m.run.scenario? s.id = some s)
    (hlive : s.isLive = true) (hend : s.endTime = none) (h : Alters m s s' groups) :
    Ages m.time s s' := by
  cases h with
  | receive _ => exact .of_stays hend hlive rfl rfl rfl
  | change _ => exact .of_stays hend hlive rfl rfl rfl
  | save _ => exact .of_stays hend hlive rfl rfl rfl
  | enter _ hf _ _ => exact .of_moved hground hs hf hlive hend _
  | cancel =>
      have hstatus := status_cancelled hlive
      constructor
      · rw [advance_eq]
        exact .inl rfl
      · intro hwaiting
        rw [Scenario.isWaiting, hstatus (some _)] at hwaiting
        cases hwaiting
      · rw [hstatus (some _)]
        rfl

end Alters

/-- The times of a scenario are recorded. -/
structure LifetimeRecorded (s : Scenario) (v : View) : Prop where
  startTime : Interval.Stamped (v.intervalsAt [Layout.startTime]) s.startTime
  endTime : Interval.Stamped (v.intervalsAt [Layout.endTime]) s.endTime

theorem moveGroups_of_left (time : Int64) (changed : Bool) (next : String)
    (status : ScenarioStatus) :
    moveGroups time true changed next status =
      [⟨[Layout.startTime], time, .long time⟩] :: moveGroups time false changed next status := by
  simp only [moveGroups, if_true, Bool.false_eq_true, if_false, List.cons_append, List.nil_append]

theorem moveGroups_of_terminal (time : Int64) (left changed : Bool) (next : String)
    {status : ScenarioStatus} (h : status.isTerminal = true) :
    moveGroups time left changed next status =
      ((if left then [[⟨[Layout.startTime], time, .long time⟩]] else []) ++
          if changed then [[⟨Layout.statePath next, time, .long time⟩]] else []) ++
        [⟨[Layout.endTime], time, .long time⟩] :: [stateWrites time next status] := by
  rw [moveGroups, if_pos h, List.append_assoc _ [_] [_]]
  rfl

section Moved

variable {time : Int64} {left changed : Bool} {next : String} {status : ScenarioStatus}
  {writes : List Write} {w : Write}

theorem left_of_moveGroups (hwrites : writes ∈ moveGroups time left changed next status)
    (hw : w ∈ writes) (hpath : w.path = [Layout.startTime]) : left = true := by
  rcases path_of_moveGroups hwrites hw with ⟨hleft, -⟩ | ⟨-, h⟩ | ⟨-, h⟩ | h | h
  · exact hleft
  · simp [hpath, Layout.statePath] at h
  · exact absurd (hpath.symm.trans h) (by decide)
  · exact absurd (hpath.symm.trans h) (by decide)
  · exact absurd (hpath.symm.trans h) (by decide)

theorem terminal_of_moveGroups (hwrites : writes ∈ moveGroups time left changed next status)
    (hw : w ∈ writes) (hpath : w.path = [Layout.endTime]) : status.isTerminal = true := by
  rcases path_of_moveGroups hwrites hw with ⟨-, h⟩ | ⟨-, h⟩ | ⟨hterminal, -⟩ | h | h
  · exact absurd (hpath.symm.trans h) (by decide)
  · simp [hpath, Layout.statePath] at h
  · exact hterminal
  · exact absurd (hpath.symm.trans h) (by decide)
  · exact absurd (hpath.symm.trans h) (by decide)

end Moved

section Recorded

variable {m : Moment} {s s' : Scenario} {v : View} {groups : List (List Write)} {now : Int64}

theorem LifetimeRecorded.stays (h : LifetimeRecorded s v) (hstart : s'.startTime = s.startTime)
    (hend : s'.endTime = s.endTime)
    (hspares : ∀ writes ∈ groups, ∀ w ∈ writes, Layout.isLifetime w.path = false) :
    LifetimeRecorded s' (v.record groups) := by
  have hne : ∀ path, Layout.isLifetime path = true → ∀ writes ∈ groups, ∀ w ∈ writes,
      w.path ≠ path := by
    intro path hpath writes hwrites w hw heq
    have hspared := hspares writes hwrites w hw
    rw [heq, hpath] at hspared
    cases hspared
  constructor
  · rw [View.intervalsAt_record_of_ne (hne _ Layout.isLifetime_startTime), hstart]
    exact h.startTime
  · rw [View.intervalsAt_record_of_ne (hne _ Layout.isLifetime_endTime), hend]
    exact h.endTime

theorem isLifetime_of_stateWrites {time : Int64} {current : String} {status : ScenarioStatus}
    {w : Write} (hw : w ∈ stateWrites time current status) : Layout.isLifetime w.path = false := by
  rcases List.mem_pair.mp hw with rfl | rfl
  · rfl
  · rfl

theorem ne_of_stateWrites {time : Int64} {current : String} {status : ScenarioStatus}
    {path : List String} (hpath : Layout.isLifetime path = true) :
    ∀ writes ∈ [stateWrites time current status], ∀ w ∈ writes, w.path ≠ path := by
  intro writes hwrites w hw heq
  rw [List.mem_singleton.mp hwrites] at hw
  have hnot := isLifetime_of_stateWrites hw
  rw [heq, hpath] at hnot
  cases hnot

theorem isLifetime_of_receiveGroups {f : FsmDefinition} {time : Int64} :
    ∀ writes ∈ receiveGroups f s time, ∀ w ∈ writes, Layout.isLifetime w.path = false := by
  intro writes hwrites w hw
  rw [receiveGroups] at hwrites
  split at hwrites
  · rcases List.mem_pair.mp hwrites with rfl | rfl
    · exact isLifetime_of_stateWrites hw
    · rw [List.mem_singleton.mp hw]
      rfl
  · cases hwrites

theorem LifetimeRecorded.enters {f : FsmDefinition} {next : String} (h : LifetimeRecorded s v)
    (hlived : Lived s now) (hages : Ages now s (moved f s.state next now s))
    (hlive : s.isLive = true) (changed : Bool) :
    LifetimeRecorded (moved f s.state next now s)
      (v.record (moveGroups now (leavesInitial f s s.state next) changed next
        (moved f s.state next now s).status)) := by
  have hstart : (moved f s.state next now s).startTime =
      if leavesInitial f s s.state next then some now else s.startTime := by rw [moved_eq]
  constructor
  · have hne : ∀ writes ∈ moveGroups now false changed next (moved f s.state next now s).status,
        ∀ w ∈ writes, w.path ≠ [Layout.startTime] :=
      fun writes hwrites w hw heq => nomatch left_of_moveGroups hwrites hw heq
    rw [hstart]
    cases leavesInitial f s s.state next with
    | true =>
        rw [moveGroups_of_left, if_pos rfl]
        exact View.stamped_record [] _ h.startTime hlived.started_le (List.forall_mem_nil _) hne
    | false =>
        rw [if_neg Bool.false_ne_true, View.intervalsAt_record_of_ne hne]
        exact h.startTime
  · rw [hages.endTime]
    cases hterminal : (moved f s.state next now s).status.isTerminal with
    | true =>
        rw [moveGroups_of_terminal _ _ _ _ hterminal, if_pos rfl]
        refine View.stamped_record _ _ h.endTime hlived.ended_le (fun writes hwrites w hw heq => ?_)
          (ne_of_stateWrites Layout.isLifetime_endTime)
        simp only [List.mem_append, List.mem_ite_nil_right, List.mem_singleton] at hwrites
        rcases hwrites with ⟨-, rfl⟩ | ⟨-, rfl⟩
        · rw [List.mem_singleton.mp hw] at heq
          simp [Layout.endTime, Layout.startTime] at heq
        · rw [List.mem_singleton.mp hw] at heq
          simp [Layout.statePath] at heq
    | false =>
        have hne : ∀ writes ∈ moveGroups now (leavesInitial f s s.state next) changed next
            (moved f s.state next now s).status, ∀ w ∈ writes, w.path ≠ [Layout.endTime] :=
          fun writes hwrites w hw heq =>
            nomatch hterminal.symm.trans (terminal_of_moveGroups hwrites hw heq)
        rw [View.intervalsAt_record_of_ne hne, if_neg Bool.false_ne_true,
          ← hlived.endTime_eq_none hlive]
        exact h.endTime

theorem LifetimeRecorded.alters (h : LifetimeRecorded s v)
    (hlived : Lived s m.run.store.endTime) (hages : Ages m.run.store.endTime s s')
    (htime : m.time = m.run.store.endTime) (hspares : m.Spares Layout.isLifetime)
    (hlive : s.isLive = true) (halters : Alters m s s' groups) :
    LifetimeRecorded s' (v.record groups) := by
  cases halters with
  | receive _ => exact h.stays rfl rfl isLifetime_of_receiveGroups
  | change _ =>
      refine h.stays rfl rfl fun writes hwrites w hw => ?_
      rw [List.mem_singleton.mp hwrites] at hw
      rw [List.mem_singleton.mp hw]
      exact hspares _ _ _ rfl
  | save _ =>
      refine h.stays rfl rfl fun writes hwrites w hw => ?_
      rw [List.mem_singleton.mp hwrites] at hw
      rw [List.mem_singleton.mp hw]
      rfl
  | enter _ _ _ _ =>
      rw [Moment.time] at htime
      simp only at htime
      rw [← htime] at hlived hages
      exact h.enters hlived hages hlive _
  | @cancel r s =>
      constructor
      · have hne : ∀ writes ∈ cancelGroups r.store.endTime s.state, ∀ w ∈ writes,
            w.path ≠ [Layout.startTime] := by
          intro writes hwrites w hw
          rcases List.mem_cons.mp hwrites with rfl | hwrites
          · rw [List.mem_singleton.mp hw]
            change [Layout.endTime] ≠ [Layout.startTime]
            decide
          · exact ne_of_stateWrites Layout.isLifetime_startTime writes hwrites w hw
        rw [View.intervalsAt_record_of_ne hne, advance_eq]
        exact h.startTime
      · exact View.stamped_record [] _ h.endTime hlived.ended_le (List.forall_mem_nil _)
          (ne_of_stateWrites Layout.isLifetime_endTime)

end Recorded

theorem lifetimeRecorded_added (r : Run) (f : FsmDefinition) (sequence : Nat)
    (parent : Option String) (subtree : Quark) (time : Int64) :
    LifetimeRecorded (r.added f sequence parent subtree)
      (View.fresh.writeAll (identityWrites time f.id parent)).1 := by
  constructor
  · rw [intervalsAt_identity time f.id parent (by decide)]
    exact Interval.stamped_nil
  · rw [intervalsAt_identity time f.id parent (by decide)]
    exact Interval.stamped_nil

/-- A scenario has ended, and not later than another one started. -/
structure EndsBefore (s s' : Scenario) : Prop where
  ended : s.isLive = false
  le : ∀ t ∈ s.endTime, ∀ t' ∈ s'.startTime, t ≤ t'

/-- All scenarios that were ever started have had their times one after the other. -/
structure Lifetimes (known : ScenarioId → Option Scenario) (r : Run) : Prop where
  grounded : r.Grounded
  remembered : r.Remembered known
  lived : ∀ id s, known id = some s → Lived s r.store.endTime
  tells : Tells LifetimeRecorded known r
  apart : ∀ f ∈ r.defs.fsms, f.concurrent = false → ∀ id s id' s', known id = some s →
    known id' = some s' → s.fsm = f.id → s'.fsm = f.id → id < id' → EndsBefore s s'

section Steps

variable {known : ScenarioId → Option Scenario} {m : Moment} {r' : Run}

/-- When an fsm that is not concurrent takes another scenario, all others have ended. -/
theorem Lifetimes.isLive_eq_false (h : Lifetimes known m.run) {index : Nat} {f : FsmDefinition}
    {c : FsmSchedule} (hf : m.run.defs.fsms[index]? = some f) (hc : m.run.fsms[index]? = some c)
    (htakes : m.run.takesScenario index f c = true) (hconcurrent : f.concurrent = false)
    {id : ScenarioId} {s : Scenario} (hs : known id = some s) (hfsm : s.fsm = f.id) :
    s.isLive = false := by
  rcases h.remembered.ended id s hs with hmem | hdead
  · have hsound := h.grounded.scheduled.sound index f c hf hc
    have htracked := (hsound.mem_tracked s.id).mpr ⟨s, hmem, rfl, hfsm⟩
    rw [takesScenario, hconcurrent, Bool.false_and, Bool.or_false, beq_iff_eq, liveCount,
      hc] at htakes
    have hnot := List.countP_eq_zero.mp htakes s.id htracked
    rw [isLive, h.grounded.numbered.scenario?_of_mem hmem, Option.any_some] at hnot
    exact Bool.eq_false_of_not_eq_true hnot
  · exact hdead

theorem Lifetimes.ages (h : Lifetimes known m.run) (hpunctual : m.Punctual) {s s' : Scenario}
    {groups : List (List Write)} (hs : m.run.scenario? s.id = some s) (hlive : s.isLive = true)
    (halters : Alters m s s' groups) : Ages m.run.store.endTime s s' := by
  have hlived := h.lived s.id s (h.remembered.present s (mem_of_scenario? hs))
  rw [← halters.punctual hpunctual]
  exact .of_alters h.grounded hs hlive (hlived.endTime_eq_none hlive) halters

theorem Lifetimes.lived_move (h : Lifetimes known m.run) (hpunctual : m.Punctual)
    (move : Move m r') {id : ScenarioId} {s : Scenario} (hs : note known r' id = some s) :
    Lived s r'.store.endTime := by
  refine Lived.mono ?_ (endTime_le_of_move h.grounded move)
  cases Provenance.of_move h.remembered h.grounded move hs with
  | kept hold => exact h.lived id s hold
  | altered s₀ groups hid hs₀ hlive halters =>
      have hlived := h.lived s₀.id s₀ (h.remembered.present s₀ (mem_of_scenario? hs₀))
      exact hlived.ages (h.ages hpunctual hs₀ hlive halters)
  | admitted index f c parent subtree hf hc htakes hid hx =>
      rw [hx]
      exact lived_added _ _ _ _ _ _

theorem EndsBefore.ages {s s' s'' : Scenario} {now : Int64} (h : EndsBefore s s')
    (hlived : Lived s now) (hages : Ages now s' s'') : EndsBefore s s'' where
  ended := h.ended
  le t ht t' ht' := by
    rcases hages.startTime with heq | heq
    · exact h.le t ht t' (heq ▸ ht')
    · rw [heq] at ht'
      exact Option.some.inj ht' ▸ hlived.ended_le t ht

theorem Lifetimes.endsBefore (h : Lifetimes known m.run) (hpunctual : m.Punctual)
    (move : Move m r') {f : FsmDefinition} (hf : f ∈ m.run.defs.fsms)
    (hconcurrent : f.concurrent = false) {id id' : ScenarioId} {s s' : Scenario}
    (hs : known id = some s) (hs' : note known r' id' = some s') (hfsm : s.fsm = f.id)
    (hfsm' : s'.fsm = f.id) (hlt : id < id') : EndsBefore s s' := by
  cases Provenance.of_move h.remembered h.grounded move hs' with
  | kept hold => exact h.apart f hf hconcurrent id s id' s' hs hold hfsm hfsm' hlt
  | altered s₀ groups hid hs₀ hlive halters =>
      have hold := h.remembered.present s₀ (mem_of_scenario? hs₀)
      rw [hid] at hold
      have hbefore := h.apart f hf hconcurrent id s id' s₀ hs hold hfsm
        (halters.sameCard.fsm.symm.trans hfsm') hlt
      exact hbefore.ages (h.lived id s hs) (h.ages hpunctual hs₀ hlive halters)
  | admitted index g c parent subtree hg hc htakes hid hx =>
      subst hx
      obtain ⟨i, hi⟩ := List.getElem?_of_mem hf
      obtain rfl := DefinitionSet.index_inj h.grounded.nodup_ids hg hi hfsm'
      obtain rfl : f = g := Option.some.inj (hi.symm.trans hg)
      exact ⟨h.isLive_eq_false hg hc htakes hconcurrent hs hfsm, fun _ _ _ ht' => (nomatch ht')⟩

theorem Provenance.le_succ {id : ScenarioId} {x : Scenario} (hremembered : m.run.Remembered known)
    (h : Provenance known m id x) : id ≤ m.run.created + 1 := by
  have hknown : ∀ y, known id = some y → id ≤ m.run.created := by
    intro y hy
    exact ((hremembered.isSome_iff id).mp (by rw [hy]; rfl)).2
  cases h with
  | kept h => exact Nat.le_succ_of_le (hknown x h)
  | altered s groups hid hs _ _ =>
      have hold := hremembered.present s (mem_of_scenario? hs)
      rw [hid] at hold
      exact Nat.le_succ_of_le (hknown s hold)
  | admitted _ _ _ _ _ _ _ _ hid _ => exact Nat.le_of_eq hid

theorem Lifetimes.apart_move (h : Lifetimes known m.run) (hpunctual : m.Punctual)
    (move : Move m r') {f : FsmDefinition} (hf : f ∈ m.run.defs.fsms)
    (hconcurrent : f.concurrent = false) {id id' : ScenarioId} {s s' : Scenario}
    (hs : note known r' id = some s) (hs' : note known r' id' = some s') (hfsm : s.fsm = f.id)
    (hfsm' : s'.fsm = f.id) (hlt : id < id') : EndsBefore s s' := by
  cases Provenance.of_move h.remembered h.grounded move hs with
  | kept hold => exact h.endsBefore hpunctual move hf hconcurrent hold hs' hfsm hfsm' hlt
  | altered s₀ groups hid hs₀ hlive halters =>
      have hold := h.remembered.present s₀ (mem_of_scenario? hs₀)
      rw [hid] at hold
      have hbefore := h.endsBefore hpunctual move hf hconcurrent hold hs'
        (halters.sameCard.fsm.symm.trans hfsm) hfsm' hlt
      rw [hbefore.ended] at hlive
      cases hlive
  | admitted _ _ _ _ _ _ _ _ hid _ =>
      have hle := (Provenance.of_move h.remembered h.grounded move hs').le_succ h.remembered
      exact absurd (hid ▸ hlt) (Nat.not_lt.mpr hle)

theorem Lifetimes.move (h : Lifetimes known m.run) (hpunctual : m.Punctual)
    (hspares : m.Spares Layout.isLifetime) (move : Move m r') : Lifetimes (note known r') r' where
  grounded := h.grounded.move move
  remembered := h.remembered.move h.grounded.numbered h.grounded.nodup_ids h.grounded.anchored move
  lived _ _ hs := h.lived_move hpunctual move hs
  tells := by
    refine h.tells.move h.remembered h.grounded move (fun _ _ _ htells => htells) ?_ ?_
    · intro s s' groups hs _ hlive halters v htells
      have hlived := h.lived s.id s (h.remembered.present s (mem_of_scenario? hs))
      exact htells.alters hlived (h.ages hpunctual hs hlive halters) (halters.punctual hpunctual)
        hspares hlive halters
    · intro f sequence parent subtree time _
      exact lifetimeRecorded_added _ f sequence parent subtree time
  apart f hf hconcurrent _ _ _ _ hs hs' hfsm hfsm' hlt :=
    h.apart_move hpunctual move (move.follows.defs ▸ hf) hconcurrent hs hs' hfsm hfsm' hlt

theorem Lifetimes.trace {r q : Run} {ms : List Moment} (htrace : Trace r ms q)
    (hpunctual : ∀ m ∈ ms, m.Punctual) (hspares : ∀ m ∈ ms, m.Spares Layout.isLifetime)
    (h : Lifetimes (note known r) r) :
    Lifetimes ((ms.map (·.run) ++ [q]).foldl note known) q := by
  refine htrace.invariant_past
    (I := fun ms q => Lifetimes ((ms.map (·.run) ++ [q]).foldl note known) q) ?_ h
  rintro past m rest r' rfl move h
  have hmem : m ∈ past ++ m :: rest := List.mem_append_right _ List.mem_cons_self
  rw [List.map_append, List.map_singleton, List.foldl_concat]
  exact h.move (hpunctual m hmem) (hspares m hmem) move

theorem Fresh.lifetimes {r : Run} {d : DefinitionSet} {settings : RunSettings} {time : Int64}
    (h : r.Fresh d settings time) (hground : r.Grounded) :
    Lifetimes (note (fun _ => none) r) r := by
  rw [h.note_eq]
  exact ⟨hground, h.remembered, fun _ _ hs => (nomatch hs), fun _ _ hs => (nomatch hs),
    fun _ _ _ _ _ _ _ hs => (nomatch hs)⟩

end Steps

/-- A record has the name of a scenario, and its times. -/
structure Dates (record : ScenarioRecord) (s : Scenario) : Prop where
  name : record.name = s.name
  startTime : record.startTime = s.startTime
  endTime : record.endTime = s.endTime

theorem LifetimeRecorded.dates {v : View} {s : Scenario} {record : ScenarioRecord}
    (h : LifetimeRecorded s v) (hread : ScenarioRecord.ReadFrom v s.name record) :
    Dates record s where
  name := hread.name
  startTime := by rw [hread.startTime, View.ongoing, h.startTime.ongoing_eq, int64?_elim]
  endTime := by rw [hread.endTime, View.ongoing, h.endTime.ongoing_eq, int64?_elim]

theorem Remembered.exists_earlier {known : ScenarioId → Option Scenario} {r : Run}
    (h : r.Remembered known) {fsm : String} {k l : Nat} (hk : 1 ≤ k) (hlt : k < l)
    {id' : ScenarioId} {s' : Scenario} (hs' : known id' = some s')
    (hname' : s'.name = Scenario.nameOf fsm l) :
    s'.fsm = fsm ∧ ∃ id s, known id = some s ∧ s.name = Scenario.nameOf fsm k ∧ s.fsm = fsm ∧
      id < id' := by
  obtain ⟨n, ⟨index, f, hf, hid, count, hcount, -, hle⟩, hsame⟩ := h.named id' s' hs'
  obtain ⟨hfsm, rfl⟩ := Scenario.nameOf_injective (hname'.symm.trans hsame)
  have hstarted : r.StartedAs fsm k :=
    ⟨index, f, hf, hid.trans hfsm.symm, count, hcount, hk, Nat.le_trans (Nat.le_of_lt hlt) hle⟩
  obtain ⟨id, s, hs, hname⟩ := h.complete _ ⟨fsm, k, hstarted, rfl⟩
  obtain ⟨n', -, hsame'⟩ := h.named id s hs
  refine ⟨hfsm.symm, id, s, hs, hname,
    (Scenario.nameOf_injective (hname.symm.trans hsame')).1.symm, ?_⟩
  rcases Nat.lt_trichotomy id id' with hbefore | rfl | hafter
  · exact hbefore
  · obtain rfl := Option.some.inj (hs.symm.trans hs')
    have hequal := (Scenario.nameOf_injective (hname.symm.trans hname')).2
    exact absurd hlt (hequal ▸ Nat.lt_irrefl _)
  · have hgt := h.increasing _ _ _ _ _ _ _ hs' hs hname' hname hafter
    exact absurd hlt (Nat.lt_asymm hgt)

/-- The records tell of lifetimes in their order. -/
structure LifetimesOrdered (r : Run) (calls : List Call) (records : List ScenarioRecord) :
    Prop where
  /-- There is a record of each scenario that was ever started. -/
  complete : ∀ id s, r.lastKnown calls id = some s → ∃ record ∈ records, Dates record s
  /-- Each record is one of a scenario. It has an end if and only if that is matched or abandoned. -/
  ended : ∀ record ∈ records, ∃ id s, r.lastKnown calls id = some s ∧ Dates record s ∧
    (record.endTime.isSome = true ↔ s.status = .matched ∨ s.status = .abandoned)
  ordered : ∀ record ∈ records, ∀ t ∈ record.startTime, ∀ t' ∈ record.endTime, t ≤ t'
  /-- The scenarios of an fsm that is not concurrent do not overlap. -/
  apart : ∀ f ∈ r.defs.fsms, f.concurrent = false → ∀ k l, 1 ≤ k → k < l → ∀ later ∈ records,
    later.name = Scenario.nameOf f.id l → ∃ earlier ∈ records,
      earlier.name = Scenario.nameOf f.id k ∧
        (∃ id s, r.lastKnown calls id = some s ∧ Dates earlier s ∧
          (s.status = .matched ∨ s.status = .abandoned)) ∧
        ∀ t' ∈ later.startTime, ∃ t ∈ earlier.endTime, t ≤ t'

theorem isTerminal_iff {status : ScenarioStatus} :
    status.isTerminal = true ↔ status = .matched ∨ status = .abandoned := by
  cases status <;> simp [ScenarioStatus.isTerminal]

theorem Lifetimes.exists_records {known : ScenarioId → Option Scenario} {r : Run}
    (h : Lifetimes known r) :
    ∃ records, r.records = .ok records ∧
      (∀ id s, known id = some s → ∃ record ∈ records, Dates record s) ∧
      ∀ record ∈ records, ∃ id s, known id = some s ∧ Dates record s := by
  obtain ⟨scenarios, records, hrecords, -, hdates, hids, hknown⟩ :=
    h.remembered.records h.grounded fun id s hs _ hfrom => (h.tells id s hs).dates hfrom
  refine ⟨records, hrecords, fun id s hs => ?_, fun record hrecord => ?_⟩
  · have hmem : id ∈ scenarios.map (·.id) := by
      rw [hids.mem_iff, List.mem_range'_1, Nat.add_comm, Nat.lt_succ_iff,
        ← h.remembered.isSome_iff, hs]
      rfl
    obtain ⟨s', hs', rfl⟩ := List.mem_map.mp hmem
    obtain rfl := Option.some.inj (hs.symm.trans (hknown s' hs'))
    exact exists_of_forall₂ hdates s hs'
  · obtain ⟨s, hs, hdates⟩ := exists_of_forall₂ hdates.flip record hrecord
    exact ⟨s.id, s, hknown s hs, hdates⟩

theorem Lifetimes.ordered {r : Run} {calls : List Call} {records : List ScenarioRecord}
    (h : Lifetimes (r.lastKnown calls) (r.performAll calls))
    (hdefs : (r.performAll calls).defs = r.defs)
    (hcomplete : ∀ id s, r.lastKnown calls id = some s → ∃ record ∈ records, Dates record s)
    (hknown : ∀ record ∈ records, ∃ id s, r.lastKnown calls id = some s ∧ Dates record s) :
    r.LifetimesOrdered calls records where
  complete := hcomplete
  ended record hrecord := by
    obtain ⟨id, s, hs, hdates⟩ := hknown record hrecord
    refine ⟨id, s, hs, hdates, ?_⟩
    rw [hdates.endTime, (h.lived id s hs).ended, isTerminal_iff]
  ordered record hrecord t ht t' ht' := by
    obtain ⟨id, s, hs, hdates⟩ := hknown record hrecord
    exact (h.lived id s hs).ordered t (hdates.startTime ▸ ht) t' (hdates.endTime ▸ ht')
  apart f hf hconcurrent k l hk hlt later hlater hname := by
    obtain ⟨id', s', hs', hdates'⟩ := hknown later hlater
    obtain ⟨hfsm', id, s, hs, hname', hfsm, hbefore⟩ :=
      h.remembered.exists_earlier hk hlt hs' (hdates'.name.symm.trans hname)
    obtain ⟨earlier, hearlier, hdates⟩ := hcomplete id s hs
    have hends := h.apart f (hdefs ▸ hf) hconcurrent id s id' s' hs hs' hfsm hfsm' hbefore
    have hterminal : s.status.isTerminal = true := by
      have hdead := hends.ended
      rwa [Scenario.isLive, Bool.not_eq_false'] at hdead
    refine ⟨earlier, hearlier, hdates.name.trans hname',
      ⟨id, s, hs, hdates, isTerminal_iff.mp hterminal⟩, fun t' ht' => ?_⟩
    have hsome := (h.lived id s hs).ended
    rw [hterminal] at hsome
    obtain ⟨t, ht⟩ := Option.isSome_iff_exists.mp hsome
    exact ⟨t, hdates.endTime.trans ht, hends.le t ht t' (hdates'.startTime ▸ ht')⟩

/-- In every run of an accepted document, if the events come in the order of their times and none
before the store begins, the records tell of lifetimes in their order, unless an action writes where
these are recorded. -/
theorem lifetimes_ordered {d : DefinitionDocument} {defs : DefinitionSet}
    (h : d.compile = .ok defs) (settings : RunSettings) (time : Int64) :
    ∃ r, Run.start defs (Store.empty time) settings = .ok r ∧
      ∀ calls : List Call,
        (calls.filterMap Call.event?).Pairwise (fun e e' => e.nanos ≤ e'.nanos) →
        (∀ e ∈ calls.filterMap Call.event?, time ≤ e.nanos) →
        (∀ m ∈ r.moments calls, m.Spares Layout.isLifetime) →
          ∃ records, (r.performAll calls).records = .ok records ∧
            r.LifetimesOrdered calls records := by
  obtain ⟨r, hstart, hfresh, hground⟩ := exists_grounded h settings time
  refine ⟨r, hstart, fun calls hmono hlater hspares => ?_⟩
  have htrace := performAll_trace hfresh.numbered calls
  have hpunctual := moments_punctual hground hmono (hfresh.endTime.symm ▸ hlater)
  have hlifetimes : Lifetimes (r.lastKnown calls) (r.performAll calls) :=
    (hfresh.lifetimes hground).trace htrace hpunctual hspares
  obtain ⟨records, hrecords, hcomplete, hknown⟩ := hlifetimes.exists_records
  exact ⟨records, hrecords, hlifetimes.ordered htrace.follows.defs hcomplete hknown⟩

theorem lifetimes_ordered_sample :
    ∃ defs r, DefinitionDocument.sample.compile = .ok defs ∧
      Run.start defs (Store.empty 0) {} = .ok r ∧
      (sampleCalls.filterMap Call.event?).Pairwise (fun e e' => e.nanos ≤ e'.nanos) ∧
      (∀ e ∈ sampleCalls.filterMap Call.event?, 0 ≤ e.nanos) ∧
      (∀ m ∈ r.moments sampleCalls, m.Spares Layout.isLifetime) ∧
      ∃ records, (r.performAll sampleCalls).records = .ok records ∧
        r.LifetimesOrdered sampleCalls records := by
  obtain ⟨defs, hcompile⟩ := DefinitionDocument.exists_compile_sample
  obtain ⟨r, hstart, hordered⟩ := lifetimes_ordered hcompile {} 0
  have hspares : ∀ m ∈ r.moments sampleCalls, m.Spares Layout.isLifetime := by
    rw [moments_sample hcompile hstart]
    decide +kernel
  have hmono : (sampleCalls.filterMap Call.event?).Pairwise fun e e' => e.nanos ≤ e'.nanos := by
    decide
  have hlater : ∀ e ∈ sampleCalls.filterMap Call.event?, 0 ≤ e.nanos := by decide
  exact ⟨defs, r, hcompile, hstart, hmono, hlater, hspares,
    hordered sampleCalls hmono hlater hspares⟩

end Run

end TraceAutomata
