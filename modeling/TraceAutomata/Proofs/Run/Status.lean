import TraceAutomata.Proofs.Run.Anchor
import TraceAutomata.Proofs.Run.Schedule
import TraceAutomata.Proofs.Scenario.Status

namespace TraceAutomata.Run

open ScenarioStatus

def runs (r : Run) (calls : List Call) : List Run :=
  (r.moments calls).map (·.run) ++ [r.performAll calls]

theorem status_of_alters {m : Moment} {s s' : Scenario} {groups : List (List Write)}
    (hlive : s.isLive = true) (h : Alters m s s' groups) : s.status.Reaches s'.status := by
  have hterminal : ∀ status : ScenarioStatus, status.isTerminal = true →
      s.status.Reaches status := by
    intro status hstatus
    right
    revert hlive hstatus
    rw [Scenario.isLive]
    cases s.status <;> cases status <;> decide
  cases h with
  | receive _ => exact .refl _
  | change _ => exact .refl _
  | save _ => exact .refl _
  | @enter r e index f s state t hs hf hstate ht =>
      rw [status_moved f s.state t.target e.nanos hlive]
      split
      · exact hterminal _ rfl
      · split
        · exact hterminal _ rfl
        · split
          · next hleft =>
            rw [leavesInitial, Bool.and_eq_true] at hleft
            have hwaiting : s.status = .waitingStart := by
              simpa [Scenario.isWaiting] using hleft.2
            rw [hwaiting]
            exact .inr (by decide)
          · exact .refl _
  | cancel =>
      rw [status_cancelled hlive]
      exact hterminal _ rfl

/-- The scenarios of the later run that were there before have moved forward. -/
structure MovesForward (r r' : Run) : Prop where
  created_le : r.created ≤ r'.created
  reaches : ∀ s' ∈ r'.scenarios, s'.id ≤ r.created →
    ∃ s ∈ r.scenarios, SameCard s s' ∧ s.status.Reaches s'.status

theorem MovesForward.trans {r r' r'' : Run} (h : MovesForward r r') (h' : MovesForward r' r'') :
    MovesForward r r'' where
  created_le := Nat.le_trans h.created_le h'.created_le
  reaches s'' hs'' hle := by
    obtain ⟨s', hs', hcard', hreach'⟩ := h'.reaches s'' hs'' (Nat.le_trans hle h.created_le)
    obtain ⟨s, hs, hcard, hreach⟩ := h.reaches s' hs' (hcard'.id ▸ hle)
    exact ⟨s, hs, hcard.trans hcard', hreach.trans hreach'⟩

theorem MovesForward.of_move {m : Moment} {r' : Run} (hn : m.run.Numbered) (move : Move m r') :
    MovesForward m.run r' := by
  refine ⟨move.follows.created_le, fun x hx hle => ?_⟩
  cases Effect.of_move hn move with
  | quiet scenarios => exact ⟨x, scenarios.subset hx, .refl x, .refl _⟩
  | alters s s' groups hs hlive halters scenarios =>
      rw [scenarios, mem_modifyScenario hs] at hx
      rcases hx with rfl | ⟨hx, -⟩
      · exact ⟨s, mem_of_scenario? hs, halters.sameCard, status_of_alters hlive halters⟩
      · exact ⟨x, hx, .refl x, .refl _⟩
  | admits index f c parent trigger subtree st _ _ _ _ _ heq =>
      rw [heq] at hx
      rcases mem_admitted.mp hx with hx | rfl
      · exact ⟨x, hx, .refl x, .refl _⟩
      · exact absurd hle (Nat.not_succ_le_self _)
  | aborts _ _ _ _ _ _ heq =>
      rw [heq] at hx
      exact ⟨x, hx, .refl x, .refl _⟩

/-- From one run to the next a scenario that starts waits in its initial state, and one that waited
and is in progress or matched has left it. -/
structure LeavesInitial (r r' : Run) : Prop where
  starts : ∀ s' ∈ r'.scenarios, r.created < s'.id →
    s'.status = .waitingStart ∧ ∃ f ∈ r.defs.fsms, f.id = s'.fsm ∧ s'.state = f.initial
  leaves : ∀ s ∈ r.scenarios, ∀ s' ∈ r'.scenarios, s'.id = s.id → s.status = .waitingStart →
    s'.status = .inProgress ∨ s'.status = .matched →
      ∃ f ∈ r.defs.fsms, f.id = s.fsm ∧ s.state = f.initial ∧ s'.state ≠ f.initial

/-- A scenario that waits is in progress or matched only after it has left its initial state. -/
theorem leaves_of_alters {m : Moment} {s s' : Scenario} {groups : List (List Write)}
    (hwf : m.run.defs.WellFormed) (hsched : m.run.Scheduled) (hmem : s ∈ m.run.scenarios)
    (hlive : s.isLive = true) (h : Alters m s s' groups) (hwaiting : s.status = .waitingStart)
    (hstatus : s'.status = .inProgress ∨ s'.status = .matched) :
    ∃ f ∈ m.run.defs.fsms, f.id = s.fsm ∧ s.state = f.initial ∧ s'.state ≠ f.initial := by
  cases h with
  | receive _ => simp [hwaiting] at hstatus
  | change _ => simp [hwaiting] at hstatus
  | save _ => simp [hwaiting] at hstatus
  | @enter r e index f s state t hs hf hstate ht =>
      obtain ⟨hget, hfsm⟩ := hf.spec hwf.nodup_ids
      obtain ⟨c, hc⟩ := hsched.exists_schedule hget
      have hfmem := List.mem_of_getElem? hget
      have hinitial : s.state = f.initial :=
        (hsched.sound index f c hget hc).of_waiting s hmem hfsm
          (by simp [Scenario.isWaiting, hwaiting])
      refine ⟨f, hfmem, hfsm.symm, hinitial, ?_⟩
      rw [moved_eq]
      intro htarget
      have hnot := (not_mem_terminals f f.initial).mp (hwf.fsm f hfmem).initial_not_terminal
      rw [status_moved f s.state t.target e.nanos hlive] at hstatus
      change t.target = f.initial at htarget
      have hstays : leavesInitial f s s.state t.target = false := by
        simp [leavesInitial, htarget, hinitial]
      simp [htarget ▸ hnot.1, htarget ▸ hnot.2, hstays, hwaiting] at hstatus
  | cancel =>
      rw [status_cancelled hlive] at hstatus
      simp at hstatus

theorem LeavesInitial.of_move {m : Moment} {r' : Run} (hwf : m.run.defs.WellFormed)
    (hsched : m.run.Scheduled) (move : Move m r') : LeavesInitial m.run r' := by
  have hn := hsched.numbered
  have hold : ∀ s ∈ m.run.scenarios, ∀ x ∈ m.run.scenarios, x.id = s.id →
      s.status = .waitingStart → ¬ (x.status = .inProgress ∨ x.status = .matched) := by
    intro s hs x hx hid hwaiting
    rw [hn.eq_of_id hx hs hid, hwaiting]
    simp
  constructor
  · intro x hx hlt
    cases Effect.of_move hn move with
    | quiet scenarios =>
        exact absurd (hn.le_created x (scenarios.subset hx)) (Nat.not_le_of_lt hlt)
    | alters s s' groups hs hlive halters scenarios =>
        rw [scenarios, mem_modifyScenario hs] at hx
        rcases hx with rfl | ⟨hx, -⟩
        · rw [halters.sameCard.id] at hlt
          exact absurd (hn.le_created s (mem_of_scenario? hs)) (Nat.not_le_of_lt hlt)
        · exact absurd (hn.le_created x hx) (Nat.not_le_of_lt hlt)
    | admits index f c parent trigger subtree st _ _ hf _ _ heq =>
        rw [heq] at hx
        rcases mem_admitted.mp hx with hx | rfl
        · exact absurd (hn.le_created x hx) (Nat.not_le_of_lt hlt)
        · exact ⟨rfl, f, List.mem_of_getElem? hf, rfl, rfl⟩
    | aborts _ _ _ _ _ _ heq =>
        rw [heq] at hx
        exact absurd (hn.le_created x hx) (Nat.not_le_of_lt hlt)
  · intro s hs x hx hid hwaiting hstatus
    cases Effect.of_move hn move with
    | quiet scenarios => exact (hold s hs x (scenarios.subset hx) hid hwaiting hstatus).elim
    | alters s₀ s' groups hs₀ hlive halters scenarios =>
        rw [scenarios, mem_modifyScenario hs₀] at hx
        rcases hx with rfl | ⟨hx, -⟩
        · have hmem := mem_of_scenario? hs₀
          obtain rfl := hn.eq_of_id hmem hs (halters.sameCard.id.symm.trans hid)
          exact leaves_of_alters hwf hsched hmem hlive halters hwaiting hstatus
        · exact (hold s hs x hx hid hwaiting hstatus).elim
    | admits index f c parent trigger subtree st _ _ _ _ _ heq =>
        rw [heq] at hx
        rcases mem_admitted.mp hx with hx | rfl
        · exact (hold s hs x hx hid hwaiting hstatus).elim
        · simp [added] at hstatus
    | aborts _ _ _ _ _ _ heq =>
        rw [heq] at hx
        exact (hold s hs x hx hid hwaiting hstatus).elim

/-- A live scenario that has handled no event waits. -/
def Begins (r : Run) : Prop :=
  ∀ s ∈ r.scenarios, s.isLive = true → s.hasStarted = false → s.status = .waitingStart

theorem Begins.move {m : Moment} {r' : Run} (hn : m.run.Numbered) (move : Move m r')
    (h : m.run.Begins) : r'.Begins := by
  apply (Effect.of_move hn move).forall_scenarios _ _ h
  · intro f _ sequence parent subtree _ _
    rfl
  · intro s s' groups hlive halters hs hlive' hstarted
    cases halters with
    | receive _ => cases hstarted
    | change hacting => simp [Scenario.hasStarted, hacting.2.2] at hstarted
    | save hacting => simp [Scenario.hasStarted, hacting.2.2] at hstarted
    | enter hacting _ _ _ =>
        rw [moved_eq] at hstarted
        simp [Scenario.hasStarted, hacting.2.2] at hstarted
    | cancel =>
        rw [Scenario.isLive, status_cancelled hlive] at hlive'
        cases hlive'

theorem status_of_write {m : Moment} {s s' : Scenario} {groups : List (List Write)}
    (hbegins : m.run.Begins) (hs : s ∈ m.run.scenarios) (hlive : s.isLive = true)
    (h : Alters m s s' groups)
    (hown : ∀ scope value, m.act = .change scope [Layout.status] value → scope.scenario ≠ s.name) :
    ∀ writes ∈ groups, ∀ w ∈ writes, w.path = [Layout.status] →
      w.value = .string s'.status.text := by
  intro writes hwrites w hw hpath
  cases h.written hlive writes hwrites w hw with
  | state _ => simp [Layout.state, Layout.status] at hpath
  | status status hstatus =>
      rcases hstatus with rfl | ⟨hstarted, rfl, hsame⟩
      · rfl
      · rw [hsame, hbegins s hs hlive hstarted]
  | entered _ => simp [Layout.statePath] at hpath
  | started => simp [Layout.startTime, Layout.status] at hpath
  | ended => simp [Layout.endTime, Layout.status] at hpath
  | slot _ _ => simp [Layout.slotPath] at hpath
  | change names value hact =>
      change names = [Layout.status] at hpath
      subst hpath
      exact (hown s.scope value hact rfl).elim

/-- What is recorded as the status of a scenario goes forward, up to the status it has. -/
def StatusLogged (r : Run) (name : String) : Prop :=
  ∃ statuses, Forward ((r.store.below (r.pathOf name)).intervalsAt [Layout.status]) statuses ∧
    ∀ s ∈ r.scenarios, s.name = name → ∀ status ∈ statuses, status.Reaches s.status

theorem Fresh.statusLogged {r : Run} {d : DefinitionSet} {settings : RunSettings} {time : Int64}
    (h : r.Fresh d settings time) (name : String) : r.StatusLogged name := by
  refine ⟨[], ?_, fun s hs => by simp [h.scenarios] at hs⟩
  have hnot : ¬ r.pathOf name ++ [Layout.status] <+: [d.id] := by
    simp [pathOf, Layout.scenarioPath, h.defs]
  rw [View.intervalsAt, Store.below, h.historyAt?, if_neg hnot]
  exact .nil

theorem StatusLogged.move {m : Moment} {r' : Run} (hn : m.run.Numbered)
    (hnodup : (m.run.defs.fsms.map (·.id)).Nodup) (hanchored : m.run.Anchored)
    (hbegins : m.run.Begins) (move : Move m r') {name : String}
    (hown : ∀ scope value, m.act = .change scope [Layout.status] value → scope.scenario ≠ name)
    (h : m.run.StatusLogged name) : r'.StatusLogged name := by
  have hpath : r'.pathOf name = m.run.pathOf name := by rw [pathOf, move.follows.defs, pathOf]
  rw [StatusLogged, hpath]
  obtain ⟨statuses, hforward, hreach⟩ := h
  cases Seen.of_move hn hnodup hanchored move name with
  | same scenarios below =>
      rw [below]
      exact ⟨statuses, hforward, fun x hx hname => hreach x (scenarios x hx hname) hname⟩
  | alters s s' groups hs hname hlive halters scenarios below =>
      subst hname
      have hwrites := status_of_write hbegins hs hlive halters hown
      have hmoved := status_of_alters hlive halters
      have hlog : ∃ statuses, Forward
          (((m.run.store.below (m.run.pathOf s.name)).record groups).intervalsAt [Layout.status])
            statuses ∧ ∀ status ∈ statuses, status.Reaches s'.status := by
        apply View.record_induction (m.run.store.below (m.run.pathOf s.name)) groups
          (P := fun log => ∃ statuses, Forward log statuses ∧
            ∀ status ∈ statuses, status.Reaches s'.status)
        · rintro writes hmem w hw hpath log log' ⟨statuses, hforward, hreach⟩ hext
          rw [hwrites writes hmem w hw hpath] at hext
          exact hforward.extend hreach hext
        · exact ⟨statuses, hforward, fun status hstatus =>
            (hreach s hs rfl status hstatus).trans hmoved⟩
      obtain ⟨statuses', hforward', hreach'⟩ := hlog
      rw [below]
      refine ⟨statuses', hforward', fun x hx hname => ?_⟩
      rw [scenarios x hx hname]
      exact hreach'
  | admits f sequence parent subtree time hname hnew scenarios below =>
      refine ⟨[], ?_, by simp⟩
      rw [below, intervalsAt_identity time f.id parent (by decide)]
      exact .nil

/-- What is known of every run that calls lead to. -/
structure Grounded (r : Run) : Prop where
  wellFormed : r.defs.WellFormed
  scheduled : r.Scheduled
  anchored : r.Anchored
  begins : r.Begins

theorem Grounded.numbered {r : Run} (h : r.Grounded) : r.Numbered := h.scheduled.numbered

theorem Grounded.staffed {r : Run} (h : r.Grounded) : r.Staffed := ⟨h.wellFormed, h.scheduled⟩

theorem Grounded.nodup_ids {r : Run} (h : r.Grounded) : (r.defs.fsms.map (·.id)).Nodup :=
  h.wellFormed.nodup_ids

theorem Grounded.move {m : Moment} {r' : Run} (move : Move m r') (h : m.run.Grounded) :
    r'.Grounded where
  wellFormed := by
    rw [move.follows.defs]
    exact h.wellFormed
  scheduled := h.scheduled.move h.wellFormed move
  anchored := h.anchored.move h.numbered h.nodup_ids move
  begins := h.begins.move h.numbered move

theorem exists_grounded {d : DefinitionDocument} {defs : DefinitionSet}
    (h : d.compile = .ok defs) (settings : RunSettings) (time : Int64) :
    ∃ r, Run.start defs (Store.empty time) settings = .ok r ∧ r.Fresh defs settings time ∧
      r.Grounded := by
  obtain ⟨r, hstart, hfresh⟩ := exists_start defs settings time
  refine ⟨r, hstart, hfresh, ?_, hfresh.scheduled, hfresh.anchored, ?_⟩
  · rw [hfresh.defs]
    exact ((DefinitionDocument.compile_eq_ok_iff d defs).mp h).wellFormed
  · intro s hs
    simp [hfresh.scenarios] at hs

/-- Statuses only move forward, both in all runs that are reached and in the store. -/
structure StatusesForward (r : Run) (calls : List Call) : Prop where
  /-- In a later run a scenario that is still there has a later status or the same one. -/
  reaches : (r.runs calls).Pairwise fun r r' =>
    ∀ s ∈ r.scenarios, ∀ s' ∈ r'.scenarios, s.id = s'.id → s.status.Reaches s'.status
  /-- From one run to the next a scenario leaves its initial state when it stops waiting. -/
  leaves : (r.runs calls).IsChain LeavesInitial
  /-- The history of a status goes forward, unless an action changes it by its path. -/
  logged : ∀ name, (∀ m ∈ r.moments calls, ∀ scope value,
      m.act = .change scope [Layout.status] value → scope.scenario ≠ name) →
    ∃ statuses, Forward ((r.performAll calls).store.intervalsAt
        ((r.performAll calls).pathOf name ++ [Layout.status])) statuses ∧
      statuses.length ≤ 3 ∧ statuses.countP isTerminal ≤ 1

theorem reaches_of_chain {runs : List Run} (hn : ∀ r ∈ runs, r.Numbered)
    (h : runs.IsChain MovesForward) : runs.Pairwise fun r r' =>
      ∀ s ∈ r.scenarios, ∀ s' ∈ r'.scenarios, s.id = s'.id → s.status.Reaches s'.status := by
  have htrans : Trans MovesForward MovesForward MovesForward := ⟨.trans⟩
  refine (List.isChain_iff_pairwise.mp h).imp_of_mem ?_
  intro r r' hr _ hmoves s hs s' hs' hid
  obtain ⟨x, hx, hcard, hreach⟩ := hmoves.reaches s' hs' (hid ▸ (hn r hr).le_created s hs)
  obtain rfl := (hn r hr).eq_of_id hx hs (hcard.id.symm.trans hid.symm)
  exact hreach

/-- In every run of an accepted document, whatever is called, statuses only move forward. -/
theorem statuses_forward {d : DefinitionDocument} {defs : DefinitionSet}
    (h : d.compile = .ok defs) (settings : RunSettings) (time : Int64) :
    ∃ r, Run.start defs (Store.empty time) settings = .ok r ∧
      ∀ calls, r.StatusesForward calls := by
  obtain ⟨r, hstart, hfresh, hground⟩ := exists_grounded h settings time
  refine ⟨r, hstart, fun calls => ?_⟩
  have htrace := performAll_trace hfresh.numbered calls
  have hgrounded := htrace.invariant (fun m _ r' move => Grounded.move move) hground
  constructor
  · apply reaches_of_chain
    · intro r' hr'
      rcases List.mem_append.mp hr' with hr' | hr'
      · obtain ⟨m, hm, rfl⟩ := List.mem_map.mp hr'
        exact (hgrounded.2 m hm).numbered
      · rw [List.mem_singleton.mp hr']
        exact hgrounded.1.numbered
    · apply htrace.isChain.imp
      rintro _ r' ⟨m, hm, rfl, move⟩
      exact .of_move (hgrounded.2 m hm).numbered move
  · apply htrace.isChain.imp
    rintro _ r' ⟨m, hm, rfl, move⟩
    exact .of_move (hgrounded.2 m hm).wellFormed (hgrounded.2 m hm).scheduled move
  · intro name hown
    have hlogged := htrace.invariant (I := fun r => r.StatusLogged name)
      (fun m hm r' move hlogged =>
        hlogged.move (hgrounded.2 m hm).numbered (hgrounded.2 m hm).nodup_ids
          (hgrounded.2 m hm).anchored (hgrounded.2 m hm).begins move (hown m hm))
      (hfresh.statusLogged name)
    obtain ⟨statuses, hforward, -⟩ := hlogged.1
    refine ⟨statuses, hforward, ?_, countP_isTerminal_le hforward.2⟩
    exact length_add_le (n := 0) (Nat.zero_le 3) hforward.2 fun _ _ => Nat.zero_le _

theorem statuses_forward_sample :
    ∃ defs r, DefinitionDocument.sample.compile = .ok defs ∧
      Run.start defs (Store.empty 0) {} = .ok r ∧ ∀ calls, r.StatusesForward calls := by
  obtain ⟨defs, hcompile⟩ := DefinitionDocument.exists_compile_sample
  obtain ⟨r, hstart, hforward⟩ := statuses_forward hcompile {} 0
  exact ⟨defs, r, hcompile, hstart, hforward⟩

end TraceAutomata.Run
