import TraceAutomata.Proofs.Run.Begin
import TraceAutomata.Proofs.Run.Delivery

namespace TraceAutomata

def Act.Visiting : Act → Prop
  | .arrive | .begin | .appoint _ | .takeDue _ | .cancel _ | .dispose => False
  | _ => True

namespace Run

section Visiting

variable {spawn : Spawn} {spawned : Run → Nat → String → List Moment} {event : Event}

theorem slots_visiting (scope : ActionScope) (r : Run) (slots : List (String × Value)) :
    ∀ m ∈ slotMoments event scope r slots, m.act.Visiting :=
  forall_mem_foldMoments (fun _ _ => List.forall_mem_singleton.mpr trivial) r slots

section

variable (hspawned : ∀ r index parent, ∀ m ∈ spawned r index parent, m.act.Visiting)

include hspawned

theorem spawnAll_visiting (parent : String) (fsms : List String) (r : Run) :
    ∀ m ∈ spawnAllMoments spawn spawned parent fsms r, m.act.Visiting := by
  induction fsms generalizing r with
  | nil => exact List.forall_mem_nil _
  | cons fsm rest ih =>
      rw [spawnAllMoments]
      split
      · exact List.forall_mem_nil _
      · exact List.forall_mem_append.mpr ⟨hspawned _ _ _, ih _⟩

theorem operate_visiting (scope : ActionScope) (r : Run) (op : Operation) :
    ∀ m ∈ operateMoments spawn spawned event scope r op, m.act.Visiting := by
  unfold operateMoments
  refine List.forall_mem_cons.mpr ⟨trivial, ?_⟩
  cases op with
  | stateChange path value =>
      simp only
      split
      · exact List.forall_mem_singleton.mpr trivial
      · exact List.forall_mem_nil _
  | saveScratch => exact slots_visiting scope r _
  | clearScratch => exact slots_visiting scope r _
  | synthetic name fields =>
      simp only
      split
      · exact List.forall_mem_singleton.mpr trivial
      · exact List.forall_mem_nil _
  | spawn fsms => exact spawnAll_visiting hspawned scope.fsm fsms r

theorem actions_visiting (id : ScenarioId) (actions : List String) (r : Run) :
    ∀ m ∈ actionsMoments spawn spawned event id actions r, m.act.Visiting := by
  rw [actionsMoments]
  split
  · exact List.forall_mem_nil _
  · refine forall_mem_foldMoments (fun r action => ?_) r actions
    rw [actionMoments]
    split
    · exact forall_mem_foldMoments (operate_visiting hspawned _) r _
    · exact List.forall_mem_nil _

theorem step_visiting (id : ScenarioId) (r : Run) :
    ∀ m ∈ stepMoments spawn spawned event id r, m.act.Visiting := by
  rw [stepMoments]
  split
  · exact List.forall_mem_nil _
  · split
    · refine List.forall_mem_cons.mpr ⟨trivial, ?_⟩
      split
      · exact List.forall_mem_nil _
      · simp only
        split
        · exact List.forall_mem_append.mpr
            ⟨actions_visiting hspawned id _ _, List.forall_mem_singleton.mpr trivial⟩
        · exact List.forall_mem_nil _
    · exact List.forall_mem_nil _

theorem handle_visiting (id : ScenarioId) (r : Run) :
    ∀ m ∈ handleMoments spawn spawned event id r, m.act.Visiting := by
  refine List.forall_mem_cons.mpr ⟨trivial, ?_⟩
  generalize r.chainLimit id = allowed
  induction allowed generalizing r with
  | zero => exact step_visiting hspawned id r
  | succ allowed ih =>
      rw [chainMoments]
      refine List.forall_mem_append.mpr ⟨step_visiting hspawned id r, ?_⟩
      split
      · exact ih _
      · exact List.forall_mem_nil _

end

theorem launch_visiting (now : Event) (budget : Nat) (parent : Option String)
    (trigger : Option Event) (r : Run) (index : Nat) :
    ∀ m ∈ launchMoments now budget parent trigger r index, m.act.Visiting := by
  induction budget generalizing parent trigger r index with
  | zero => exact List.forall_mem_singleton.mpr trivial
  | succ budget ih =>
      rw [launchMoments]
      refine List.forall_mem_cons.mpr ⟨trivial, ?_⟩
      split
      · split
        · simp only
          split
          · exact List.forall_mem_singleton.mpr trivial
          · refine List.forall_mem_cons.mpr ⟨trivial, ?_⟩
            cases trigger with
            | none => exact List.forall_mem_nil _
            | some e => exact handle_visiting (fun r index parent => ih _ _ r index) _ _
        · exact List.forall_mem_nil _
      · exact List.forall_mem_nil _

theorem visit_visiting (event : Event) (r : Run) (index : Nat) :
    ∀ m ∈ visitMoments event r index, m.act.Visiting := by
  refine List.forall_mem_append.mpr ⟨by simp [Act.Visiting], ?_⟩
  split
  · refine forall_mem_foldMoments (fun r id => ?_) _ _
    rw [offerMoments]
    split
    · split
      · exact handle_visiting (fun r index parent => launch_visiting event _ _ _ r index) id r
      · exact List.forall_mem_nil _
    · exact List.forall_mem_nil _
  · exact List.forall_mem_nil _

end Visiting

end Run

namespace FsmSchedule

/-- How many scenarios are neither matched nor abandoned, by the counts. -/
def live (c : FsmSchedule) : Nat :=
  c.created - (c.matched + c.abandoned)

/-- The schedule with a start that is due, if the fsm is an initial one without a live scenario. -/
def rearmed (c : FsmSchedule) : FsmSchedule :=
  if c.isRoot && c.live == 0 then { c with startNext := true } else c

variable (c : FsmSchedule)

@[simp] theorem waiting_rearmed : c.rearmed.waiting = c.waiting := by
  rw [rearmed]
  split <;> rfl

@[simp] theorem live_rearmed : c.rearmed.live = c.live := by
  rw [rearmed]
  split <;> rfl

@[simp] theorem isRoot_rearmed : c.rearmed.isRoot = c.isRoot := by
  rw [rearmed]
  split <;> rfl

@[simp] theorem startNext_rearmed :
    c.rearmed.startNext = (c.startNext || (c.isRoot && c.live == 0)) := by
  rw [rearmed]
  cases hidle : c.isRoot && c.live == 0 <;> simp

theorem startNext_rearmed_of_live (h : 0 < c.rearmed.live) :
    c.rearmed.startNext = c.startNext := by
  rw [live_rearmed] at h
  rw [startNext_rearmed, beq_false_of_ne (Nat.ne_of_gt h), Bool.and_false, Bool.or_false]

end FsmSchedule

namespace Run

section Counted

variable (f : FsmDefinition) (left : Bool) (status : ScenarioStatus) (c : FsmSchedule)

@[simp] theorem isRoot_counted : (counted f left status c).isRoot = c.isRoot := by
  cases left <;> cases status <;> rfl

@[simp] theorem startNext_counted :
    (counted f left status c).startNext = (c.startNext || (left && f.concurrent)) := by
  cases left <;> cases status <;> simp [counted]

theorem live_counted (h : status.isTerminal = false) : (counted f left status c).live = c.live := by
  rw [FsmSchedule.live, ended_counted, created_counted, h]
  rfl

end Counted

section Counts

variable {r : Run} {f : FsmDefinition} {c : FsmSchedule} {i j : Nat}

theorem Sound.live_eq (h : r.Sound f c) :
    c.tracked.countP (r.holds Scenario.isLive) = c.live := by
  have hcreated := h.created
  rw [FsmSchedule.live]
  omega

theorem Sound.ended_le (h : r.Sound f c) : c.matched + c.abandoned ≤ c.created := by
  have hcreated := h.created
  omega

theorem Scheduled.liveCount_eq (h : r.Scheduled) (hf : r.defs.fsms[i]? = some f)
    (hc : r.fsms[i]? = some c) : r.liveCount i = c.live := by
  rw [liveCount, hc]
  exact (h.sound i f c hf hc).live_eq

theorem getElem?_modifyFsm (g : FsmSchedule → FsmSchedule) (hc : r.fsms[i]? = some c) :
    (r.modifyFsm j g).fsms[i]? = some (if j = i then g c else c) := by
  rw [modifyFsm, List.getElem?_modify, hc]
  split <;> rfl

/-- The counts do not depend on whether a start is due, so they can be read after the restart. -/
theorem getElem?_restartIfIdle (h : (r.restartIfIdle i).Scheduled)
    (hf : r.defs.fsms[i]? = some f) (hc : r.fsms[i]? = some c) :
    (r.restartIfIdle i).fsms[i]? = some c.rearmed := by
  have hdefs := (keeps_restartIfIdle none r i).defs
  by_cases hidle : r.liveCount i = 0
  · have hnext : (r.restartIfIdle i).fsms[i]? =
        some (if c.isRoot then { c with startNext := true } else c) := by
      rw [restartIfIdle, if_pos hidle, getElem?_modifyFsm _ hc, if_pos rfl]
    have hlive : c.live = 0 := by
      have heq := (h.sound i f _ (hdefs ▸ hf) hnext).live_eq
      rw [liveCount, hc] at hidle
      rw [restartIfIdle, liveCount, hc, if_pos hidle] at heq
      cases hroot : c.isRoot <;> simp only [hroot] at heq <;> exact heq.symm.trans hidle
    rw [hnext, FsmSchedule.rearmed, hlive]
    cases c.isRoot <;> rfl
  · have hsame : r.restartIfIdle i = r := if_neg hidle
    rw [hsame] at h ⊢
    rw [h.liveCount_eq hf hc] at hidle
    rw [hc, FsmSchedule.rearmed, if_neg (by simp [hidle])]

end Counts

end Run

/-- What an act does to the counts of the fsm at a place. -/
inductive Shift (act : Act) (i : Nat) (f : FsmDefinition) (c : FsmSchedule) : FsmSchedule → Prop
  | rest {active pending : List ScenarioId} :
      Shift act i f c { c with active := active, pending := pending }
  | appoint (h : act = .appoint i) : Shift act i f c { c with isRoot := true }
  | takeDue (h : act = .takeDue i) : Shift act i f c { c with startNext := false }
  | enroll {parent : Option String} {trigger : Option Event} {pending : List ScenarioId}
      (h : act = .enroll i parent trigger) :
      Shift act i f c
        { c with created := c.created + 1, pending := pending, waiting := c.waiting + 1 }
  | moves {s : Scenario} {next : String} {left : Bool} {status : ScenarioStatus}
      (h : act = .enter i f s next) (goesOn : status.isTerminal = false) :
      Shift act i f c (Run.counted f left status c)
  | ends {s : Scenario} {next : String} {left : Bool} {status : ScenarioStatus}
      (h : act = .enter i f s next) :
      Shift act i f c (Run.counted f left status c).rearmed
  | cancel {s : Scenario} (h : act = .cancel s) (fsm : s.fsm = f.id) :
      Shift act i f c
        { c with
          waiting := if s.isWaiting then c.waiting - 1 else c.waiting
          abandoned := c.abandoned + 1 : FsmSchedule }.rearmed

open Run

section Own

variable {r : Run} {f : FsmDefinition} {c : FsmSchedule} {i : Nat} {s : Scenario}

theorem shift_enter {e : Event} {next : String} (hs : r.scenario? s.id = some s)
    (hf : r.defs.fsms[i]? = some f) (hc : r.fsms[i]? = some c)
    (hsched : (r.enter i f s.id s.state next e.nanos).1.Scheduled) :
    ∃ c', (r.enter i f s.id s.state next e.nanos).1.fsms[i]? = some c' ∧
      Shift (.enter i f s next) i f c c' := by
  rw [enter_altered hs] at hsched ⊢
  have hcounted := getElem?_modifyFsm (j := i)
    (r := r.altered s (moved f s.state next e.nanos s)
      (moveGroups e.nanos (leavesInitial f s s.state next) (next != s.state) next
        (moved f s.state next e.nanos s).status))
    (counted f (leavesInitial f s s.state next) (moved f s.state next e.nanos s).status) hc
  rw [if_pos rfl] at hcounted
  simp only at hsched ⊢
  split at hsched
  · next hends =>
    rw [if_pos hends]
    exact ⟨_, getElem?_restartIfIdle hsched hf hcounted, .ends rfl⟩
  · next hgoes =>
    rw [if_neg hgoes]
    have hgoes' := eq_false_of_ne_true hgoes
    split
    · exact ⟨_, hcounted, .moves rfl hgoes'⟩
    · exact ⟨_, hcounted, .moves rfl hgoes'⟩

theorem getElem?_cancelLive (hn : r.Numbered) (hs : r.scenario? s.id = some s)
    (hindex : r.defs.fsmIndex? s.fsm = some i) (hf : r.defs.fsms[i]? = some f)
    (hc : r.fsms[i]? = some c) (hsched : (r.cancelLive s).Scheduled) :
    (r.cancelLive s).fsms[i]? =
      some { c with
        waiting := if s.isWaiting then c.waiting - 1 else c.waiting
        abandoned := c.abandoned + 1 : FsmSchedule }.rearmed := by
  rw [cancelLive_altered hn hs] at hsched ⊢
  simp only [hindex] at hsched ⊢
  refine getElem?_restartIfIdle hsched hf ?_
  exact (getElem?_modifyFsm _ hc).trans (by rw [if_pos rfl])

end Own

theorem Move.shift {m : Moment} {r' : Run} (move : Move m r') (hground : m.run.Grounded) {i : Nat}
    {f : FsmDefinition} {c : FsmSchedule} (hf : m.run.defs.fsms[i]? = some f)
    (hc : m.run.fsms[i]? = some c) : ∃ c', r'.fsms[i]? = some c' ∧ Shift m.act i f c c' := by
  have hsched := (hground.move move).scheduled
  cases move with
  | arrive _ => exact ⟨c, hc, .rest⟩
  | begin _ => exact ⟨c, hc, .rest⟩
  | appoint _ _ =>
      refine ⟨_, getElem?_modifyFsm _ hc, ?_⟩
      split
      · next heq => exact .appoint (heq ▸ rfl)
      · exact .rest
  | takeDue _ _ =>
      refine ⟨_, getElem?_modifyFsm _ hc, ?_⟩
      split
      · next heq => exact .takeDue (heq ▸ rfl)
      · exact .rest
  | decide => exact ⟨c, hc, .rest⟩
  | abort _ => exact ⟨c, hc, .rest⟩
  | enroll _ _ hc' _ _ =>
      rw [admitted_eq]
      refine ⟨_, getElem?_modifyFsm _ hc, ?_⟩
      split
      · next heq =>
        subst heq
        obtain rfl := Option.some.inj (hc.symm.trans hc')
        exact .enroll rfl
      · exact .rest
  | handle => exact ⟨c, hc, .rest⟩
  | receive _ _ _ =>
      rw [receive_eq, recordAll_eq]
      exact ⟨c, hc, .rest⟩
  | operate _ => exact ⟨c, hc, .rest⟩
  | change _ =>
      rw [record_fsms]
      exact ⟨c, hc, .rest⟩
  | save _ =>
      rw [record_fsms]
      exact ⟨c, hc, .rest⟩
  | emit _ _ => exact ⟨c, hc, .rest⟩
  | @enter _ _ j _ _ _ _ hs hof _ _ =>
      by_cases hj : j = i
      · subst hj
        obtain rfl := Option.some.inj (hf.symm.trans (hof.spec hground.nodup_ids).1)
        exact shift_enter hs.1 hf hc hsched
      · rw [getElem?_enter_of_ne (Ne.symm hj)]
        exact ⟨c, hc, .rest⟩
  | merge =>
      refine ⟨_, getElem?_modifyFsm _ hc, ?_⟩
      split
      · exact .rest
      · exact .rest
  | @retire r e j =>
      cases hj : r.fsms[j]? with
      | none =>
          rw [Run.retire, hj]
          exact ⟨c, hc, .rest⟩
      | some c₀ =>
          rw [retire_eq hj]
          refine ⟨_, getElem?_modifyFsm _ hc, ?_⟩
          split
          · exact .rest
          · exact .rest
  | cancel hs _ =>
      obtain ⟨j, g, hof⟩ := hground.scheduled.exists_ofFsm hground.wellFormed (mem_of_scenario? hs)
      by_cases hj : j = i
      · subst hj
        obtain ⟨hg, hfsm⟩ := hof.spec hground.nodup_ids
        obtain rfl := Option.some.inj (hf.symm.trans hg)
        exact ⟨_, getElem?_cancelLive hground.numbered hs hof.1 hf hc hsched, .cancel rfl hfsm⟩
      · rw [getElem?_cancelLive_of_ne hof.1 (Ne.symm hj)]
        exact ⟨c, hc, .rest⟩
  | dispose => exact ⟨c, hc, .rest⟩

end TraceAutomata
