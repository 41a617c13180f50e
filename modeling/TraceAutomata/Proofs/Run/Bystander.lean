import TraceAutomata.Proofs.Run.Concern

namespace TraceAutomata

namespace Run

section Schedules

variable {r : Run} {index i : Nat}

theorem getElem?_modifyFsm_of_ne {g : FsmSchedule → FsmSchedule} (hi : i ≠ index) :
    (r.modifyFsm index g).fsms[i]? = r.fsms[i]? := by
  rw [modifyFsm, List.getElem?_modify]
  cases r.fsms[i]? with
  | none => rfl
  | some c => simp [hi.symm]

theorem getElem?_restartIfIdle_of_ne (hi : i ≠ index) :
    (r.restartIfIdle index).fsms[i]? = r.fsms[i]? := by
  rw [restartIfIdle]
  split
  · exact getElem?_modifyFsm_of_ne hi
  · rfl

theorem getElem?_enter_of_ne (hi : i ≠ index) (f : FsmDefinition) (id : ScenarioId)
    (current next : String) (time : Int64) :
    (r.enter index f id current next time).1.fsms[i]? = r.fsms[i]? := by
  rw [enter]
  cases r.scenario? id with
  | none => rfl
  | some s =>
      simp only [recordMove_eq, recordAll_eq]
      split
      · rw [getElem?_restartIfIdle_of_ne hi]
        exact getElem?_modifyFsm_of_ne hi
      · split
        · exact getElem?_modifyFsm_of_ne hi
        · exact getElem?_modifyFsm_of_ne hi

theorem getElem?_cancelLive_of_ne {s : Scenario} (hindex : r.defs.fsmIndex? s.fsm = some index)
    (hi : i ≠ index) : (r.cancelLive s).fsms[i]? = r.fsms[i]? := by
  have hindex' : (r.modifyScenario s.id fun s =>
      { s.advance .abandoned with endTime := some r.store.endTime }).defs.fsmIndex? s.fsm =
        some index := hindex
  rw [cancelLive]
  simp only [hindex', record_fsms]
  rw [getElem?_restartIfIdle_of_ne hi]
  exact getElem?_modifyFsm_of_ne hi

end Schedules

/-- What no act about an fsm changes. -/
structure Steady (r r' : Run) : Prop where
  defs : r'.defs = r.defs
  settings : r'.settings = r.settings
  received : r'.received = r.received
  begun : r'.begun = r.begun
  disposed : r'.disposed = r.disposed

theorem Keeps.steady {busy : Option ScenarioId} {r r' : Run} (h : Keeps busy r r') : Steady r r' :=
  ⟨h.defs, h.settings, h.received, h.begun, h.disposed⟩

end Run

namespace Move

open Run

variable {m : Moment} {r' : Run} {fsm : String} {index : Nat}

theorem steady (move : Move m r') (hwithin : m.act.Within fsm index) : Steady m.run r' := by
  cases move with
  | arrive _ => cases hwithin
  | begin _ => cases hwithin
  | appoint _ _ => exact (keeps_modifyFsm none _ _ _).steady
  | takeDue _ _ => exact (keeps_modifyFsm none _ _ _).steady
  | decide => exact ⟨rfl, rfl, rfl, rfl, rfl⟩
  | abort _ => exact ⟨rfl, rfl, rfl, rfl, rfl⟩
  | enroll _ _ _ _ _ => exact (keeps_admitted _ _ _ _ _ _ _).steady
  | handle => exact ⟨rfl, rfl, rfl, rfl, rfl⟩
  | receive _ _ _ => exact (keeps_receive _ _ _ _).steady
  | operate _ => exact ⟨rfl, rfl, rfl, rfl, rfl⟩
  | change _ => exact (keeps_record none _ _).steady
  | save _ => exact (keeps_record none _ _).steady
  | emit _ _ => exact ⟨rfl, rfl, rfl, rfl, rfl⟩
  | enter _ _ _ _ => exact (keeps_enter _ _ _ _ _ _ _).steady
  | merge => exact (keeps_modifyFsm none _ _ _).steady
  | @retire r e i =>
      cases hc : r.fsms[i]? with
      | none =>
          rw [Run.retire, hc]
          exact ⟨rfl, rfl, rfl, rfl, rfl⟩
      | some c =>
          rw [retire_eq hc]
          exact ⟨rfl, rfl, rfl, rfl, rfl⟩
  | cancel _ _ => exact (keeps_cancelLive _ _).steady
  | dispose => cases hwithin

theorem index_eq {r : Run} (hnodup : (r.defs.fsms.map (·.id)).Nodup) {g : FsmDefinition}
    (hg : r.defs.fsms[index]? = some g) {s : Scenario} (hfsm : s.fsm = g.id) :
    r.defs.fsmIndex? s.fsm = some index :=
  (DefinitionSet.fsmIndex?_eq_some_iff hnodup).mpr ⟨g, hg, hfsm.symm⟩

theorem schedule_eq (move : Move m r') (hnodup : (m.run.defs.fsms.map (·.id)).Nodup)
    {g : FsmDefinition} (hg : m.run.defs.fsms[index]? = some g)
    (hwithin : m.act.Within g.id index) {i : Nat} (hi : i ≠ index) :
    r'.fsms[i]? = m.run.fsms[i]? := by
  cases move with
  | arrive _ => cases hwithin
  | begin _ => cases hwithin
  | appoint _ _ => exact getElem?_modifyFsm_of_ne (hwithin ▸ hi)
  | takeDue _ _ => exact getElem?_modifyFsm_of_ne (hwithin ▸ hi)
  | decide => rfl
  | abort _ => rfl
  | enroll _ _ _ _ _ =>
      rw [admitted_eq]
      exact getElem?_modifyFsm_of_ne (hwithin ▸ hi)
  | handle => rfl
  | receive _ _ _ =>
      rw [receive_eq, recordAll_eq]
      rfl
  | operate _ => rfl
  | change _ => rw [record_fsms]
  | save _ => rw [record_fsms]
  | emit _ _ => rfl
  | enter _ hf _ _ =>
      have hindex := Option.some.inj (hf.1.symm.trans (index_eq hnodup hg hwithin))
      exact getElem?_enter_of_ne (hindex ▸ hi) _ _ _ _ _
  | merge => exact getElem?_modifyFsm_of_ne (hwithin ▸ hi)
  | @retire r e j =>
      obtain rfl : j = index := hwithin
      cases hc : r.fsms[j]? with
      | none => rw [Run.retire, hc]
      | some c =>
          rw [retire_eq hc]
          exact getElem?_modifyFsm_of_ne hi
  | cancel _ _ => exact getElem?_cancelLive_of_ne (index_eq hnodup hg hwithin) hi
  | dispose => cases hwithin

end Move

namespace Run

theorem Alters.fsm_eq {m : Moment} {s s' : Scenario} {groups : List (List Write)} {fsm : String}
    {index : Nat} (h : Alters m s s' groups) (hwithin : m.act.Within fsm index) : s.fsm = fsm := by
  cases h with
  | receive _ => exact hwithin
  | change _ => exact hwithin
  | save _ => exact hwithin
  | enter _ _ _ _ => exact hwithin
  | cancel => exact hwithin

theorem Alters.time_eq {m : Moment} {s s' : Scenario} {groups : List (List Write)}
    (hlive : s.isLive = true) (h : Alters m s s' groups) :
    ∀ writes ∈ groups, ∀ w ∈ writes, w.time = m.time := by
  intro writes hwrites w hw
  cases h.written hlive writes hwrites w hw <;> rfl

/-- What there is of an fsm is the same. -/
structure Untouched (f : FsmDefinition) (index : Nat) (r r' : Run) : Prop extends Steady r r' where
  schedule : r'.fsms[index]? = r.fsms[index]?
  scenario? : ∀ id s, r.scenario? id = some s → s.fsm = f.id → r'.scenario? id = some s
  startTime : r'.store.startTime = r.store.startTime
  endTime : r'.store.endTime = r.store.endTime
  below : ∀ n, r'.store.below (r.pathOf (Scenario.nameOf f.id n)) =
    r.store.below (r.pathOf (Scenario.nameOf f.id n))

namespace Untouched

variable {f g : FsmDefinition} {index j : Nat} {r r' r'' : Run} {m : Moment}

theorem refl (f : FsmDefinition) (index : Nat) (r : Run) : Untouched f index r r :=
  ⟨⟨rfl, rfl, rfl, rfl, rfl⟩, rfl, fun _ _ h _ => h, rfl, rfl, fun _ => rfl⟩

theorem trans (h : Untouched f index r r') (h' : Untouched f index r' r'') :
    Untouched f index r r'' where
  defs := h'.defs.trans h.defs
  settings := h'.settings.trans h.settings
  received := h'.received.trans h.received
  begun := h'.begun.trans h.begun
  disposed := h'.disposed.trans h.disposed
  schedule := h'.schedule.trans h.schedule
  scenario? id s hs hfsm := h'.scenario? id s (h.scenario? id s hs hfsm) hfsm
  startTime := h'.startTime.trans h.startTime
  endTime := h'.endTime.trans h.endTime
  below n := by
    have hbelow := h'.below n
    rw [pathOf, h.defs, ← pathOf] at hbelow
    exact hbelow.trans (h.below n)

theorem time_le (h : ∀ e, m.event = some e → e.nanos ≤ m.run.store.endTime) :
    m.time ≤ m.run.store.endTime := by
  rw [Moment.time]
  cases hevent : m.event with
  | none => exact Int64.le_refl _
  | some e => exact h e hevent

section Moves

theorem of_quiet (hground : m.run.Grounded) (hg : m.run.defs.fsms[j]? = some g)
    (hid : f.id ≠ g.id) (hwithin : m.act.Within g.id j) (move : Move m r')
    (hgone : ∀ s ∈ m.run.scenarios, s ∉ r'.scenarios → s.isLive = false ∧
      ∃ index c, m.act = .retire index ∧ m.run.fsms[index]? = some c ∧ s.id ∈ c.active)
    (hsteady : Steady m.run r') (hschedule : r'.fsms[index]? = m.run.fsms[index]?)
    (hstore : r'.store = m.run.store) : Untouched f index m.run r' := by
  refine ⟨hsteady, hschedule, ?_, by rw [hstore], by rw [hstore], fun n => by rw [hstore]⟩
  intro id s hs hfsm
  have hstays : s ∈ r'.scenarios := by
    by_contra hmissing
    obtain ⟨-, i, c, hact, hc, hactive⟩ := hgone s (mem_of_scenario? hs) hmissing
    rw [hact] at hwithin
    obtain rfl : i = j := hwithin
    have hbelongs := hground.belongs hg hc (List.mem_append_left _ hactive)
    rw [id_of_scenario? hs] at hbelongs
    exact hid (hfsm.symm.trans (hbelongs.fsm s hs))
  have hfound := (move.follows.numbered hground.numbered).scenario?_of_mem hstays
  rw [id_of_scenario? hs] at hfound
  exact hfound

theorem of_alters (hground : m.run.Grounded) (hid : f.id ≠ g.id) (hwithin : m.act.Within g.id j)
    (htime : ∀ e, m.event = some e → e.nanos ≤ m.run.store.endTime) {s s' : Scenario}
    {groups : List (List Write)} (hs : m.run.scenario? s.id = some s) (hlive : s.isLive = true)
    (halters : Alters m s s' groups)
    (hscenarios : r'.scenarios = (m.run.modifyScenario s.id fun _ => s').scenarios)
    (hstore : r'.store = History.recordAll s.subtree groups m.run.store)
    (hsteady : Steady m.run r') (hschedule : r'.fsms[index]? = m.run.fsms[index]?) :
    Untouched f index m.run r' := by
  have hanchored := hground.anchored
  have hmem := mem_of_scenario? hs
  have hfsm := halters.fsm_eq hwithin
  obtain ⟨hrec, -, hend⟩ := History.recordAll_spec hanchored.tree hanchored.unlocked
    (hanchored.subtree s hmem) groups
  rw [← hstore] at hrec hend
  refine ⟨hsteady, hschedule, ?_, hrec.startTime, hend ?_, fun n => ?_⟩
  · intro id x hx hxfsm
    have hother : id ≠ s.id := by
      rintro rfl
      obtain rfl : s = x := Option.some.inj (hs.symm.trans hx)
      exact hid (hxfsm.symm.trans hfsm)
    have hsame := scenario?_modifyScenario_ne (r := m.run) (f := fun _ => s')
      (fun _ _ => halters.sameCard.id) hother
    rw [Run.scenario?, hscenarios]
    exact hsame.trans hx
  · intro writes hwrites w hw
    rw [halters.time_eq hlive writes hwrites w hw]
    exact time_le htime
  · refine below_eq_of_recorded hrec fun hname => ?_
    obtain ⟨sequence, -, hsname⟩ := hanchored.started s hmem
    exact hid ((Scenario.nameOf_injective (hname.trans hsname)).1.trans hfsm)

theorem of_admits (hground : r.Grounded) (hg : r.defs.fsms[j]? = some g) (hid : f.id ≠ g.id)
    {c : FsmSchedule} {parent : Option String} {time : Int64} {subtree : Quark} {st : Store}
    (hc : r.fsms[j]? = some c) (htime : time ≤ r.store.endTime)
    (hopen : History.openScenario r.root (Scenario.nameOf g.id (c.created + 1)) r.store =
      .ok subtree st)
    (heq : r' = r.admitted j g c parent time subtree st)
    (hsteady : Steady r r') (hschedule : r'.fsms[index]? = r.fsms[index]?) :
    Untouched f index r r' := by
  obtain ⟨hopened, -, hend⟩ := hground.anchored.opened (not_started_next hground.nodup_ids hg hc)
    hopen time g.id parent
  have hstore : r'.store = (History.setIdentity subtree time g.id parent).after st := by
    rw [heq, admitted_eq]
  rw [← hstore] at hopened hend
  refine ⟨hsteady, hschedule, ?_, hopened.startTime, hend htime, fun n => ?_⟩
  · intro id s hs _
    rw [heq]
    exact ((keeps_admitted j g c parent _ subtree st).scenario? id
      (id_of_scenario? hs ▸ hground.numbered.le_created s (mem_of_scenario? hs)) (by simp)).trans
      hs
  · exact hopened.below_eq fun hname => hid (Scenario.nameOf_injective hname).1

end Moves

theorem of_move (hground : m.run.Grounded) (hf : m.run.defs.fsms[index]? = some f)
    (hg : m.run.defs.fsms[j]? = some g) (hne : index ≠ j) (hwithin : m.act.Within g.id j)
    (htime : ∀ e, m.event = some e → e.nanos ≤ m.run.store.endTime) (move : Move m r') :
    Untouched f index m.run r' := by
  have hid : f.id ≠ g.id := fun heq =>
    hne (DefinitionSet.index_inj hground.nodup_ids hf hg heq)
  have hsteady := move.steady hwithin
  have hschedule := move.schedule_eq hground.nodup_ids hg hwithin hne
  cases Effect.of_move hground.numbered move with
  | quiet scenarios gone _ _ store =>
      have hstore : r'.store = m.run.store := by
        rcases store with heq | ⟨hact, -⟩
        · exact heq
        · rw [hact] at hwithin
          cases hwithin
      exact of_quiet hground hg hid hwithin move gone hsteady hschedule hstore
  | alters s s' groups hs hlive halters scenarios _ _ store =>
      exact of_alters hground hid hwithin htime hs hlive halters scenarios store hsteady hschedule
  | admits i f' c parent trigger subtree st htrigger hact hf' hc hopen heq =>
      rw [hact] at hwithin
      obtain rfl : i = j := hwithin
      obtain rfl : g = f' := Option.some.inj (hg.symm.trans hf')
      have hle : (trigger.map Event.nanos).getD m.run.store.endTime ≤ m.run.store.endTime := by
        cases trigger with
        | none => exact Int64.le_refl _
        | some e =>
            rcases htrigger with hnone | hsome
            · cases hnone
            · exact htime e hsome.symm
      exact of_admits hground hg hid hc hle hopen heq hsteady hschedule
  | aborts _ name error st _ hopen _ =>
      exact (hground.anchored.openScenario_ne_error name error st hopen).elim

end Untouched

theorem Grounded.of_path {event : Option Event} {r r' : Run} {ms : List Moment}
    (h : Path event r ms r') (hr : r.Grounded) : r'.Grounded := by
  induction h with
  | nil r => exact hr
  | cons move _ ih => exact ih (hr.move move)

theorem Untouched.of_path {event : Option Event} {r r' : Run} {ms : List Moment}
    {f g : FsmDefinition} {index j : Nat} (h : Path event r ms r') (hground : r.Grounded)
    (hf : r.defs.fsms[index]? = some f) (hg : r.defs.fsms[j]? = some g) (hne : index ≠ j)
    (hconcerns : Concerns g.id j ms)
    (htime : ∀ e, event = some e → e.nanos ≤ r.store.endTime) : Untouched f index r r' := by
  induction h with
  | nil r => exact .refl f index r
  | cons move _ ih =>
      obtain ⟨hwithin, hrest⟩ := List.forall_mem_cons.mp hconcerns
      have hfirst := Untouched.of_move hground hf hg hne hwithin htime move
      rw [← hfirst.defs] at hf hg
      rw [← hfirst.endTime] at htime
      exact hfirst.trans (ih (hground.move move) hf hg hrest htime)

end Run

end TraceAutomata
