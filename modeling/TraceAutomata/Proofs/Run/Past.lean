import TraceAutomata.Proofs.Run.Dispose
import TraceAutomata.Proofs.Run.Faithful
import TraceAutomata.Proofs.Run.Hindsight
import TraceAutomata.Proofs.Store.Past

namespace TraceAutomata

namespace Run

theorem time_of_identity {time : Int64} {fsm : String} {parent : Option String} {w : Write}
    (hw : w ∈ identityWrites time fsm parent) : w.time = time := by
  rw [identityWrites, List.mem_cons] at hw
  rcases hw with rfl | hw
  · rfl
  · obtain ⟨p, -, rfl⟩ := Option.map_eq_some_iff.mp (Option.mem_toList.mp hw)
    rfl

theorem le_time {m : Moment} {time : Int64} (hend : time ≤ m.run.store.endTime)
    (hevent : ∀ e, m.event = some e → time ≤ e.nanos) : time ≤ m.time := by
  rw [Moment.time]
  cases hm : m.event with
  | none => exact hend
  | some e => exact hevent e hm

theorem le_admission {m : Moment} {time : Int64} {trigger : Option Event}
    (htrigger : trigger = none ∨ trigger = m.event) (hend : time ≤ m.run.store.endTime)
    (hevent : ∀ e, m.event = some e → time ≤ e.nanos) :
    time ≤ (trigger.map Event.nanos).getD m.run.store.endTime := by
  cases htime : trigger with
  | none => exact hend
  | some e =>
      rcases htrigger with hnone | hsome
      · rw [hnone] at htime
        cases htime
      · exact hevent e (hsome.symm.trans htime)

section Admitted

variable {r : Run} {index : Nat} {f : FsmDefinition} {c : FsmSchedule} {parent : Option String}
  {subtree : Quark} {st : Store}

theorem goesOn_admitted (hanchored : r.Anchored) {time start : Int64} (hstart : time ≤ start)
    (hopen : History.openScenario r.root (Scenario.nameOf f.id (c.created + 1)) r.store =
      .ok subtree st) :
    r.store.GoesOn time (r.admitted index f c parent start subtree st).store := by
  obtain ⟨st', q, hok, hext, -, hfind, hhist⟩ := History.openScenario_spec hanchored.tree
    hanchored.root (Scenario.nameOf f.id (c.created + 1))
  rw [hopen] at hok
  cases hok
  have hopened : r.store.GoesOn time st := by
    refine .of_extends hext (fun p => ?_) time
    rw [Store.intervalsAt, hhist]
    split
    · rfl
    · rfl
  obtain ⟨hrec, -⟩ := History.writeAll_spec hext.tree (hext.lockedName.trans hanchored.unlocked)
    hfind (identityWrites start f.id parent)
  rw [admitted_eq]
  simp only [History.setIdentity_eq]
  refine hopened.trans (hrec.goesOn (View.goesOn_writeAll _ fun w hw => ?_))
  rw [time_of_identity hw]
  exact hstart

end Admitted

theorem endTime_le_of_move {m : Moment} {r' : Run} (hground : m.run.Grounded) (move : Move m r') :
    m.run.store.endTime ≤ r'.store.endTime := by
  have hanchored := hground.anchored
  cases Effect.of_move hground.numbered move with
  | quiet _ _ _ _ store =>
      rcases store with heq | ⟨-, time, heq⟩
      · exact heq ▸ Int64.le_refl _
      · exact heq ▸ Store.endTime_le_extendTo _ time
  | alters s s' groups hs _ _ _ _ _ store =>
      obtain ⟨hrec, -⟩ := History.recordAll_spec hanchored.tree hanchored.unlocked
        (hanchored.subtree s (mem_of_scenario? hs)) groups
      exact store ▸ hrec.endTime_le
  | admits index f c parent trigger subtree st _ _ hf hc hopen heq =>
      obtain ⟨hopened, -⟩ := hanchored.opened (not_started_next hground.nodup_ids hf hc) hopen
        ((trigger.map Event.nanos).getD m.run.store.endTime) f.id parent
      rw [heq, admitted_eq]
      exact hopened.endTime_le
  | aborts _ name error st _ hopen _ =>
      exact (hanchored.openScenario_ne_error name error st hopen).elim

theorem goesOn_of_move {m : Moment} {r' : Run} {time : Int64} (hground : m.run.Grounded)
    (hend : time ≤ m.run.store.endTime) (hevent : ∀ e, m.event = some e → time ≤ e.nanos)
    (move : Move m r') : m.run.store.GoesOn time r'.store := by
  have hanchored := hground.anchored
  cases Effect.of_move hground.numbered move with
  | quiet _ _ _ _ store =>
      rcases store with heq | ⟨-, now, heq⟩
      · rw [heq]
        exact .refl hanchored.tree time
      · rw [heq]
        exact .extendTo hanchored.tree time now
  | alters s s' groups hs hlive halters _ _ _ store =>
      obtain ⟨hrec, -⟩ := History.recordAll_spec hanchored.tree hanchored.unlocked
        (hanchored.subtree s (mem_of_scenario? hs)) groups
      rw [store]
      refine hrec.goesOn (View.goesOn_record _ fun writes hwrites w hw => ?_)
      rw [halters.time_eq hlive writes hwrites w hw]
      exact le_time hend hevent
  | admits index f c parent trigger subtree st htrigger _ _ _ hopen heq =>
      rw [heq]
      exact goesOn_admitted hanchored (le_admission htrigger hend hevent) hopen
  | aborts _ name error st _ hopen _ =>
      exact (hanchored.openScenario_ne_error name error st hopen).elim

end Run

open Run

theorem Trace.goesOn {r r' : Run} {ms : List Moment} {time : Int64} (htrace : Trace r ms r')
    (hground : r.Grounded) (hend : time ≤ r.store.endTime)
    (hevents : ∀ m ∈ ms, ∀ e, m.event = some e → time ≤ e.nanos) :
    ∀ q ∈ ms.map (·.run) ++ [r'], r.store.GoesOn time q.store := by
  obtain ⟨hlast, hall⟩ := htrace.invariant
    (I := fun q => q.Grounded ∧ time ≤ q.store.endTime ∧ r.store.GoesOn time q.store)
    (fun m hm q move h => ⟨h.1.move move, Int64.le_trans h.2.1 (endTime_le_of_move h.1 move),
      h.2.2.trans (goesOn_of_move h.1 h.2.1 (hevents m hm) move)⟩)
    ⟨hground, hend, .refl hground.anchored.tree time⟩
  intro q hq
  rcases List.mem_append.mp hq with hq | hq
  · obtain ⟨m, hm, rfl⟩ := List.mem_map.mp hq
    exact (hall m hm).2.2
  · rw [List.mem_singleton.mp hq]
    exact hlast.2.2

namespace Run

theorem filterMap_event (e : Event) (calls : List Call) :
    (Call.event e :: calls).filterMap Call.event? = e :: calls.filterMap Call.event? := rfl

theorem Still.moments {r : Run} (h : r.Still) (hdisposed : r.disposed = true) (calls : List Call) :
    r.moments calls = [] := by
  induction calls with
  | nil => rfl
  | cons call rest ih =>
      have hperform : r.perform call = r := h.performAll hdisposed [call]
      have hmoments : r.performMoments call = [] := by
        cases call with
        | event e => rw [performMoments, onEventMoments, if_pos hdisposed]
        | cancel id =>
            rw [performMoments, cancelMoments]
            cases hs : r.scenario? id with
            | none => rfl
            | some s =>
                rw [Option.filter_some, h s (mem_of_scenario? hs)]
                rfl
        | dispose => rw [performMoments, disposeMoments, if_pos hdisposed]
      rw [Run.moments, foldMoments, hmoments, hperform]
      exact ih

theorem exists_performMoments {r : Run} (h : r.disposed = false) (e : Event) :
    ∃ ms, r.performMoments (.event e) = ⟨r, some e, .arrive⟩ :: ms := by
  rw [performMoments, onEventMoments, h, if_neg Bool.false_ne_true]
  exact ⟨_, rfl⟩

/-- From an event on, whatever is called then, each run that is reached has kept the answers about all
times before that event. -/
theorem keepsBefore_of_event {r : Run} (hground : r.Grounded) (hstill : r.disposed = true → r.Still)
    {e : Event} {after : List Call}
    (hafter : ∀ e' ∈ after.filterMap Call.event?, e.nanos ≤ e'.nanos) :
    ∀ q ∈ r.runs (.event e :: after), r.store.KeepsBefore e.nanos q.store := by
  have htree := hground.anchored.tree
  intro q hq
  cases hdisposed : r.disposed with
  | true =>
      have hsame := (hstill hdisposed).performAll hdisposed (.event e :: after)
      rw [runs, (hstill hdisposed).moments hdisposed, hsame] at hq
      rw [List.mem_singleton.mp hq]
      exact (Store.GoesOn.refl htree e.nanos).keepsBefore htree
  | false =>
      have htrace := performAll_trace hground.numbered (.event e :: after)
      have hevents : ∀ m ∈ r.moments (.event e :: after), ∀ e', m.event = some e' →
          e.nanos ≤ e'.nanos := by
        intro m hm e' he'
        have hmem := event_of_moment hground.numbered hm he'
        rw [filterMap_event, List.mem_cons] at hmem
        rcases hmem with rfl | hmem
        · exact Int64.le_refl _
        · exact hafter e' hmem
      obtain ⟨first, hfirst⟩ := exists_performMoments hdisposed e
      have hhead : ∃ ms, r.moments (.event e :: after) = ⟨r, some e, .arrive⟩ :: ms := by
        rw [Run.moments, foldMoments, hfirst]
        exact ⟨_, rfl⟩
      obtain ⟨ms, hms⟩ := hhead
      rw [runs, hms] at hq
      rw [hms] at htrace hevents
      obtain ⟨-, r', move, rest⟩ := htrace.of_cons
      have hnext := hground.move move
      have harrived : r.store.GoesOn e.nanos r'.store ∧ e.nanos ≤ r'.store.endTime := by
        cases move with
        | arrive _ =>
            exact ⟨.extendTo htree e.nanos e.nanos, Store.le_endTime_extendTo _ _⟩
      rcases List.mem_cons.mp hq with rfl | hq
      · exact (Store.GoesOn.refl htree e.nanos).keepsBefore htree
      · have hrest := rest.goesOn hnext harrived.2
          (fun m hm => hevents m (List.mem_cons_of_mem _ hm)) q hq
        exact (harrived.1.trans hrest).keepsBefore htree

/-- In every run of an accepted document on an empty store, if the events come in the order of their
times, nothing that happens from an event on changes the value of any attribute at any time before
that event, at whatever call and at whatever moment of it. -/
theorem past_kept {d : DefinitionDocument} {defs : DefinitionSet} (h : d.compile = .ok defs)
    (settings : RunSettings) (time : Int64) :
    ∃ r, Run.start defs (Store.empty time) settings = .ok r ∧
      ∀ before e after,
        ((before ++ .event e :: after).filterMap Call.event?).Pairwise
          (fun e e' => e.nanos ≤ e'.nanos) →
        ∀ q ∈ (r.performAll before).runs (.event e :: after),
          (r.performAll before).store.KeepsBefore e.nanos q.store := by
  obtain ⟨r, hstart, hfresh, hground⟩ := exists_grounded h settings time
  refine ⟨r, hstart, fun before e after hmono => ?_⟩
  obtain ⟨horderly, hstill⟩ := (hfresh.orderly hground).performAll
    (fun hdisposed => nomatch hfresh.disposed.symm.trans hdisposed) before
  rw [List.filterMap_append] at hmono
  have hlater := (List.pairwise_append.mp hmono).2.1
  rw [filterMap_event] at hlater
  exact keepsBefore_of_event horderly.grounded hstill (List.pairwise_cons.mp hlater).1

theorem past_kept_sample :
    ∃ defs r, DefinitionDocument.sample.compile = .ok defs ∧
      Run.start defs (Store.empty 0) {} = .ok r ∧
      (sampleCalls.filterMap Call.event?).Pairwise (fun e e' => e.nanos ≤ e'.nanos) ∧
      ∀ q ∈ (r.performAll (sampleCalls.take 2)).runs (sampleCalls.drop 2),
        (r.performAll (sampleCalls.take 2)).store.KeepsBefore 3000000000 q.store := by
  obtain ⟨defs, hcompile⟩ := DefinitionDocument.exists_compile_sample
  obtain ⟨r, hstart, hkept⟩ := past_kept hcompile {} 0
  have hmono : (sampleCalls.filterMap Call.event?).Pairwise fun e e' => e.nanos ≤ e'.nanos := by
    decide
  exact ⟨defs, r, hcompile, hstart, hmono,
    hkept (sampleCalls.take 2) ⟨⟨3, 0⟩, "begin", ∅, none⟩ (sampleCalls.drop 3) hmono⟩

end Run

end TraceAutomata
