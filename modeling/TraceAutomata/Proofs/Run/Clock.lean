import TraceAutomata.Proofs.Run.Past

namespace TraceAutomata

/-- All but the arrival of an event happens at the latest time that the store has heard of. -/
def Moment.Punctual (m : Moment) : Prop :=
  m.act = .arrive ∨ m.time = m.run.store.endTime

namespace Run

theorem store_of_arrive {m : Moment} {r' : Run} (hact : m.act = .arrive) (move : Move m r') :
    r'.store = m.run.store.extendTo m.time := by
  cases move with
  | arrive _ => rfl
  | _ => cases hact

theorem endTime_of_move {m : Moment} {r' : Run} (hground : m.run.Grounded)
    (htime : m.time = m.run.store.endTime) (move : Move m r') :
    r'.store.endTime = m.run.store.endTime := by
  have hanchored := hground.anchored
  cases Effect.of_move hground.numbered move with
  | quiet _ _ _ _ store =>
      rcases store with heq | ⟨hact, -⟩
      · rw [heq]
      · rw [store_of_arrive hact move, htime, Store.endTime_extendTo, ite_self]
  | alters s s' groups hs hlive halters _ _ _ store =>
      obtain ⟨-, -, hsame⟩ := History.recordAll_spec hanchored.tree hanchored.unlocked
        (hanchored.subtree s (mem_of_scenario? hs)) groups
      rw [store]
      apply hsame
      intro writes hwrites w hw
      rw [halters.time_eq hlive writes hwrites w hw, htime]
      exact Int64.le_refl _
  | admits index f c parent trigger subtree st htrigger _ hf hc hopen heq =>
      have hstart : (trigger.map Event.nanos).getD m.run.store.endTime = m.run.store.endTime := by
        rcases htrigger with rfl | rfl
        · rfl
        · cases hevent : m.event with
          | none => rfl
          | some e =>
              rw [Moment.time, hevent] at htime
              exact htime
      obtain ⟨-, -, hsame⟩ := hanchored.opened (not_started_next hground.nodup_ids hf hc) hopen
        ((trigger.map Event.nanos).getD m.run.store.endTime) f.id parent
      rw [heq, admitted_eq]
      exact hsame (Int64.le_of_eq hstart)
  | aborts _ name error st _ hopen _ =>
      exact (hanchored.openScenario_ne_error name error st hopen).elim

end Run

namespace Path

open Run

theorem punctual {event : Option Event} {r r' : Run} {ms : List Moment}
    (hpath : Path event r ms r') (hground : r.Grounded)
    (hevent : ∀ e, event = some e → e.nanos = r.store.endTime) :
    (∀ m ∈ ms, m.Punctual) ∧ r'.store.endTime = r.store.endTime := by
  have htime : ∀ m ∈ ms, m.run.store.endTime = r.store.endTime → m.time = m.run.store.endTime := by
    intro m hm hsame
    rw [Moment.time, hpath.event_eq m hm]
    cases event with
    | none => rfl
    | some e => exact (hevent e rfl).trans hsame.symm
  obtain ⟨hlast, hall⟩ := hpath.trace.invariant
    (I := fun q => q.Grounded ∧ q.store.endTime = r.store.endTime)
    (fun m hm q move h => ⟨h.1.move move,
      (endTime_of_move h.1 (htime m hm h.2) move).trans h.2⟩)
    ⟨hground, rfl⟩
  exact ⟨fun m hm => .inr (htime m hm (hall m hm).2), hlast.2⟩

theorem punctual_of_arrive {e : Event} {r r' : Run} {ms : List Moment}
    (hpath : Path (some e) r (⟨r, some e, .arrive⟩ :: ms) r') (hground : r.Grounded)
    (hlater : r.store.endTime ≤ e.nanos) :
    (∀ m ∈ (⟨r, some e, .arrive⟩ :: ms : List Moment), m.Punctual) ∧
      r'.store.endTime = e.nanos := by
  cases hpath with
  | @cons _ next _ _ _ move rest =>
      have hend : next.store.endTime = e.nanos := by
        rw [store_of_arrive rfl move, Store.endTime_extendTo]
        split
        · rfl
        · next hnot => exact Int64.le_antisymm hlater (Int64.not_lt.mp hnot)
      obtain ⟨hall, hlast⟩ := rest.punctual (hground.move move) fun e' he' => by
        rw [← Option.some.inj he', hend]
      exact ⟨List.forall_mem_cons.mpr ⟨.inl rfl, hall⟩, hlast.trans hend⟩

end Path

namespace Run

theorem perform_punctual {r : Run} (hground : r.Grounded) (call : Call)
    (hlater : ∀ e, call.event? = some e → r.store.endTime ≤ e.nanos) :
    (∀ m ∈ r.performMoments call, m.Punctual) ∧
      ((r.perform call).store.endTime = r.store.endTime ∨
        ∃ e, call.event? = some e ∧ (r.perform call).store.endTime = e.nanos) := by
  have hpath := perform_path hground.numbered call
  cases call with
  | event e =>
      cases hdisposed : r.disposed with
      | true =>
          refine ⟨?_, .inl ?_⟩
          · rw [performMoments, onEventMoments, if_pos hdisposed]
            exact List.forall_mem_nil _
          · rw [perform, onEvent, if_pos hdisposed]
      | false =>
          obtain ⟨ms, hms⟩ := exists_performMoments hdisposed e
          rw [hms] at hpath ⊢
          obtain ⟨hall, hend⟩ := Path.punctual_of_arrive hpath hground (hlater e rfl)
          exact ⟨hall, .inr ⟨e, rfl, hend⟩⟩
  | cancel id =>
      obtain ⟨hall, hend⟩ := hpath.punctual hground fun e he => by cases he
      exact ⟨hall, .inl hend⟩
  | dispose =>
      obtain ⟨hall, hend⟩ := hpath.punctual hground fun e he => by cases he
      exact ⟨hall, .inl hend⟩

theorem moments_punctual {r : Run} (hground : r.Grounded) {calls : List Call}
    (hmono : (calls.filterMap Call.event?).Pairwise fun e e' => e.nanos ≤ e'.nanos)
    (hlater : ∀ e ∈ calls.filterMap Call.event?, r.store.endTime ≤ e.nanos) :
    ∀ m ∈ r.moments calls, m.Punctual := by
  induction calls generalizing r with
  | nil => exact List.forall_mem_nil _
  | cons call rest ih =>
      have hevent : ∀ e, call.event? = some e →
          (call :: rest).filterMap Call.event? = e :: rest.filterMap Call.event? :=
        fun e he => List.filterMap_cons_some he
      have hrest := (List.sublist_cons_self call rest).filterMap Call.event?
      obtain ⟨hfirst, hend⟩ := perform_punctual hground call fun e he =>
        hlater e (hevent e he ▸ List.mem_cons_self)
      have hground' := ((perform_path hground.numbered call).trace.invariant
        (fun m _ r' move => Grounded.move move) hground).1
      rw [moments, foldMoments, ← moments, List.forall_mem_append]
      refine ⟨hfirst, ih hground' (hmono.sublist hrest) fun e he => ?_⟩
      rcases hend with hsame | ⟨e', he', heq⟩
      · rw [hsame]
        exact hlater e (hrest.subset he)
      · rw [hevent e' he'] at hmono
        rw [heq]
        exact (List.pairwise_cons.mp hmono).1 e he

end Run

end TraceAutomata
