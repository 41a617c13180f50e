import TraceAutomata.Proofs.Run.Scratch

namespace TraceAutomata

namespace Run

/-- All is known of a run and of the scenarios that it has ever started. -/
structure Settled (r : Run) : Prop where
  grounded : r.Grounded
  remembered : ∃ known, r.Remembered known

section Names

variable {r q : Run} {ms : List Moment} {known : ScenarioId → Option Scenario}

theorem Remembered.name_kept {m : Moment} (h : m.run.Remembered known) (hground : m.run.Grounded)
    (move : Move m q) {id : ScenarioId} {s : Scenario} (hs : known id = some s) :
    ∃ s', note known q id = some s' ∧ s'.name = s.name := by
  cases Chronicled.of_move h hground move with
  | same noted _ _ =>
      rw [noted]
      exact ⟨s, hs, rfl⟩
  | alters x x' groups hx _ halters noted _ _ _ =>
      rw [noted]
      rcases eq_or_ne id x.id with rfl | hne
      · obtain rfl := Option.some.inj (hs.symm.trans (h.present x (mem_of_scenario? hx)))
        exact ⟨x', Function.update_self .., halters.sameCard.name⟩
      · exact ⟨s, (Function.update_of_ne hne ..).trans hs, rfl⟩
  | admits index f c parent subtree time _ _ _ noted _ _ _ =>
      rw [noted]
      have hne : id ≠ m.run.created + 1 := by
        rintro rfl
        have hle := (h.isSome_iff _).mp (by rw [hs]; rfl)
        exact Nat.not_succ_le_self _ hle.2
      exact ⟨s, (Function.update_of_ne hne ..).trans hs, rfl⟩

theorem Remembered.exists_of_trace (h : r.Remembered known) (hground : r.Grounded)
    (htrace : Trace r ms q) :
    q.Grounded ∧ ∃ known', q.Remembered known' ∧
      ∀ id s, known id = some s → ∃ s', known' id = some s' ∧ s'.name = s.name := by
  refine (htrace.invariant (I := fun q => q.Grounded ∧ ∃ known', q.Remembered known' ∧
    ∀ id s, known id = some s → ∃ s', known' id = some s' ∧ s'.name = s.name) ?_
    ⟨hground, known, h, fun id s hs => ⟨s, hs, rfl⟩⟩).1
  rintro m - q' move ⟨hground, known', h', hkept⟩
  refine ⟨hground.move move, _, h'.move hground.numbered hground.nodup_ids hground.anchored move,
    fun id s hs => ?_⟩
  obtain ⟨x, hx, hname⟩ := hkept id s hs
  obtain ⟨x', hx', hname'⟩ := h'.name_kept hground move hx
  exact ⟨x', hx', hname'.trans hname⟩

theorem Settled.trace (h : r.Settled) (htrace : Trace r ms q) : q.Settled := by
  obtain ⟨known, hknown⟩ := h.remembered
  obtain ⟨hground, known', hknown', -⟩ := hknown.exists_of_trace h.grounded htrace
  exact ⟨hground, known', hknown'⟩

theorem Settled.name_ne (h : r.Settled) (htrace : Trace r ms q) {s x : Scenario}
    (hs : r.scenario? s.id = some s) (hx : q.scenario? x.id = some x) (hlt : r.created < x.id) :
    x.name ≠ s.name := by
  intro hname
  obtain ⟨known, hknown⟩ := h.remembered
  obtain ⟨-, known', hknown', hkept⟩ := hknown.exists_of_trace h.grounded htrace
  obtain ⟨s', hs', hname'⟩ := hkept s.id s (hknown.present s (mem_of_scenario? hs))
  have hid := hknown'.name_injective (hknown'.present x (mem_of_scenario? hx)) hs'
    (hname.trans hname'.symm)
  have hle := h.grounded.numbered.le_created s (mem_of_scenario? hs)
  exact Nat.not_lt_of_le hle (hid ▸ hlt)

end Names

/-- A scenario is busy in a run with certain definitions, of which all is known. -/
structure Engaged (s : Scenario) (d : DefinitionSet) (r : Run) : Prop where
  busy : Busy s r
  settled : r.Settled
  defs : r.defs = d

section Engagement

variable {s : Scenario} {d : DefinitionSet} {event : Event} {spawn : Spawn}
  {spawned : Run → Nat → String → List Moment}

theorem Engaged.passage {r r' : Run} {ms : List Moment} (h : Engaged s d r)
    (hpassage : Passage event none r ms r') : Engaged s d r' :=
  ⟨Busy.keep hpassage.keeps h.busy, h.settled.trace hpassage.path.trace,
    hpassage.keeps.defs.trans h.defs⟩

theorem filterMap_foldMoments {α β : Type} {f : Run → α → Run} {moments : Run → α → List Moment}
    {g : Moment → Option β} {values : α → List β} {I : Run → Prop} {list : List α} {r : Run}
    (step : ∀ r, ∀ a ∈ list, I r → (moments r a).filterMap g = values a ∧ I (f r a)) (hr : I r) :
    (foldMoments f moments r list).filterMap g = list.flatMap values := by
  induction list generalizing r with
  | nil => rfl
  | cons a rest ih =>
      obtain ⟨hfirst, hnext⟩ := step r a List.mem_cons_self hr
      rw [foldMoments, List.filterMap_append, hfirst, List.flatMap_cons,
        ih (fun r b hb => step r b (List.mem_cons_of_mem _ hb)) hnext]

theorem foldActions_passage (starter : Starter event spawn spawned) {r : Run} (h : Busy s r)
    (ids : List String) :
    Passage event none r
      (foldMoments (runAction spawn s.scope event) (actionMoments spawn spawned event s.scope) r
        ids)
      (ids.foldl (runAction spawn s.scope event) r) :=
  Passage.fold (P := Busy s) (fun _ _ h => Busy.keep h)
    (fun _ id _ h => action_passage starter.passage h id) h

theorem operations_of_tends {r q : Run} {ms : List Moment} (h : Engaged s d r)
    (htrace : Trace r ms q) (htends : Tends none 0 r.created ms) :
    ms.filterMap (Moment.operation? s.name) = [] := by
  rw [List.filterMap_eq_nil_iff]
  intro m hm
  rw [Moment.operation?]
  split
  · next scope op hact =>
    have habout := htends.about m hm
    rw [Moment.About, hact] at habout
    obtain ⟨x, hx, rfl, hlater⟩ := habout
    have hlt := hlater.resolve_left (Option.some_ne_none _).symm
    obtain ⟨past, rest, rfl⟩ := List.append_of_mem hm
    exact if_neg (h.settled.name_ne htrace.before h.busy.2.1 hx hlt)
  · rfl

variable (starter : Starter event spawn spawned)

include starter

theorem operations_spawnAll {r : Run} (h : Engaged s d r) (parent : String) (fsms : List String) :
    (spawnAllMoments spawn spawned parent fsms r).filterMap (Moment.operation? s.name) = [] := by
  induction fsms generalizing r with
  | nil => rfl
  | cons fsm rest ih =>
      rw [spawnAllMoments]
      cases r.defs.fsmIndex? fsm with
      | none => rfl
      | some index =>
          have hpassage := starter.passage r index parent h.busy.1
          rw [List.filterMap_append, operations_of_tends h hpassage.path.trace
            (starter.tends r index parent h.busy.1), ih (h.passage hpassage)]
          rfl

theorem operations_operate {r : Run} (h : Engaged s d r) (op : Operation) :
    (operateMoments spawn spawned event s.scope r op).filterMap (Moment.operation? s.name) =
      [op] := by
  have hslots : ∀ entries : List (String × Value),
      (slotMoments event s.scope r entries).filterMap (Moment.operation? s.name) = [] :=
    fun _ => filterMap_slotMoments fun m slot value hact => by rw [Moment.operation?, hact]
  have hhead : ∀ ms : List Moment, ms.filterMap (Moment.operation? s.name) = [] →
      (⟨r, some event, .operate s.scope op⟩ :: ms).filterMap (Moment.operation? s.name) =
        [op] := by
    intro ms hms
    have hown : (⟨r, some event, .operate s.scope op⟩ : Moment).operation? s.name = some op :=
      if_pos rfl
    rw [List.filterMap_cons_some hown, hms]
  unfold operateMoments
  apply hhead
  cases op with
  | stateChange path value =>
      simp only
      split <;> rfl
  | saveScratch => exact hslots _
  | clearScratch => exact hslots _
  | synthetic name fields =>
      simp only
      split <;> rfl
  | spawn fsms => exact operations_spawnAll starter h s.scope.fsm fsms

theorem operations_action {r : Run} (h : Engaged s d r) (id : String) :
    (actionMoments spawn spawned event s.scope r id).filterMap (Moment.operation? s.name) =
      d.operations id := by
  rw [actionMoments, DefinitionSet.action, h.defs, DefinitionSet.operations]
  cases d.actions.find? id with
  | none => rfl
  | some ops =>
      have hops : (foldMoments (fun r op => attempt (operate spawn s.scope event op) r)
          (operateMoments spawn spawned event s.scope) r ops).filterMap
            (Moment.operation? s.name) = ops.flatMap fun op => [op] :=
        filterMap_foldMoments (I := Engaged s d)
          (fun _ op _ h => ⟨operations_operate starter h op,
            h.passage (operate_passage starter.passage h.busy op)⟩) h
      rw [List.flatMap_singleton'] at hops
      exact hops

theorem operations_actions {r : Run} (h : Engaged s d r) (ids : List String) :
    (foldMoments (runAction spawn s.scope event) (actionMoments spawn spawned event s.scope) r
        ids).filterMap (Moment.operation? s.name) = ids.flatMap d.operations :=
  filterMap_foldMoments (I := Engaged s d)
    (fun _ id _ h => ⟨operations_action starter h id,
      h.passage (action_passage starter.passage h.busy id)⟩) h

theorem foldActions_composed
    (hspawned : ∀ r index parent, r.Numbered → Composed (spawned r index parent)) {r : Run}
    (h : Busy s r) (ids : List String) :
    Composed (foldMoments (runAction spawn s.scope event)
      (actionMoments spawn spawned event s.scope) r ids) :=
  .fold (I := Busy s) (fun _ id _ h => ⟨action_composed starter hspawned h id,
    Busy.keep (action_passage starter.passage h id).keeps h⟩) h

end Engagement

end Run

end TraceAutomata
