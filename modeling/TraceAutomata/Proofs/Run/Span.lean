import TraceAutomata.Proofs.Run.Faithful
import TraceAutomata.Proofs.Run.Hindsight
import TraceAutomata.Proofs.Run.Lockstep

namespace TraceAutomata

theorem Timestamp.nanos_ofNanos (time : Int64) : (Timestamp.ofNanos time).nanos = time := by
  simp [Timestamp.nanos, Timestamp.ofNanos, Timestamp.nanoScale, Number.tenPow]

namespace Run

/-- Whether a scenario is in the initial state of its fsm in one run and in another state in the next
one. -/
def departs (id : ScenarioId) (r r' : Run) : Bool :=
  match r.scenario? id, r'.scenario? id with
  | some s, some s' =>
      (r.defs.fsm? s.fsm).any (fun f => s.state == f.initial) && s'.state != s.state
  | _, _ => false

section Departs

variable {r r' : Run} {id : ScenarioId} {s s' : Scenario}

theorem departs_of_none (h : r.scenario? id = none) : departs id r r' = false := by
  rw [departs, h]

theorem departs_of_some (h : r.scenario? id = some s) (h' : r'.scenario? id = some s') :
    departs id r r' =
      ((r.defs.fsm? s.fsm).any (fun f => s.state == f.initial) && s'.state != s.state) := by
  rw [departs, h, h']

theorem departs_of_stays (h : r.scenario? id = some s) (h' : r'.scenario? id = some s')
    (hstate : s'.state = s.state) : departs id r r' = false := by
  rw [departs_of_some h h', hstate, bne_self_eq_false, Bool.and_false]

end Departs

/-- Each scenario keeps the time at which it left its initial state first, and waits until then. -/
structure Departed (ms : List Moment) (r : Run) : Prop where
  staffed : r.Staffed
  startTime : ∀ s ∈ r.scenarios, s.startTime = (timesOf (departs s.id) ms r).head?
  waiting : ∀ s ∈ r.scenarios, s.isLive = true →
    (s.isWaiting = true ↔ timesOf (departs s.id) ms r = [])
  /-- A scenario that is still to come has left nothing. -/
  unborn : ∀ id, r.created < id → timesOf (departs id) ms r = []

section Steps

variable {m : Moment} {ms : List Moment} {r' : Run}

theorem Departed.stays (h : Departed ms m.run) {s s' : Scenario}
    (hs : m.run.scenario? s'.id = some s) (hs' : r'.scenario? s'.id = some s')
    (hstate : s'.state = s.state) (hstart : s'.startTime = s.startTime)
    (hwaiting : s'.isLive = true → s.isLive = true ∧ s'.isWaiting = s.isWaiting) :
    s'.startTime = (timesOf (departs s'.id) (ms ++ [m]) r').head? ∧
      (s'.isLive = true → (s'.isWaiting = true ↔ timesOf (departs s'.id) (ms ++ [m]) r' = [])) := by
  have hid := id_of_scenario? hs
  have hmem := mem_of_scenario? hs
  rw [timesOf_concat_of_not (departs_of_stays hs hs' hstate), hstart, ← hid]
  refine ⟨h.startTime s hmem, fun hlive => ?_⟩
  obtain ⟨hlive, heq⟩ := hwaiting hlive
  rw [heq]
  exact h.waiting s hmem hlive

theorem Departed.enters {r : Run} {e : Event} {index : Nat} {f : FsmDefinition} {s : Scenario}
    {target : String} (h : Departed ms r) (hs : r.scenario? s.id = some s) (hlive : s.isLive = true)
    (hf : r.OfFsm s index f)
    (hs' : r'.scenario? s.id = some (moved f s.state target e.nanos s)) :
    (moved f s.state target e.nanos s).startTime =
        (timesOf (departs s.id) (ms ++ [⟨r, some e, .enter index f s target⟩]) r').head? ∧
      ((moved f s.state target e.nanos s).isWaiting = true ↔
        timesOf (departs s.id) (ms ++ [⟨r, some e, .enter index f s target⟩]) r' = []) := by
  have hmem := mem_of_scenario? hs
  have hfmem := List.mem_of_getElem? (hf.spec h.staffed.wellFormed.nodup_ids).1
  have hinitial := h.staffed.initial hmem hf
  have hwaits := h.waiting s hmem hlive
  have hstart := h.startTime s hmem
  have hmoved : (moved f s.state target e.nanos s).startTime =
      if leavesInitial f s s.state target then some e.nanos else s.startTime := by
    rw [moved_eq]
  have hdeparts : departs s.id r r' = (s.state == f.initial && target != s.state) := by
    rw [departs_of_some hs hs', hf.2, moved_eq]
    rfl
  have hleaves : leavesInitial f s s.state target = (departs s.id r r' && s.isWaiting) := by
    rw [hdeparts, leavesInitial, Bool.and_comm (s.state == f.initial)]
  rw [hmoved, isWaiting_moved (h.staffed.wellFormed.fsm f hfmem) hlive hinitial, hleaves]
  cases hchange : departs s.id r r' with
  | false =>
      rw [timesOf_concat_of_not hchange, Bool.false_and, Bool.not_false, Bool.and_true]
      exact ⟨hstart, hwaits⟩
  | true =>
      rw [timesOf_concat_of_event hchange rfl]
      cases hwaiting : s.isWaiting with
      | true =>
          rw [hwaits.mp hwaiting]
          exact ⟨rfl, by simp⟩
      | false =>
          obtain ⟨first, rest, hcons⟩ := List.exists_cons_of_ne_nil
            (fun hnil => absurd (hwaiting.symm.trans (hwaits.mpr hnil)) Bool.false_ne_true)
          rw [hcons] at hstart ⊢
          exact ⟨hstart, by simp⟩

theorem Departed.move (h : Departed ms m.run) (move : Move m r') : Departed (ms ++ [m]) r' := by
  have hn := h.staffed.numbered
  have hstaffed := h.staffed.move move
  have hscenario : ∀ s ∈ r'.scenarios, s.startTime = (timesOf (departs s.id) (ms ++ [m]) r').head? ∧
      (s.isLive = true → (s.isWaiting = true ↔ timesOf (departs s.id) (ms ++ [m]) r' = [])) := by
    intro s' hmem'
    have hs' := hstaffed.numbered.scenario?_of_mem hmem'
    cases Fate.of_move hn move s'.id with
    | same hsame =>
        rw [hsame] at hs'
        exact h.stays hs' (hsame.trans hs') rfl rfl fun hlive => ⟨hlive, rfl⟩
    | gone hgone =>
        rw [hgone] at hs'
        cases hs'
    | alters s x groups hid hs hlive halters hx =>
        obtain rfl : s' = x := Option.some.inj (hs'.symm.trans hx)
        rw [hid] at hs
        cases halters with
        | receive _ => exact h.stays hs hs' rfl rfl fun _ => ⟨hlive, rfl⟩
        | change _ => exact h.stays hs hs' rfl rfl fun _ => ⟨hlive, rfl⟩
        | save _ => exact h.stays hs hs' rfl rfl fun _ => ⟨hlive, rfl⟩
        | enter hacting hf hstate ht =>
            rw [← hid] at hs' ⊢
            obtain ⟨hstart, hwaits⟩ := h.enters hacting.1 hlive hf hs'
            exact ⟨hstart, fun _ => hwaits⟩
        | cancel =>
            refine h.stays hs hs' ?_ ?_ fun hlive' => ?_
            · rw [advance_eq]
            · rw [advance_eq]
            · rw [Scenario.isLive, status_cancelled hlive] at hlive'
              cases hlive'
    | admits f sequence parent subtree hid hx =>
        obtain rfl := Option.some.inj (hs'.symm.trans hx)
        have hnone := hn.scenario?_eq_none (Nat.lt_succ_self m.run.created)
        have hempty : timesOf (departs (m.run.created + 1)) (ms ++ [m]) r' = [] := by
          rw [timesOf_concat_of_not (departs_of_none hnone)]
          exact h.unborn _ (Nat.lt_succ_self _)
        rw [hid, hempty]
        exact ⟨rfl, fun _ => by simp [added, Scenario.isWaiting]⟩
  refine ⟨hstaffed, fun s hs => (hscenario s hs).1, fun s hs => (hscenario s hs).2, ?_⟩
  intro id hlt
  have hold := Nat.lt_of_le_of_lt move.follows.created_le hlt
  rw [timesOf_concat_of_not (departs_of_none (hn.scenario?_eq_none hold))]
  exact h.unborn id hold

end Steps

theorem synthesize_span {r : Run} {scope : ActionScope} {e : Event} {name : SyntheticName}
    {fields : Dict ValueSource} {synthetic : SyntheticEvent}
    (h : r.synthesize scope e name fields = .ok synthetic) :
    synthetic.start = (scope.startTime.map Timestamp.ofNanos).getD e.timestamp ∧
      synthetic.stop = e.stop.getD e.timestamp := by
  simp only [synthesize, bind, Except.bind, pure, Except.pure] at h
  split at h
  · cases h
  · split at h
    · cases h
    · rw [← Except.ok.inj h]
      exact ⟨rfl, rfl⟩

/-- A synthetic event reaches from the first departure of its scenario, or from the current event where
there is none, to the end of the current event. -/
structure SpansFrom (departures : List Int64) (e : Event) (synthetic : SyntheticEvent) : Prop where
  start : synthetic.start.nanos = departures.head?.getD e.nanos
  stop : synthetic.stop = e.stop.getD e.timestamp
  ordered : synthetic.start.nanos ≤ synthetic.stop.nanos

theorem SpansFrom.of_synthesize {r : Run} {s : Scenario} {departures : List Int64} {e : Event}
    {name : SyntheticName} {fields : Dict ValueSource} {synthetic : SyntheticEvent}
    (h : r.synthesize s.scope e name fields = .ok synthetic)
    (hstart : s.startTime = departures.head?) (hearlier : ∀ t ∈ departures, t ≤ e.nanos)
    (hstop : ∀ stop, e.stop = some stop → e.nanos ≤ stop.nanos) :
    SpansFrom departures e synthetic := by
  obtain ⟨hbegin, hend⟩ := synthesize_span h
  have hnanos : synthetic.start.nanos = departures.head?.getD e.nanos := by
    rw [hbegin, Scenario.scope, hstart]
    cases departures.head? with
    | none => rfl
    | some t => exact Timestamp.nanos_ofNanos t
  have hbefore : synthetic.start.nanos ≤ e.nanos := by
    rw [hnanos]
    cases hhead : departures.head? with
    | none => exact Int64.le_refl _
    | some t => exact hearlier t (List.mem_of_head? hhead)
  have hafter : e.nanos ≤ synthetic.stop.nanos := by
    rw [hend]
    cases hs : e.stop with
    | none => exact Int64.le_refl _
    | some stop => exact hstop stop hs
  exact ⟨hnanos, hend, Int64.le_trans hbefore hafter⟩

/-- All synthetic events of a run span from the departures of the scenarios that emitted them. -/
structure EmitsSpans (r : Run) (calls : List Call) : Prop where
  emitted : (r.performAll calls).emitted.toList = (r.moments calls).filterMap (·.act.emitted?)
  span : ∀ past m rest, r.moments calls = past ++ m :: rest →
    ∀ synthetic, m.act.emitted? = some synthetic →
      ∃ e s, m.event = some e ∧ m.run.Acting s ∧ m.act = .emit s.scope synthetic ∧
        SpansFrom (timesOf (departs s.id) past m.run) e synthetic
  ordered : ∀ synthetic ∈ (r.performAll calls).emitted,
    synthetic.start.nanos ≤ synthetic.stop.nanos

/-- In every run of an accepted document, on whatever store, if the events come in the order of their
times and none ends before it begins, each synthetic event begins when its scenario first left the
initial state, or with the current event if that has not happened before, and ends with the current
event, so it does not end before it begins. -/
theorem emits_spans {d : DefinitionDocument} {defs : DefinitionSet} (h : d.compile = .ok defs)
    {settings : RunSettings} {store : Store} {r : Run}
    (hstart : Run.start defs store settings = .ok r) {calls : List Call}
    (hmono : (calls.filterMap Call.event?).Pairwise fun e e' => e.nanos ≤ e'.nanos)
    (hstop : ∀ e ∈ calls.filterMap Call.event?, ∀ stop, e.stop = some stop →
      e.nanos ≤ stop.nanos) : r.EmitsSpans calls := by
  have hstaffed := start_staffed h hstart
  have hn := hstaffed.numbered
  obtain ⟨st, root, -, hr⟩ := start_eq_ok_iff.mp hstart
  have htrace := performAll_trace hn calls
  have hordered := moments_ordered hn hmono
  have hemitted : (r.performAll calls).emitted.toList =
      (r.moments calls).filterMap (·.act.emitted?) := by
    rw [htrace.emitted_eq, hr]
    rfl
  have hspan : ∀ past m rest, r.moments calls = past ++ m :: rest →
      ∀ synthetic, m.act.emitted? = some synthetic →
        ∃ e s, m.event = some e ∧ m.run.Acting s ∧ m.act = .emit s.scope synthetic ∧
          SpansFrom (timesOf (departs s.id) past m.run) e synthetic := by
    intro past m rest hsplit synthetic hact
    rw [hsplit] at htrace hordered
    obtain ⟨mid, hbefore, hlast⟩ := htrace.of_append
    obtain ⟨rfl, r', move, -⟩ := hlast.of_cons
    have hdeparted : Departed past m.run := by
      refine hbefore.invariant_past (I := Departed) (fun _ _ _ _ _ move h => h.move move)
        ⟨hstaffed, ?_, ?_, fun _ _ => rfl⟩
      · intro s hs
        rw [hr] at hs
        cases hs
      · intro s hs
        rw [hr] at hs
        cases hs
    cases move with
    | @emit q e s name fields synthetic' hacting hsynthesize =>
        obtain rfl : synthetic' = synthetic := Option.some.inj hact
        refine ⟨e, s, rfl, hacting, rfl, .of_synthesize hsynthesize
          (hdeparted.startTime s (mem_of_scenario? hacting.1)) ?_ ?_⟩
        · intro t ht
          obtain ⟨m', hm', e', he', rfl⟩ := exists_of_mem_timesOf ht
          exact (List.pairwise_append.mp hordered).2.2 m' hm' _ List.mem_cons_self e' e he' rfl
        · have hmem : ⟨q, some e, .emit s.scope synthetic'⟩ ∈ r.moments calls := by
            rw [hsplit]
            exact List.mem_append_right _ List.mem_cons_self
          exact hstop e (event_of_moment hn hmem rfl)
    | _ => cases hact
  refine ⟨hemitted, hspan, fun synthetic hmem => ?_⟩
  rw [← Array.mem_toList_iff, hemitted] at hmem
  obtain ⟨m, hm, hact⟩ := List.mem_filterMap.mp hmem
  obtain ⟨past, rest, hsplit⟩ := List.append_of_mem hm
  obtain ⟨e, s, -, -, -, hspans⟩ := hspan past m rest hsplit synthetic hact
  exact hspans.ordered

theorem emits_spans_sample :
    ∃ defs r, DefinitionDocument.sample.compile = .ok defs ∧
      Run.start defs (Store.empty 0) {} = .ok r ∧
      (sampleCalls.filterMap Call.event?).Pairwise (fun e e' => e.nanos ≤ e'.nanos) ∧
      (∀ e ∈ sampleCalls.filterMap Call.event?, ∀ stop, e.stop = some stop →
        e.nanos ≤ stop.nanos) ∧
      (r.performAll sampleCalls).emitted.size = 2 ∧ r.EmitsSpans sampleCalls := by
  obtain ⟨defs, r, hcompile, hstart, hcheck⟩ := DefinitionDocument.sample.exists_of_checks {} 0
    (fun _ r => decide ((r.performAll sampleCalls).emitted.size = 2)) (by decide +kernel)
  have hmono : (sampleCalls.filterMap Call.event?).Pairwise fun e e' => e.nanos ≤ e'.nanos := by
    decide
  have hstop : ∀ e ∈ sampleCalls.filterMap Call.event?, ∀ stop, e.stop = some stop →
      e.nanos ≤ stop.nanos := by
    have hnone : ∀ e ∈ sampleCalls.filterMap Call.event?, e.stop = none := by decide
    intro e he stop hs
    rw [hnone e he] at hs
    cases hs
  exact ⟨defs, r, hcompile, hstart, hmono, hstop, of_decide_eq_true hcheck,
    emits_spans hcompile hstart hmono hstop⟩

end Run

end TraceAutomata
