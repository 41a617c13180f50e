import TraceAutomata.Proofs.Run.Delivery
import TraceAutomata.Proofs.Store.Within
import TraceAutomata.Proofs.Time.Exact

/-!
Ranges of time while an event is handled. The store hears of the event before any condition is looked
at, and what it has heard of it does not forget. So the end of the observed time never cuts an event
off a range, in whatever order the events arrive; only the start of the store does.
-/

namespace TraceAutomata

namespace Store

/-- The store has the same start as before, and has heard of all that it had heard of. -/
structure Lasts (st st' : Store) : Prop where
  startTime : st'.startTime = st.startTime
  endTime_le : st.endTime ≤ st'.endTime

namespace Lasts

variable {st st' st'' : Store}

theorem refl (st : Store) : st.Lasts st :=
  ⟨rfl, Int64.le_refl _⟩

theorem trans (h : st.Lasts st') (h' : st'.Lasts st'') : st.Lasts st'' :=
  ⟨h'.startTime.trans h.startTime, Int64.le_trans h.endTime_le h'.endTime_le⟩

theorem extendTo (st : Store) (time : Int64) : st.Lasts (st.extendTo time) :=
  ⟨startTime_extendTo st time, endTime_le_extendTo st time⟩

theorem addChild (st : Store) (q : Quark) (name : String) : st.Lasts (st.addChild q name) :=
  ⟨rfl, Int64.le_refl _⟩

theorem setHistory (st : Store) (q : Quark) (log : List Interval) :
    st.Lasts (st.setHistory q log) :=
  ⟨rfl, Int64.le_refl _⟩

theorem of_ensure {q c : Quark} {path : List String} (h : st.ensure q path = .ok (st', c)) :
    st.Lasts st' := by
  induction path generalizing st q with
  | nil =>
      obtain ⟨rfl, rfl⟩ := Prod.mk.inj (Except.ok.inj h)
      exact refl st
  | cons name rest ih =>
      rw [ensure] at h
      cases hnode : st.node q with
      | error e =>
          rw [hnode] at h
          cases h
      | ok n =>
          rw [hnode] at h
          simp only [bind, Except.bind] at h
          split at h
          · exact ih h
          · exact (addChild st q name).trans (ih h)

theorem of_write {q : Quark} {time : Int64} {value : Value} (h : st.write q time value = .ok st') :
    st.Lasts st' := by
  obtain ⟨log, rfl⟩ := write_eq_ok h
  exact (setHistory st q log).trans (extendTo _ time)

end Lasts

end Store

open Store

namespace StoreM

variable {α β : Type}

def Lasting (m : StoreM α) : Prop :=
  ∀ st, match m st with
    | .ok _ st' => st.Lasts st'
    | .error _ st' => st.Lasts st'

theorem Lasting.bind {m : StoreM α} {f : α → StoreM β} (h : Lasting m) (h' : ∀ a, Lasting (f a)) :
    Lasting (m >>= f) := by
  intro st
  have hfirst := h st
  simp only [Bind.bind, EStateM.bind]
  cases hm : m st with
  | error e st' =>
      rw [hm] at hfirst
      exact hfirst
  | ok a st' =>
      rw [hm] at hfirst
      have hrest := h' a st'
      simp only
      cases hf : f a st' with
      | error e st'' =>
          rw [hf] at hrest
          exact hfirst.trans hrest
      | ok b st'' =>
          rw [hf] at hrest
          exact hfirst.trans hrest

theorem Lasting.after {m : StoreM Unit} (h : Lasting m) (st : Store) : st.Lasts (m.after st) := by
  have hm := h st
  rw [StoreM.after]
  cases hres : m st with
  | ok result st' =>
      rw [hres] at hm
      exact hm
  | error e st' =>
      rw [hres] at hm
      exact hm

theorem ensure_lasting (q : Quark) (path : List String) : Lasting (StoreM.ensure q path) := by
  intro st
  rw [StoreM.ensure]
  cases h : st.ensure q path with
  | ok result => exact .of_ensure h
  | error e => exact .refl st

theorem write_lasting (q : Quark) (time : Int64) (value : Value) :
    Lasting (StoreM.write q time value) := by
  intro st
  rw [StoreM.write]
  cases h : st.write q time value with
  | ok st' => exact .of_write h
  | error e => exact .refl st

end StoreM

namespace History

theorem writeAll_lasting (subtree : Quark) (writes : List Write) :
    StoreM.Lasting (writeAll subtree writes) := by
  rw [writeAll]
  induction writes with
  | nil => exact .refl
  | cons w rest ih =>
      rw [List.forM_eq_forM, List.forM_cons]
      have hwrite := (StoreM.ensure_lasting subtree w.path).bind fun q =>
        StoreM.write_lasting q w.time w.value
      exact hwrite.bind fun _ => ih

theorem recordAll_lasts (subtree : Quark) (groups : List (List Write)) (st : Store) :
    st.Lasts (recordAll subtree groups st) := by
  induction groups generalizing st with
  | nil => exact .refl st
  | cons writes rest ih => exact ((writeAll_lasting subtree writes).after st).trans (ih _)

theorem openScenario_lasting (root : Quark) (name : String) :
    StoreM.Lasting (openScenario root name) :=
  StoreM.ensure_lasting root _

end History

namespace Run

theorem lasts_of_move {m : Moment} {r' : Run} (hn : m.run.Numbered) (move : Move m r') :
    m.run.store.Lasts r'.store := by
  cases Effect.of_move hn move with
  | quiet _ _ _ _ store =>
      rcases store with heq | ⟨-, time, heq⟩
      · exact heq ▸ .refl _
      · exact heq ▸ .extendTo _ time
  | alters s s' groups _ _ _ _ _ _ store => exact store ▸ History.recordAll_lasts _ groups _
  | admits index f c parent trigger subtree st _ _ _ _ hopen heq =>
      have hopened := History.openScenario_lasting m.run.root
        (Scenario.nameOf f.id (c.created + 1)) m.run.store
      rw [hopen] at hopened
      rw [heq, admitted_eq, History.setIdentity_eq]
      exact hopened.trans ((History.writeAll_lasting subtree _).after st)
  | aborts index name error st _ hopen heq =>
      have hopened := History.openScenario_lasting m.run.root name m.run.store
      rw [hopen] at hopened
      exact heq ▸ hopened

theorem lasts_of_trace {r r' : Run} {ms : List Moment} (hn : r.Numbered) (h : Trace r ms r') :
    r.store.Lasts r'.store ∧ ∀ m ∈ ms, r.store.Lasts m.run.store := by
  have hall := h.invariant (I := fun q => q.Numbered ∧ r.store.Lasts q.store)
    (fun m _ next move hm => ⟨move.follows.numbered hm.1, hm.2.trans (lasts_of_move hm.1 move)⟩)
    ⟨hn, .refl _⟩
  exact ⟨hall.1.2, fun m hm => (hall.2 m hm).2⟩

/-- What the transitions of a scenario are evaluated against once it has noted the event. -/
def guardContext? : Moment → Option GuardContext
  | ⟨r, some event, .receive f s⟩ => some ((r.receive f s event).context s.name event)
  | _ => none

/-- What conditions are evaluated against while an event is handled: those of the preconditions of the
pattern, before the event is dispatched; those of the preconditions of an fsm, at the turn of each of
its scenarios; and those of the transitions, whenever a scenario has noted the event. -/
inductive Evaluates (r : Run) (event : Event) : GuardContext → Prop
  | pattern (h : r.disposed = false) : Evaluates r event ((r.readied event).context "" event)
  | turn {front back : List Nat} {index : Nat} {f : FsmDefinition} {c : FsmSchedule}
      {before after : List ScenarioId} {s : Scenario} {lined q : Run} (h : r.disposed = false)
      (dispatches : (r.readied event).dispatches event = true)
      (indices : List.range (r.arrived event).opened.fsms.length = front ++ index :: back)
      (visited : (front.foldl (visit event) (r.readied event)).lined index = lined)
      (hf : lined.defs.fsms[index]? = some f) (hc : lined.fsms[index]? = some c)
      (active : c.active = before ++ s.id :: after)
      (offered : before.foldl (offer f event) lined = q) (hs : q.scenario? s.id = some s)
      (hlive : s.isLive = true) (hnew : s.lastEvent ≠ some q.received) :
      Evaluates r event (q.context s.name event)
  | guard {q : Run} {f : FsmDefinition} {s : Scenario}
      (h : ⟨q, some event, .receive f s⟩ ∈ r.onEventMoments event) :
      Evaluates r event ((q.receive f s event).context s.name event)

section Evaluations

variable {r : Run} {event : Event}

theorem arrived_path (hn : r.Numbered) (event : Event) :
    (r.arrived event).Numbered ∧
      ∃ ms, Path (some event) (r.arrived event) ms (r.readied event) := by
  have harrived : (r.arrived event).Numbered := ⟨hn.1, hn.2⟩
  have hopened := opened_path harrived event
  have hdue := Path.fold (List.range (r.arrived event).opened.fsms.length)
    (fun r' index _ hr' _ => startDue_path hr' event index) (hopened.follows.numbered harrived)
  exact ⟨harrived, _, hopened.append hdue⟩

theorem lined_path (r : Run) (event : Event) (index : Nat) :
    Path (some event) r
      [⟨r, some event, .merge index⟩,
        ⟨r.modifyFsm index FsmSchedule.mergePending, some event, .retire index⟩]
      (r.lined index) :=
  .cons .merge (.single .retire)

theorem exists_path_of_mem (hn : r.Numbered) {m : Moment} (hm : m ∈ r.onEventMoments event)
    (hact : m.act ≠ .arrive) :
    ∃ ms, m ∈ ms ∧ Path (some event) (r.arrived event) ms (r.onEvent event) := by
  have hpath := onEvent_path hn event
  cases hdisposed : r.disposed with
  | true =>
      rw [onEventMoments, if_pos hdisposed] at hm
      cases hm
  | false =>
      rw [onEventMoments, if_neg (by simp [hdisposed])] at hm hpath
      cases hpath with
      | cons move rest =>
          cases move with
          | arrive _ =>
              rcases List.mem_cons.mp hm with rfl | hm
              · exact (hact rfl).elim
              · exact ⟨_, hm, rest⟩

/-- What comes of an event is decided in these contexts: whether it is dispatched, whether a scenario
is handed it at its turn, and whether and where a scenario goes that has noted it. -/
theorem evaluates_decides (hn : r.Numbered) (h : r.disposed = false) :
    (∃ ctx, r.Evaluates event ctx ∧
      r.onEvent event =
        if r.defs.preconditionsPass ctx r.defs.preconditions then
          (List.range (r.arrived event).opened.fsms.length).foldl (visit event) (r.readied event)
        else r.readied event) ∧
      (∀ front back index, (r.readied event).dispatches event = true →
        List.range (r.arrived event).opened.fsms.length = front ++ index :: back →
        let lined := (front.foldl (visit event) (r.readied event)).lined index
        ∀ f c before after id, lined.defs.fsms[index]? = some f → lined.fsms[index]? = some c →
          c.active = before ++ id :: after →
          let q := before.foldl (offer f event) lined
          offer f event q id = q ∨
            ∃ ctx, r.Evaluates event ctx ∧ offer f event q id =
              if q.defs.preconditionsPass ctx f.preconditions then
                handle (spawnOn event) event id q
              else q) ∧
      ∀ q f s, ⟨q, some event, .receive f s⟩ ∈ r.onEventMoments event →
        ∃ ctx index, r.Evaluates event ctx ∧ ∀ state, f.state? s.state = some state → ∀ spawn,
          q.step spawn event s.id =
            if (q.defs.resolve state ctx).matched then
              (runActions spawn s.id event (q.defs.resolve state ctx).actions
                (q.receive f s event)).enter index f s.id s.state
                  (q.defs.resolve state ctx).next event.nanos
            else (q.receive f s event, .settled) := by
  refine ⟨⟨_, .pattern h, ?_⟩, ?_, ?_⟩
  · have hdefs : (r.readied event).defs = r.defs := by
      obtain ⟨-, ms, hready⟩ := arrived_path hn event
      exact hready.follows.defs
    rw [← hdefs]
    split
    · next hpass => exact (onEvent_of_dispatches h hpass).2
    · next hfails => exact (onEvent_of_not_dispatches h (Bool.eq_false_of_not_eq_true hfails)).2
  · intro front back index hdispatches hindices lined f c before after id hf hc hactive q
    cases hs : q.scenario? id with
    | none =>
        left
        rw [offer, hs]
    | some s =>
        have hid : s.id = id := id_of_scenario? hs
        rw [offer, hs]
        by_cases hready : (s.isLive && s.lastEvent != some q.received) = true
        · right
          obtain ⟨hlive, hnew⟩ := Bool.and_eq_true_iff.mp hready
          refine ⟨_, .turn h hdispatches hindices rfl hf hc (hid ▸ hactive) rfl (hid ▸ hs) hlive
            (bne_iff_ne.mp hnew), ?_⟩
          simp only [hready, Bool.true_and]
          rfl
        · left
          simp only [Bool.not_eq_true] at hready
          simp only [hready, Bool.false_and, Bool.false_eq_true, if_false]
  · intro q f s hm
    obtain ⟨next, move⟩ := (onEvent_path hn event).trace.exists_move _ hm
    cases move with
    | @receive _ _ _ _ index hs hlive hf =>
        refine ⟨_, index, .guard hm, fun state hstate spawn => ?_⟩
        rw [step, hs, Option.filter_some, if_pos hlive]
        simp only [hf.1, hf.2, hstate, (keeps_receive q f s event).defs]

theorem evaluates_of_guardContext? (hn : r.Numbered) {ctx : GuardContext}
    (h : (r.onEventMoments event).findSome? guardContext? = some ctx) : r.Evaluates event ctx := by
  obtain ⟨⟨q, event', act⟩, hm, hctx⟩ := List.exists_of_findSome?_eq_some h
  obtain rfl : event' = some event := (onEvent_path hn event).event_eq _ hm
  cases act with
  | receive f s =>
      obtain rfl := Option.some.inj hctx
      exact .guard hm
  | _ => cases hctx

theorem evaluates_of_first {fsms : List Nat} {f : FsmDefinition} {c : FsmSchedule} {s : Scenario}
    {rest : List ScenarioId} (h : r.disposed = false)
    (dispatches : (r.readied event).dispatches event = true)
    (indices : List.range (r.arrived event).opened.fsms.length = 0 :: fsms)
    (hf : ((r.readied event).lined 0).defs.fsms[0]? = some f)
    (hc : ((r.readied event).lined 0).fsms[0]? = some c) (active : c.active = s.id :: rest)
    (hs : ((r.readied event).lined 0).scenario? s.id = some s) (hlive : s.isLive = true)
    (hnew : s.lastEvent ≠ some ((r.readied event).lined 0).received) :
    r.Evaluates event (((r.readied event).lined 0).context s.name event) :=
  @Evaluates.turn r event [] fsms 0 f c [] rest s _ _ h dispatches indices rfl hf hc active rfl hs
    hlive hnew

theorem receive_lasts (q : Run) (f : FsmDefinition) (s : Scenario) (event : Event) :
    q.store.Lasts (q.receive f s event).store := by
  rw [receive_eq, receiveChanges_eq, recordAll_map]
  exact History.recordAll_lasts _ _ _

/-- Wherever conditions are looked at, the store has heard of the event. -/
theorem Evaluates.lasts (hn : r.Numbered) {ctx : GuardContext} (h : r.Evaluates event ctx) :
    ctx.event = event ∧ (r.arrived event).store.Lasts ctx.store := by
  cases h with
  | pattern _ =>
      obtain ⟨harrived, ms, hready⟩ := arrived_path hn event
      exact ⟨rfl, (lasts_of_trace harrived hready.trace).1⟩
  | @turn front back index f c before after s lined q _ _ _ visited _ _ _ offered _ _ _ =>
      obtain ⟨harrived, ms, hready⟩ := arrived_path hn event
      have hvisits := Path.fold front (fun r' index _ hr' _ => visit_path hr' event index)
        (hready.follows.numbered harrived)
      have hlined := hready.append (hvisits.append (lined_path _ event index))
      rw [visited] at hlined
      have hoffers := Path.fold before (fun r' id _ hr' _ => offer_path hr' event f id)
        (hlined.follows.numbered harrived)
      rw [offered] at hoffers
      exact ⟨rfl, (lasts_of_trace harrived (hlined.append hoffers).trace).1⟩
  | @guard q f s hm =>
      obtain ⟨ms, hm', hpath⟩ := exists_path_of_mem hn hm nofun
      have harrived : (r.arrived event).Numbered := ⟨hn.1, hn.2⟩
      exact ⟨rfl, ((lasts_of_trace harrived hpath.trace).2 _ hm').trans (receive_lasts q f s event)⟩

end Evaluations

end Run

namespace TimeRange

theorem toInt_max (a b : Int64) : (max a b).toInt = max a.toInt b.toInt := by
  change (if a ≤ b then b else a).toInt = _
  split
  · next hle => exact (max_eq_right (Int64.le_iff_toInt_le.mp hle)).symm
  · next hlt =>
    exact (max_eq_left (Int64.le_iff_toInt_le.mp (Int64.le_of_lt (Int64.not_le.mp hlt)))).symm

theorem toInt_min (a b : Int64) : (min a b).toInt = min a.toInt b.toInt := by
  change (if a ≤ b then a else b).toInt = _
  split
  · next hle => exact (min_eq_left (Int64.le_iff_toInt_le.mp hle)).symm
  · next hlt =>
    exact (min_eq_right (Int64.le_iff_toInt_le.mp (Int64.le_of_lt (Int64.not_le.mp hlt)))).symm

def bound (u : TimeUnit) (amount : Int64) : ℤ :=
  Number.clamp64 (amount.toInt * u.nanosPerUnit)

/-- Whether a time lies in a range from the start of a store on, whatever the order of the bounds. -/
def Covers (r : TimeRange) (first time : Int64) : Prop :=
  max first.toInt (min (bound r.unit r.start) (bound r.unit r.stop)) ≤ time.toInt ∧
    time.toInt ≤ max (bound r.unit r.start) (bound r.unit r.stop)

instance (r : TimeRange) (first time : Int64) : Decidable (r.Covers first time) :=
  inferInstanceAs (Decidable (_ ∧ _))

theorem toInt_toNanos (u : TimeUnit) (amount : Int64) : (u.toNanos amount).toInt = bound u amount :=
  Number.toInt_ofIntClamp _

/-- The latest observed time cuts off no time that has been observed. -/
theorem holds_eq (r : TimeRange) {first last time : Int64} (hseen : time ≤ last) :
    r.holds first last time =
      match r.mode with
      | .inside => decide (r.Covers first time)
      | .outside => !decide (r.Covers first time) := by
  have hseen := Int64.le_iff_toInt_le.mp hseen
  have hinside : (decide ((r.window first last).1 ≤ time) &&
      decide (time ≤ (r.window first last).2)) = decide (r.Covers first time) := by
    rw [Bool.eq_iff_iff, Bool.and_eq_true, decide_eq_true_iff, decide_eq_true_iff,
      decide_eq_true_iff, Int64.le_iff_toInt_le, Int64.le_iff_toInt_le, Covers]
    simp only [window, toInt_max, toInt_min, toInt_toNanos]
    omega
  rw [← hinside]
  rfl

theorem covers_swap (r : TimeRange) (first time : Int64) :
    ({ r with start := r.stop, stop := r.start } : TimeRange).Covers first time ↔
      r.Covers first time := by
  simp only [Covers, min_comm (bound r.unit r.stop), max_comm (bound r.unit r.stop)]

end TimeRange

namespace Run

/-- Whatever was called before and in whatever order events arrive, where conditions are looked at
while an event is handled, a range of time holds if the event lies between its bounds and not before
the start of the store; one of the other mode holds if it does not, and the order of the bounds does
not matter. -/
theorem ranges_decide {defs : DefinitionSet} {store : Store} {settings : RunSettings} {r : Run}
    (hstart : Run.start defs store settings = .ok r) (calls : List Call) {event : Event}
    {ctx : GuardContext} (h : (r.performAll calls).Evaluates event ctx) (range : TimeRange) :
    let b := Number.clamp64 (range.start.toInt * range.unit.nanosPerUnit)
    let e := Number.clamp64 (range.stop.toInt * range.unit.nanosPerUnit)
    let inside := decide (max store.startTime.toInt (min b e) ≤ event.nanos.toInt ∧
      event.nanos.toInt ≤ max b e)
    (Condition.timeRange { range with mode := .inside }).evaluate ctx = .ok inside ∧
      (Condition.timeRange { range with mode := .outside }).evaluate ctx = .ok !inside ∧
      (Condition.timeRange { range with start := range.stop, stop := range.start }).evaluate ctx =
        (Condition.timeRange range).evaluate ctx := by
  intro b e inside
  obtain ⟨st, root, hensure, rfl⟩ := start_eq_ok_iff.mp hstart
  set r : Run := { defs, settings, store := st, root, fsms := defs.fsms.map fun f => { id := f.id } }
  have hn : r.Numbered := ⟨.nil, List.forall_mem_nil _⟩
  have htrace := performAll_trace hn calls
  obtain ⟨hevent, hlasts⟩ := h.lasts (htrace.follows.numbered hn)
  have hlast := (Store.Lasts.of_ensure hensure).trans (lasts_of_trace hn htrace).1
  have hfirst : ctx.store.startTime = store.startTime :=
    hlasts.startTime.trans ((startTime_extendTo _ _).trans hlast.startTime)
  have hseen : event.nanos ≤ ctx.store.endTime :=
    Int64.le_trans (le_endTime_extendTo _ _) hlasts.endTime_le
  have hholds : ∀ range : TimeRange, (Condition.timeRange range).evaluate ctx =
      .ok (match range.mode with
        | .inside => decide (range.Covers store.startTime event.nanos)
        | .outside => !decide (range.Covers store.startTime event.nanos)) := by
    intro range
    rw [Condition.evaluate, TimeRange.evaluate, hevent, hfirst, range.holds_eq hseen]
  refine ⟨hholds _, hholds _, ?_⟩
  rw [hholds, hholds]
  simp only [range.covers_swap]

/-- A run that has heard of time 20 receives an event of time 5, or one of time 30. The preconditions
of the pattern are looked at for the first, those of an fsm and a transition for the second. -/
theorem ranges_decide_sample :
    let calls : List Call := [.event ⟨.ofNanos 20, "begin", ∅, none⟩]
    let early : Event := ⟨.ofNanos 5, "turn", ∅, none⟩
    let late : Event := ⟨.ofNanos 30, "turn", ∅, none⟩
    ∃ defs r dispatch turn guard, DefinitionDocument.nested.compile = .ok defs ∧
      Run.start defs (Store.empty 2) { spawnLimit := 2 } = .ok r ∧
      (r.performAll calls).Evaluates early dispatch ∧
      (r.performAll calls).Evaluates late turn ∧ turn.scenario = "job#1" ∧
      (r.performAll calls).Evaluates late guard ∧ guard.scenario = "job#1" ∧
      (Condition.timeRange ⟨10, 3, .nano, .inside⟩).evaluate dispatch = .ok true ∧
      (Condition.timeRange ⟨10, 3, .nano, .outside⟩).evaluate dispatch = .ok false ∧
      (Condition.timeRange ⟨25, 90, .nano, .inside⟩).evaluate turn = .ok true ∧
      (Condition.timeRange ⟨6, 29, .nano, .inside⟩).evaluate guard = .ok false := by
  intro calls early late
  obtain ⟨defs, r, hcompile, hstart, hcheck⟩ :=
    DefinitionDocument.nested.exists_of_checks { spawnLimit := 2 } 2
      (fun _ r =>
        let r := r.performAll calls
        let q := (r.readied late).lined 0
        decide (r.disposed = false ∧ (r.readied late).dispatches late = true ∧
            List.range (r.arrived late).opened.fsms.length = [0, 1] ∧
            q.defs.fsms[0]?.isSome = true ∧ q.fsms[0]?.map FsmSchedule.active = some [1] ∧
            (q.scenario? 1).any (fun s => s.name == "job#1" && s.isLive &&
              s.lastEvent != some q.received) = true) &&
          ((r.onEventMoments late).findSome? guardContext?).any fun ctx =>
            ctx.scenario == "job#1")
      (by decide +kernel)
  obtain ⟨hturn, hguard⟩ := Bool.and_eq_true_iff.mp hcheck
  obtain ⟨hlive, hdispatch, hindices, hfsm, hactive, hready⟩ := of_decide_eq_true hturn
  obtain ⟨f, hf⟩ := Option.isSome_iff_exists.mp hfsm
  obtain ⟨c, hc, hactive⟩ := Option.map_eq_some_iff.mp hactive
  obtain ⟨s, hs, hready⟩ := (Option.any_eq_true _ _).mp hready
  simp only [Bool.and_eq_true, beq_iff_eq, bne_iff_ne] at hready
  obtain ⟨⟨hname, hslive⟩, hnew⟩ := hready
  have hid : s.id = 1 := id_of_scenario? hs
  have hfirst : (r.performAll calls).Evaluates early
      (((r.performAll calls).readied early).context "" early) := .pattern hlive
  have hsecond := evaluates_of_first hlive hdispatch hindices hf hc (hid ▸ hactive) (hid ▸ hs) hslive
    hnew
  obtain ⟨guard, hguard, hscenario⟩ := (Option.any_eq_true _ _).mp hguard
  obtain ⟨r', hstart', hfresh⟩ := exists_start defs { spawnLimit := 2 } 2
  have hn : r.Numbered := Except.ok.inj (hstart'.symm.trans hstart) ▸ hfresh.numbered
  have hthird := evaluates_of_guardContext? ((performAll_trace hn calls).follows.numbered hn) hguard
  obtain ⟨hinside, houtside, -⟩ := ranges_decide hstart calls hfirst ⟨10, 3, .nano, .inside⟩
  obtain ⟨hlate, -, -⟩ := ranges_decide hstart calls hsecond ⟨25, 90, .nano, .inside⟩
  obtain ⟨hpast, -, -⟩ := ranges_decide hstart calls hthird ⟨6, 29, .nano, .inside⟩
  refine ⟨defs, r, _, _, _, hcompile, hstart, hfirst, hsecond, hname, hthird,
    beq_iff_eq.mp hscenario, hinside.trans ?_, houtside.trans ?_, hlate.trans ?_, hpast.trans ?_⟩
  · decide
  · decide
  · decide
  · decide

end Run

end TraceAutomata
