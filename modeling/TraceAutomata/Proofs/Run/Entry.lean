import TraceAutomata.Proofs.Run.Chronicle
import TraceAutomata.Proofs.Run.Faithful
import TraceAutomata.Proofs.Run.Twin
import TraceAutomata.Proofs.Store.Stamped

namespace TraceAutomata

namespace Layout

/-- Whether names lead to the times at which states were entered. -/
def isEntry (names : List String) : Bool :=
  names.head? == some states

theorem not_statePath_isPrefix {names : List String} (h : isEntry names = false) (state : String) :
    ¬ statePath state <+: names := by
  rintro ⟨rest, rfl⟩
  simp [isEntry, statePath] at h

theorem not_statePath_isPrefix_singleton (state name : String) : ¬ statePath state <+: [name] := by
  simp [statePath]

theorem statePath_isPrefix_iff {state state' : String} :
    statePath state <+: statePath state' ↔ state = state' := by
  simp [statePath]

end Layout

namespace Store.Tree

theorem resolve_eq_error {st : Store} (t : st.Tree) {q : Quark} (hq : q < st.nodes.size)
    {path : List String} {error : StoreError} (h : st.resolve q path = .error error) :
    ∃ text, error = .attributeNotFound text := by
  induction path generalizing q with
  | nil => cases h
  | cons name path ih =>
      have hnode : st.nodes[q]? = some st.nodes[q] := Array.getElem?_eq_getElem hq
      rw [resolve, (node_eq_ok_iff st q _).mpr hnode] at h
      cases hchild : st.nodes[q].children.find? name with
      | none =>
          simp only [bind, Except.bind, hchild] at h
          exact ⟨_, (Except.error.inj h).symm⟩
      | some child =>
          simp only [bind, Except.bind, hchild] at h
          have hfound : st.child? q name = some child := by rw [child?, hnode]; exact hchild
          exact ih (t.child_lt hfound) h

end Store.Tree

namespace Run

def isIn (r : Run) (id : ScenarioId) (state : String) : Bool :=
  (r.scenario? id).any fun s => s.hasStarted && s.state == state

/-- Whether a scenario enters a state between two runs: the state in which it begins with the first
event that it handles, and any other one when it goes there. -/
def enters (id : ScenarioId) (state : String) (r r' : Run) : Bool :=
  r'.isIn id state && !r.isIn id state

section Enters

variable {r r' : Run} {id : ScenarioId} {state : String} {s s' : Scenario}

theorem enters_of_kept (h : r'.scenario? id = r.scenario? id ∨ r'.scenario? id = none) :
    enters id state r r' = false := by
  rw [enters, isIn, isIn]
  rcases h with h | h
  · rw [h, Bool.and_not_self]
  · rw [h]
    rfl

theorem enters_of_some (h : r.scenario? id = some s) (h' : r'.scenario? id = some s') :
    enters id state r r' =
      ((s'.hasStarted && s'.state == state) && !(s.hasStarted && s.state == state)) := by
  rw [enters, isIn, isIn, h, h']
  rfl

theorem enters_of_stays (h : r.scenario? id = some s) (h' : r'.scenario? id = some s')
    (hstate : s'.state = s.state) (hstarted : s'.hasStarted = s.hasStarted) :
    enters id state r r' = false := by
  rw [enters_of_some h h', hstate, hstarted, Bool.and_not_self]

end Enters

/-- What is recorded of the entries of a scenario into a state: the time of the last one, and not even
an attribute where there was none. -/
structure EntryRecorded (id : ScenarioId) (state : String) (ms : List Moment) (r : Run) (v : View) :
    Prop where
  stamped : Interval.Stamped (v.intervalsAt (Layout.statePath state))
    (timesOf (enters id state) ms r).getLast?
  missing : timesOf (enters id state) ms r = [] → v (Layout.statePath state) = none

section Steps

variable {m : Moment} {ms : List Moment} {r' : Run} {id : ScenarioId} {state : String} {v : View}
  {groups : List (List Write)}

theorem EntryRecorded.stays (h : EntryRecorded id state ms m.run v)
    (hstays : enters id state m.run r' = false)
    (hspares : ∀ writes ∈ groups, ∀ w ∈ writes, ¬ Layout.statePath state <+: w.path) :
    EntryRecorded id state (ms ++ [m]) r' (v.record groups) := by
  have hne : ∀ writes ∈ groups, ∀ w ∈ writes, w.path ≠ Layout.statePath state :=
    fun writes hwrites w hw heq => hspares writes hwrites w hw (heq ▸ List.prefix_refl _)
  constructor
  · rw [timesOf_concat_of_not hstays, View.intervalsAt_record_of_ne hne]
    exact h.stamped
  · rw [timesOf_concat_of_not hstays, View.record_of_not_isPrefix hspares]
    exact h.missing

theorem EntryRecorded.enters {e : Event} (h : EntryRecorded id state ms m.run v)
    (before after : List (List Write)) (henters : enters id state m.run r' = true)
    (he : m.event = some e) (hearlier : ∀ t ∈ timesOf (enters id state) ms m.run, t ≤ e.nanos)
    (hbefore : ∀ writes ∈ before, ∀ w ∈ writes, w.path ≠ Layout.statePath state)
    (hafter : ∀ writes ∈ after, ∀ w ∈ writes, w.path ≠ Layout.statePath state) :
    EntryRecorded id state (ms ++ [m]) r'
      (v.record (before ++ [⟨Layout.statePath state, e.nanos, .long e.nanos⟩] :: after)) := by
  have htimes : timesOf (Run.enters id state) (ms ++ [m]) r' =
      timesOf (Run.enters id state) ms m.run ++ [e.nanos] := timesOf_concat_of_event henters he
  constructor
  · rw [htimes, List.getLast?_concat]
    exact View.stamped_record before after h.stamped
      (fun t ht => hearlier t (List.mem_of_getLast? ht)) hbefore hafter
  · intro hnil
    rw [htimes] at hnil
    exact (List.append_ne_nil_of_right_ne_nil _ (List.cons_ne_nil _ _) hnil).elim

theorem not_statePath_of_stateWrites {time : Int64} {current : String} {status : ScenarioStatus}
    {w : Write} (hw : w ∈ stateWrites time current status) (state : String) :
    ¬ Layout.statePath state <+: w.path := by
  rcases List.mem_pair.mp hw with rfl | rfl
  · exact Layout.not_statePath_isPrefix_singleton state Layout.state
  · exact Layout.not_statePath_isPrefix_singleton state Layout.status

/-- A move is recorded at the state that it goes to, and only if that is another one. -/
theorem not_statePath_of_moveGroups {time : Int64} {left changed : Bool} {next : String}
    {status : ScenarioStatus} (hne : changed = true → state ≠ next) :
    ∀ writes ∈ moveGroups time left changed next status, ∀ w ∈ writes,
      ¬ Layout.statePath state <+: w.path := by
  intro writes hwrites w hw
  rcases path_of_moveGroups hwrites hw with ⟨-, h⟩ | ⟨hchanged, h⟩ | ⟨-, h⟩ | h | h
  · exact h ▸ Layout.not_statePath_isPrefix_singleton state _
  · rw [h, Layout.statePath_isPrefix_iff]
    exact hne hchanged
  · exact h ▸ Layout.not_statePath_isPrefix_singleton state _
  · exact h ▸ Layout.not_statePath_isPrefix_singleton state _
  · exact h ▸ Layout.not_statePath_isPrefix_singleton state _

theorem moveGroups_of_changed (time : Int64) (left : Bool) (next : String)
    (status : ScenarioStatus) :
    moveGroups time left true next status =
      (if left then [[⟨[Layout.startTime], time, .long time⟩]] else []) ++
        [⟨Layout.statePath next, time, .long time⟩] :: moveGroups time false false next status := by
  simp only [moveGroups, if_true, Bool.false_eq_true, if_false, List.append_assoc, List.cons_append,
    List.nil_append]

theorem EntryRecorded.received {r : Run} {e : Event} {f : FsmDefinition} {s : Scenario}
    {index : Nat} (h : EntryRecorded s.id state ms r v) (hground : r.Grounded)
    (hs : r.scenario? s.id = some s) (hlive : s.isLive = true) (hf : r.OfFsm s index f)
    (hs' : r'.scenario? s.id = some { s with lastEvent := some r.received })
    (hearlier : ∀ t ∈ timesOf (Run.enters s.id state) ms r, t ≤ e.nanos) :
    EntryRecorded s.id state (ms ++ [⟨r, some e, .receive f s⟩]) r'
      (v.record (receiveGroups f s e.nanos)) := by
  have henters : Run.enters s.id state r r' =
      (s.state == state && !(s.hasStarted && s.state == state)) := enters_of_some hs hs'
  rw [receiveGroups]
  cases hstarted : s.hasStarted with
  | true => exact h.stays (by simp [henters, hstarted]) (List.forall_mem_nil _)
  | false =>
      obtain ⟨-, hinitial⟩ := hground.initial (mem_of_scenario? hs) hlive hf hstarted
      rw [hstarted, Bool.false_and, Bool.not_false, Bool.and_true] at henters
      rw [hinitial, beq_self_eq_true, Bool.not_false, Bool.and_self, if_pos rfl, ← hinitial]
      have hstateWrites : ∀ w ∈ stateWrites e.nanos s.state .waitingStart,
          ¬ Layout.statePath state <+: w.path := fun w hw => not_statePath_of_stateWrites hw state
      by_cases hstate : s.state = state
      · subst hstate
        refine h.enters [_] [] (by rw [henters, beq_self_eq_true]) rfl hearlier ?_
          (List.forall_mem_nil _)
        intro writes hwrites w hw heq
        rw [List.mem_singleton.mp hwrites] at hw
        exact hstateWrites w hw (heq ▸ List.prefix_refl _)
      · refine h.stays (by rw [henters, beq_false_of_ne hstate]) fun writes hwrites w hw => ?_
        rcases List.mem_pair.mp hwrites with rfl | rfl
        · exact hstateWrites w hw
        · rw [List.mem_singleton.mp hw, Layout.statePath_isPrefix_iff]
          exact Ne.symm hstate

theorem EntryRecorded.moved {r : Run} {e : Event} {f : FsmDefinition} {s : Scenario} {index : Nat}
    {target : String} (h : EntryRecorded s.id state ms r v) (hacting : r.Acting s)
    (hs' : r'.scenario? s.id = some (Run.moved f s.state target e.nanos s))
    (hearlier : ∀ t ∈ timesOf (Run.enters s.id state) ms r, t ≤ e.nanos) (left : Bool)
    (status : ScenarioStatus) :
    EntryRecorded s.id state (ms ++ [⟨r, some e, .enter index f s target⟩]) r'
      (v.record (moveGroups e.nanos left (target != s.state) target status)) := by
  have hstarted : s.hasStarted = true := by rw [Scenario.hasStarted, hacting.2.2]; rfl
  have henters : Run.enters s.id state r r' = (target == state && !(s.state == state)) := by
    have hmoved : (Run.moved f s.state target e.nanos s).hasStarted = true ∧
        (Run.moved f s.state target e.nanos s).state = target := by
      rw [moved_eq]
      exact ⟨hstarted, rfl⟩
    rw [enters_of_some hacting.1 hs', hmoved.1, hmoved.2, hstarted, Bool.true_and, Bool.true_and]
  by_cases hentered : target ≠ s.state ∧ target = state
  · obtain ⟨hchanged, rfl⟩ := hentered
    rw [bne_iff_ne.mpr hchanged, moveGroups_of_changed]
    refine h.enters _ _ ?_ rfl hearlier ?_ ?_
    · rw [henters, beq_self_eq_true, beq_false_of_ne (Ne.symm hchanged)]
      rfl
    · intro writes hwrites w hw heq
      rw [List.mem_ite_nil_right, List.mem_singleton] at hwrites
      rw [hwrites.2, List.mem_singleton] at hw
      rw [hw] at heq
      simp [Layout.statePath] at heq
    · intro writes hwrites w hw heq
      have hnot : ¬ Layout.statePath target <+: w.path := by
        refine not_statePath_of_moveGroups ?_ writes hwrites w hw
        exact fun hfalse => (Bool.false_ne_true hfalse).elim
      exact hnot (heq ▸ List.prefix_refl _)
  · refine h.stays ?_ (not_statePath_of_moveGroups fun hchanged heq => ?_)
    · rw [henters]
      by_cases htarget : target = state
      · have hsame : s.state = state := by
          by_contra hne
          exact hentered ⟨fun heq => hne (heq ▸ htarget), htarget⟩
        rw [hsame, beq_self_eq_true, Bool.not_true, Bool.and_false]
      · rw [beq_false_of_ne htarget, Bool.false_and]
    · exact hentered ⟨bne_iff_ne.mp hchanged, heq.symm⟩

theorem EntryRecorded.alters {s s' : Scenario} (h : EntryRecorded s.id state ms m.run v)
    (hground : m.run.Grounded) (hspares : m.Spares Layout.isEntry)
    (hs : m.run.scenario? s.id = some s) (hs' : r'.scenario? s.id = some s')
    (hlive : s.isLive = true) (halters : Alters m s s' groups)
    (hearlier : ∀ t ∈ timesOf (Run.enters s.id state) ms m.run, ∀ e, m.event = some e →
      t ≤ e.nanos) :
    EntryRecorded s.id state (ms ++ [m]) r' (v.record groups) := by
  cases halters with
  | receive hf => exact h.received hground hs hlive hf hs' fun t ht => hearlier t ht _ rfl
  | change hacting =>
      refine h.stays (enters_of_stays hs hs' rfl rfl) fun writes hwrites w hw => ?_
      rw [List.mem_singleton.mp hwrites] at hw
      rw [List.mem_singleton.mp hw]
      exact Layout.not_statePath_isPrefix (hspares _ _ _ rfl) state
  | save hacting =>
      refine h.stays (enters_of_stays hs hs' rfl rfl) fun writes hwrites w hw => ?_
      rw [List.mem_singleton.mp hwrites] at hw
      rw [List.mem_singleton.mp hw]
      exact Layout.not_statePath_isPrefix rfl state
  | enter hacting _ _ _ => exact h.moved hacting hs' (fun t ht => hearlier t ht _ rfl) _ _
  | cancel =>
      refine h.stays (enters_of_stays hs hs' ?_ ?_) fun writes hwrites w hw => ?_
      · rw [advance_eq]
      · rw [advance_eq]
        rfl
      · rcases List.mem_pair.mp hwrites with rfl | rfl
        · rw [List.mem_singleton.mp hw]
          exact Layout.not_statePath_isPrefix_singleton state _
        · exact not_statePath_of_stateWrites hw state

theorem entryRecorded_added {f : FsmDefinition} {sequence : Nat} {parent : Option String}
    {subtree : Quark} (time : Int64) (hempty : timesOf (enters id state) ms m.run = [])
    (hadded : r'.scenario? id = some (m.run.added f sequence parent subtree)) :
    EntryRecorded id state (ms ++ [m]) r'
      (View.fresh.writeAll (identityWrites time f.id parent)).1 := by
  have hnot : enters id state m.run r' = false := by
    rw [enters, isIn, hadded]
    rfl
  have hnone : (View.fresh.writeAll (identityWrites time f.id parent)).1 (Layout.statePath state) =
      none := by
    rw [View.writeAll_of_not_isPrefix fun w hw => ?_]
    · exact if_neg (List.cons_ne_nil _ _)
    · rw [identityWrites, List.mem_cons] at hw
      rcases hw with rfl | hw
      · exact Layout.not_statePath_isPrefix_singleton state _
      · obtain ⟨p, -, rfl⟩ := Option.map_eq_some_iff.mp (Option.mem_toList.mp hw)
        exact Layout.not_statePath_isPrefix_singleton state _
  constructor
  · rw [timesOf_concat_of_not hnot, hempty, View.intervalsAt, hnone]
    exact Interval.stamped_nil
  · exact fun _ => hnone

end Steps

/-- The entries of all scenarios that were ever started are recorded. -/
structure EntriesRecorded (known : ScenarioId → Option Scenario) (ms : List Moment) (r : Run) :
    Prop where
  grounded : r.Grounded
  remembered : r.Remembered known
  tells : Tells (fun s v => ∀ state, EntryRecorded s.id state ms r v) known r
  /-- A scenario that is still to come has entered nothing. -/
  unborn : ∀ id state, r.created < id → timesOf (enters id state) ms r = []

theorem EntriesRecorded.move {known : ScenarioId → Option Scenario} {m : Moment}
    {ms : List Moment} {r' : Run} (h : EntriesRecorded known ms m.run)
    (hspares : m.Spares Layout.isEntry)
    (hordered : ∀ m' ∈ ms, ∀ e' e, m'.event = some e' → m.event = some e → e'.nanos ≤ e.nanos)
    (move : Move m r') : EntriesRecorded (note known r') (ms ++ [m]) r' := by
  have hground' := h.grounded.move move
  have hearlier : ∀ change, ∀ t ∈ timesOf change ms m.run, ∀ e, m.event = some e →
      t ≤ e.nanos := by
    intro change t ht e he
    obtain ⟨m', hm', e', he', rfl⟩ := exists_of_mem_timesOf ht
    exact hordered m' hm' e' e he' he
  refine ⟨hground', h.remembered.move h.grounded.numbered h.grounded.nodup_ids
    h.grounded.anchored move, ?_, ?_⟩
  · refine h.tells.move h.remembered h.grounded move ?_ ?_ ?_
    · intro s v hkept htells state
      change EntryRecorded s.id state _ r' (v.record [])
      exact (htells state).stays (enters_of_kept hkept) (List.forall_mem_nil _)
    · intro s s' groups hs hs' hlive halters v htells state
      rw [halters.sameCard.id]
      exact (htells state).alters h.grounded hspares hs hs' hlive halters (hearlier _)
    · intro f sequence parent subtree time hadded state
      exact entryRecorded_added time (h.unborn _ state (Nat.lt_succ_self _)) hadded
  · intro id state hlt
    have hgone := hground'.numbered.scenario?_eq_none hlt
    rw [timesOf_concat_of_not (enters_of_kept (.inr hgone))]
    exact h.unborn id state (Nat.lt_of_le_of_lt move.follows.created_le hlt)

theorem EntriesRecorded.trace {known : ScenarioId → Option Scenario} {r q : Run}
    {ms : List Moment} (h : EntriesRecorded known [] r) (htrace : Trace r ms q)
    (hspares : ∀ m ∈ ms, m.Spares Layout.isEntry)
    (hordered : ms.Pairwise fun m m' => ∀ e e', m.event = some e → m'.event = some e' →
      e.nanos ≤ e'.nanos) : ∃ known', EntriesRecorded known' ms q := by
  refine htrace.invariant_past (I := fun ms q => ∃ known, EntriesRecorded known ms q) ?_ ⟨known, h⟩
  rintro past m rest r' rfl move ⟨known, h⟩
  refine ⟨_, h.move (hspares m (List.mem_append_right _ List.mem_cons_self)) ?_ move⟩
  exact fun m' hm' => (List.pairwise_append.mp hordered).2.2 m' hm' m List.mem_cons_self

theorem Fresh.entriesRecorded {r : Run} {d : DefinitionSet} {settings : RunSettings} {time : Int64}
    (h : r.Fresh d settings time) (hground : r.Grounded) :
    EntriesRecorded (fun _ => none) [] r :=
  ⟨hground, h.remembered, fun _ _ hs => (nomatch hs), fun _ _ _ => rfl⟩

theorem query_of_none {r : Run} (h : r.Anchored) {name : String} {path : List String}
    (event : Event) (hnone : r.store.below (r.pathOf name) path = none) :
    ∃ fault, (r.context name event).query (Layout.scenarioPath name ++ path) = .error fault ∧
      fault.isNotFound = true := by
  have hfind : r.store.find? r.root (Layout.scenarioPath name ++ path) = none := by
    rw [← Option.not_isSome_iff_eq_none]
    intro hsome
    have hpath : (r.store.historyAt? (r.pathOf name ++ path)).isSome := by
      rw [h.tree.historyAt?_isSome_iff, pathOf, ← List.singleton_append, List.append_assoc,
        Store.find?_append, h.root]
      exact hsome
    rw [Store.below] at hnone
    rw [hnone] at hpath
    cases hpath
  cases hresolve : r.store.resolve r.root (Layout.scenarioPath name ++ path) with
  | ok q =>
      rw [Store.resolve_eq_ok_iff, hfind] at hresolve
      cases hresolve
  | error e =>
      obtain ⟨text, rfl⟩ := h.tree.resolve_eq_error (h.tree.find?_lt h.root) hresolve
      refine ⟨.store (.attributeNotFound text), ?_, rfl⟩
      change Fault.ofStore (r.store.resolve r.root _ >>= r.store.ongoing) = _
      rw [hresolve]
      rfl

/-- What a comparison of elapsed times comes to, by the times at which its state was entered. -/
structure Elapses (ctx : GuardContext) (entries : List Int64) (x : Elapsed) : Prop where
  /-- The time is taken from the last entry. -/
  entered : ∀ t ∈ entries.getLast?, x.reference ctx = .ok t ∧ t ≤ ctx.event.nanos ∧
    x.evaluate ctx = .ok (x.op.holds (ctx.event.nanos - t) x.limit)
  /-- The lookup finds nothing if and only if there is no entry. -/
  missing : (∃ fault, x.reference ctx = .error fault ∧ fault.isNotFound = true) ↔ entries = []
  /-- Nothing else fails: what is recorded is a time, and no later one than that of the event. -/
  fails : ∀ fault, x.evaluate ctx = .error fault →
    x.reference ctx = .error fault ∧ fault.isNotFound = true

variable {ctx : GuardContext} {entries : List Int64} {x : Elapsed}

theorem reference_of_error {fault : Fault}
    (h : ctx.query (Layout.scenarioPath ctx.scenario ++ Layout.statePath x.since) = .error fault) :
    x.reference ctx = .error fault := by
  rw [Elapsed.reference, h]
  rfl

theorem reference_of_long {t : Int64}
    (h : ctx.query (Layout.scenarioPath ctx.scenario ++ Layout.statePath x.since) =
      .ok (.long t)) : x.reference ctx = .ok t := by
  rw [Elapsed.reference, h]
  simp [Value.int64?, Value.integer?, bind, Except.bind, pure, Except.pure]

theorem elapses_of_found {t : Int64} (hlast : entries.getLast? = some t)
    (href : x.reference ctx = .ok t) (hle : t ≤ ctx.event.nanos) : Elapses ctx entries x := by
  have hevaluate : x.evaluate ctx = .ok (x.op.holds (ctx.event.nanos - t) x.limit) := by
    rw [Elapsed.evaluate, href]
    change (if ctx.event.nanos < t then _ else _) = _
    rw [if_neg (Int64.not_lt.mpr hle)]
    rfl
  refine ⟨fun t' ht' => ?_, ?_, fun fault hfault => ?_⟩
  · obtain rfl : t = t' := Option.some.inj (hlast.symm.trans ht')
    exact ⟨href, hle, hevaluate⟩
  · constructor
    · rintro ⟨fault, hfault, -⟩
      rw [href] at hfault
      cases hfault
    · rintro rfl
      cases hlast
  · rw [hevaluate] at hfault
    cases hfault

theorem elapses_of_missing {fault : Fault} (href : x.reference ctx = .error fault)
    (hnotFound : fault.isNotFound = true) : Elapses ctx [] x := by
  have hevaluate : x.evaluate ctx = .error fault := by
    rw [Elapsed.evaluate, href]
    rfl
  refine ⟨fun t ht => ?_, ⟨fun _ => rfl, fun _ => ⟨fault, href, hnotFound⟩⟩, ?_⟩
  · cases ht
  · intro fault' hfault'
    obtain rfl : fault = fault' := Except.error.inj (hevaluate.symm.trans hfault')
    exact ⟨href, hnotFound⟩

theorem EntriesRecorded.elapses {known : ScenarioId → Option Scenario} {ms : List Moment}
    {r : Run} (h : EntriesRecorded known ms r) {s : Scenario} (hs : s ∈ r.scenarios) {e : Event}
    (hlater : ∀ m ∈ ms, ∀ e', m.event = some e' → e'.nanos ≤ e.nanos) (x : Elapsed) :
    Elapses (r.context s.name e) (timesOf (enters s.id x.since) ms r) x := by
  have hanchored := h.grounded.anchored
  obtain ⟨hstamped, hmissing⟩ := h.tells s.id s (h.remembered.present s hs) x.since
  cases hbelow : r.store.below (r.pathOf s.name) (Layout.statePath x.since) with
  | none =>
      obtain ⟨fault, hquery, hnotFound⟩ := query_of_none hanchored e hbelow
      rw [View.intervalsAt, hbelow] at hstamped
      have hnil : timesOf (enters s.id x.since) ms r = [] := by
        rw [← List.getLast?_eq_none_iff]
        exact Option.map_eq_none_iff.mp hstamped.symm
      rw [hnil]
      exact elapses_of_missing (reference_of_error hquery) hnotFound
  | some log =>
      cases hlast : (timesOf (enters s.id x.since) ms r).getLast? with
      | none =>
          rw [hmissing (List.getLast?_eq_none_iff.mp hlast)] at hbelow
          cases hbelow
      | some t =>
          obtain ⟨m, hm, e', he', rfl⟩ := exists_of_mem_timesOf (List.mem_of_getLast? hlast)
          refine elapses_of_found hlast (reference_of_long ?_) (hlater m hm e' he')
          rw [hlast, View.intervalsAt, hbelow, Option.getD_some] at hstamped
          have hquery := query_eq hanchored s.name e (Layout.statePath x.since)
          rw [hbelow, Option.map_some, hstamped.ongoing_eq] at hquery
          change (r.context s.name e).query (Layout.scenarioPath s.name ++ _) = _
          cases hfound : (r.context s.name e).query
              (Layout.scenarioPath s.name ++ Layout.statePath x.since) with
          | error fault =>
              rw [hfound] at hquery
              cases hquery
          | ok value =>
              rw [hfound] at hquery
              exact congrArg Except.ok (Option.some.inj hquery)

/-- Elapsed times are measured from the last entries, wherever a condition is evaluated. -/
structure ElapsesFromEntry (r : Run) (calls : List Call) : Prop where
  /-- Whatever has happened, an event that is not earlier is compared with the last entry. -/
  reached : ∀ past rest q, r.moments calls = past ++ rest → Trace r past q → ∀ e : Event,
    (∀ m ∈ past, ∀ e', m.event = some e' → e'.nanos ≤ e.nanos) → ∀ s ∈ q.scenarios, ∀ x,
      Elapses (q.context s.name e) (timesOf (enters s.id x.since) past q) x
  /-- The guards of a scenario are evaluated right after it has noted the event. -/
  guards : ∀ past q e f s rest, r.moments calls = past ++ ⟨q, some e, .receive f s⟩ :: rest →
    ∀ x, Elapses ((q.receive f s e).context s.name e)
      (timesOf (enters s.id x.since) (past ++ [⟨q, some e, .receive f s⟩]) (q.receive f s e)) x

theorem mem_receive {q : Run} {f : FsmDefinition} {s : Scenario} {e : Event}
    (hn : q.Numbered) (hs : q.scenario? s.id = some s) :
    { s with lastEvent := some q.received } ∈ (q.receive f s e).scenarios := by
  rw [receive_altered hn hs]
  exact (mem_modifyScenario hs _).mpr (.inl rfl)

/-- In every run of an accepted document with events in the order of their times, elapsed times are
measured from the last entries, unless an action writes where these are recorded. -/
theorem elapses_from_entry {d : DefinitionDocument} {defs : DefinitionSet}
    (h : d.compile = .ok defs) (settings : RunSettings) (time : Int64) :
    ∃ r, Run.start defs (Store.empty time) settings = .ok r ∧
      ∀ calls : List Call,
        (calls.filterMap Call.event?).Pairwise (fun e e' => e.nanos ≤ e'.nanos) →
        (∀ m ∈ r.moments calls, m.Spares Layout.isEntry) → r.ElapsesFromEntry calls := by
  obtain ⟨r, hstart, hfresh, hground⟩ := exists_grounded h settings time
  refine ⟨r, hstart, fun calls hmono hspares => ?_⟩
  have hordered := moments_ordered hfresh.numbered hmono
  have hreached : ∀ past rest q, r.moments calls = past ++ rest → Trace r past q → ∀ e : Event,
      (∀ m ∈ past, ∀ e', m.event = some e' → e'.nanos ≤ e.nanos) → ∀ s ∈ q.scenarios, ∀ x,
        Elapses (q.context s.name e) (timesOf (enters s.id x.since) past q) x := by
    intro past rest q hsplit htrace e hlater s hs x
    rw [hsplit] at hordered hspares
    obtain ⟨known, hrecorded⟩ := (hfresh.entriesRecorded hground).trace htrace
      (fun m hm => hspares m (List.mem_append_left _ hm)) (List.pairwise_append.mp hordered).1
    exact hrecorded.elapses hs hlater x
  refine ⟨hreached, fun past q e f s rest hsplit x => ?_⟩
  have htrace := performAll_trace hfresh.numbered calls
  rw [hsplit, List.append_cons] at htrace
  obtain ⟨after, hpast, -⟩ := htrace.of_append
  obtain ⟨hbefore, move⟩ := hpast.of_concat
  have hn := (hbefore.invariant (fun m _ r' move => Grounded.move move) hground).1.numbered
  have hlater : ∀ m ∈ past ++ [⟨q, some e, .receive f s⟩], ∀ e', m.event = some e' →
      e'.nanos ≤ e.nanos := by
    intro m hm e' he'
    rw [hsplit] at hordered
    rcases List.mem_append.mp hm with hm | hm
    · exact (List.pairwise_append.mp hordered).2.2 m hm _ List.mem_cons_self e' e he' rfl
    · rw [List.mem_singleton.mp hm, Option.some.injEq] at he'
      exact he' ▸ Int64.le_refl _
  cases move with
  | receive hs =>
      exact hreached _ rest _ (by rw [hsplit, List.append_cons]) hpast e hlater _
        (mem_receive hn hs) x

theorem elapses_from_entry_sample :
    ∃ defs r, DefinitionDocument.sample.compile = .ok defs ∧
      Run.start defs (Store.empty 0) {} = .ok r ∧
      (sampleCalls.filterMap Call.event?).Pairwise (fun e e' => e.nanos ≤ e'.nanos) ∧
      (∀ m ∈ r.moments sampleCalls, m.Spares Layout.isEntry) ∧
      r.ElapsesFromEntry sampleCalls := by
  obtain ⟨defs, hcompile⟩ := DefinitionDocument.exists_compile_sample
  obtain ⟨r, hstart, helapses⟩ := elapses_from_entry hcompile {} 0
  have hspares : ∀ m ∈ r.moments sampleCalls, m.Spares Layout.isEntry := by
    rw [moments_sample hcompile hstart]
    decide +kernel
  have hmono : (sampleCalls.filterMap Call.event?).Pairwise fun e e' => e.nanos ≤ e'.nanos := by
    decide
  exact ⟨defs, r, hcompile, hstart, hmono, hspares, helapses sampleCalls hmono hspares⟩

end Run

end TraceAutomata
