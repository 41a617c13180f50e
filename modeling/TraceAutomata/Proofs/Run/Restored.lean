import TraceAutomata.CommandLine.Session
import TraceAutomata.Proofs.Run.Endure
import TraceAutomata.Proofs.Run.Past
import TraceAutomata.Proofs.Store.RoundTrip

namespace TraceAutomata

theorem Store.resolve_root_eq_error {st : Store} (t : st.Tree) {name : String}
    (h : st.find? root [name] = none) :
    st.resolve root [name] = .error (.attributeNotFound ("/" ++ name)) := by
  obtain ⟨n, hn, hparent⟩ := t.root_node
  have hchild : n.children.find? name = none := by
    rw [find?, child?, hn] at h
    cases hfound : n.children.find? name with
    | none => rfl
    | some c =>
        rw [Option.bind_some, hfound] at h
        cases h
  have hsegments : st.segments root = [] := by
    rw [segments, hn]
    simp only [hparent]
  rw [resolve, (node_eq_ok_iff st root n).mpr hn, hsegments]
  simp only [bind, Except.bind, hchild]
  rfl

namespace ScenarioRecord

open Store

theorem ReadFrom.congr {v v' : View} {name : String} {record : ScenarioRecord}
    (hlog : ∀ p, v'.intervalsAt p = v.intervalsAt p) (h : ReadFrom v' name record) :
    ReadFrom v name record := by
  have hongoing : ∀ p, v'.ongoing p = v.ongoing p := fun p => by
    rw [View.ongoing, View.ongoing, hlog]
  exact ⟨h.name, hongoing _ ▸ h.fsm, hongoing _ ▸ h.parent, hongoing _ ▸ h.state,
    hongoing _ ▸ h.status, hongoing _ ▸ h.startTime, hongoing _ ▸ h.endTime,
    fun slot => hongoing _ ▸ h.scratch slot⟩

theorem list_congr {st st' : Store} (t : st.Tree) (t' : st'.Tree) {base : List String}
    {q q' : Quark} (hq : st.find? root base = some q) (hq' : st'.find? root base = some q')
    (hlog : ∀ p, st'.intervalsAt p = st.intervalsAt p)
    (hfound : ∀ name, (st'.find? root (base ++ Layout.scenarioPath name)).isSome ↔
      (st.find? root (base ++ Layout.scenarioPath name)).isSome) :
    ∃ records, list st q = .ok records ∧ list st' q' = .ok records := by
  obtain ⟨names, hsorted, hnames, records, hlist, hread⟩ := list_spec t hq
  obtain ⟨names', hsorted', hnames', records', hlist', hread'⟩ := list_spec t' hq'
  have heq : names' = names := by
    refine List.Perm.eq_of_pairwise (fun a b _ _ hab hba => absurd hba (asymm hab)) hsorted'
      hsorted ?_
    refine (List.perm_ext_iff_of_nodup (hsorted'.imp String.ne_of_lt)
      (hsorted.imp String.ne_of_lt)).mpr fun name => ?_
    rw [hnames, hnames', hfound]
  subst heq
  have hsame :
      List.Forall₂ (fun name => ReadFrom (st.below (base ++ Layout.scenarioPath name)) name)
        names' records' :=
    hread'.imp fun name record h => h.congr fun p => hlog _
  have hunique : Relator.RightUnique
      fun name => ReadFrom (st.below (base ++ Layout.scenarioPath name)) name :=
    fun name record record' h h' => h.unique h'
  rw [hunique.forall₂ hsame hread] at hlist'
  exact ⟨_, hlist, hlist'⟩

end ScenarioRecord

namespace Run

open Store

theorem intervalsAt_fsm (time : Int64) (fsm : String) (parent : Option String) :
    (View.fresh.writeAll (identityWrites time fsm parent)).1.intervalsAt [Layout.fsm] =
      [⟨time, .string fsm⟩] := by
  cases parent <;> rfl

/-- A run whose scenarios can all be found in a snapshot of its store. -/
structure Archived (r : Run) : Prop where
  grounded : r.Grounded
  startTime_le : r.store.startTime ≤ r.store.endTime
  written : ∀ name, r.Started name → r.store.intervalsAt (r.pathOf name ++ [Layout.fsm]) ≠ []

theorem Fresh.not_started {r : Run} {d : DefinitionSet} {settings : RunSettings} {time : Int64}
    (h : r.Fresh d settings time) (name : String) : ¬ r.Started name := by
  have hnot : ¬ Layout.scenarioPath name <+: [] := by simp [Layout.scenarioPath]
  rw [← h.anchored.exists_iff, ← h.tree.historyAt?_isSome_iff, h.historyAt?, pathOf, h.defs]
  simp [hnot]

theorem Fresh.startTime_le {r : Run} {d : DefinitionSet} {settings : RunSettings} {time : Int64}
    (h : r.Fresh d settings time) : r.store.startTime ≤ r.store.endTime := by
  rw [h.startTime, h.endTime]
  exact Int64.le_refl time

theorem Fresh.archived {r : Run} {d : DefinitionSet} {settings : RunSettings} {time : Int64}
    (h : r.Fresh d settings time) (hground : r.Grounded) : r.Archived where
  grounded := hground
  startTime_le := h.startTime_le
  written name hname := (h.not_started name hname).elim

theorem goesOn_of_trace {r r' : Run} {ms : List Moment} (h : Trace r ms r') (hground : r.Grounded) :
    r.store.GoesOn Int64.minValue r'.store :=
  h.goesOn hground (Int64.minValue_le _) (fun _ _ _ _ => Int64.minValue_le _) r'
    (List.mem_append_right _ (List.mem_singleton_self r'))

theorem Started.of_trace {r r' : Run} {ms : List Moment} {name : String} (htrace : Trace r ms r')
    (hground : r.Grounded) (h : r.Started name) : r'.Started name := by
  obtain ⟨hground', hdefs⟩ := (htrace.invariant
    (I := fun q => q.Grounded ∧ q.defs = r.defs)
    (fun _ _ _ move hm => ⟨hm.1.move move, move.follows.defs.trans hm.2⟩) ⟨hground, rfl⟩).1
  obtain ⟨q, hq⟩ := Option.isSome_iff_exists.mp ((hground.anchored.exists_iff name).mpr h)
  refine (hground'.anchored.exists_iff name).mp (Option.isSome_iff_exists.mpr ⟨q, ?_⟩)
  rw [pathOf, hdefs]
  exact (goesOn_of_trace htrace hground).find? _ _ hq

theorem Archived.move {m : Moment} {r' : Run} (move : Move m r') (h : m.run.Archived) :
    r'.Archived := by
  have hground := h.grounded
  have hground' := hground.move move
  have hgoes : m.run.store.GoesOn Int64.minValue r'.store :=
    goesOn_of_move hground (Int64.minValue_le _) (fun _ _ => Int64.minValue_le _) move
  have hpath : ∀ name, r'.pathOf name = m.run.pathOf name := fun name => by
    rw [pathOf, move.follows.defs, pathOf]
  refine ⟨hground', ?_, fun name hname => ?_⟩
  · rw [hgoes.startTime]
    exact Int64.le_trans h.startTime_le (endTime_le_of_move hground move)
  rw [hpath]
  by_cases hold : m.run.Started name
  · obtain ⟨later, hlog, -⟩ := hgoes.intervalsAt (m.run.pathOf name ++ [Layout.fsm])
    rw [hlog]
    exact List.append_ne_nil_of_left_ne_nil (h.written name hold) later
  · cases Seen.of_move hground.numbered hground.nodup_ids hground.anchored move name with
    | same _ below =>
        have hhere : (r'.store.find? Store.root (m.run.pathOf name)).isSome := by
          rw [← hpath]
          exact (hground'.anchored.exists_iff name).mpr hname
        have hsame := congrFun below []
        rw [Store.below, Store.below, List.append_nil] at hsame
        rw [← hground'.anchored.tree.historyAt?_isSome_iff, hsame,
          hground.anchored.tree.historyAt?_isSome_iff, hground.anchored.exists_iff] at hhere
        exact (hold hhere).elim
    | alters s _ _ hs hsname _ _ _ _ =>
        exact (hold (hsname ▸ hground.anchored.started_of_mem hs)).elim
    | admits f sequence parent subtree time _ _ _ below =>
        rw [← intervalsAt_below, below, intervalsAt_fsm]
        exact List.cons_ne_nil _ _

theorem Archived.performAll {r : Run} (h : r.Archived) (calls : List Call) :
    (r.performAll calls).Archived :=
  ((performAll_trace h.grounded.numbered calls).invariant (fun _ _ _ => Archived.move) h).1

theorem onEvent_started {r : Run} {f : FsmDefinition} {i : Nat} (hground : r.Grounded)
    (hbegun : r.begun = false) (hdisposed : r.disposed = false) (hf : r.defs.fsms[i]? = some f)
    (hinitial : f.id ∈ r.defs.initial) (event : Event) :
    (r.onEvent event).Started (Scenario.nameOf f.id 1) := by
  obtain ⟨hground', hdefs, c, hc, -, hlive⟩ := readied_stocked (gauge_live f) hground hdisposed
    event hf hinitial fun h => nomatch hbegun.symm.trans h
  have hcreated : 1 ≤ c.created := Nat.le_trans hlive (Nat.sub_le _ _)
  have hready : (r.readied event).Started (Scenario.nameOf f.id 1) :=
    ⟨f.id, 1, ⟨i, f, hdefs ▸ hf, rfl, c.created, by rw [List.getElem?_map, hc]; rfl, Nat.le_refl 1,
      hcreated⟩, rfl⟩
  cases hdispatch : (r.readied event).dispatches event with
  | true =>
      rw [(onEvent_of_dispatches hdisposed hdispatch).2]
      exact hready.of_trace (Path.fold _ (fun r' index _ hn _ => visit_path hn event index)
        hground'.numbered).trace hground'
  | false =>
      rw [(onEvent_of_not_dispatches hdisposed hdispatch).2]
      exact hready

theorem records_eq_of_list {r : Run} {records : List ScenarioRecord}
    (h : ScenarioRecord.list r.store r.root = .ok records) : r.records = .ok records := by
  rw [Run.records, h]
  rfl

/-- As soon as there is a scenario, the restored store lists the records that the run lists. -/
theorem Archived.recordsOf {r : Run} (h : r.Archived) {name : String} (hname : r.Started name)
    (createdAt : Int64) :
    ∃ records, r.records = .ok records ∧
      CommandLine.recordsOf (r.store.capture createdAt) r.defs.id = .ok records := by
  have hanchored := h.grounded.anchored
  have htree := hanchored.tree
  obtain ⟨st, hrestore, htree', -, -, hlog⟩ :=
    restore_capture ⟨htree, hanchored.unlocked, h.startTime_le⟩ createdAt
  obtain ⟨st', hrestore', -, hfound⟩ := exists_restore (r.store.capture createdAt)
  obtain rfl : st = st' := Except.ok.inj (hrestore.symm.trans hrestore')
  have hwritten : ∀ name, r.Started name → ∀ p, p <+: r.pathOf name →
      (st.find? Store.root p).isSome := by
    intro name hname p hp
    let path := r.pathOf name ++ [Layout.fsm]
    have hmem : ⟨path, r.store.intervalsAt path⟩ ∈ r.store.written :=
      (mem_written_iff htree _).mpr ⟨rfl, h.written name hname⟩
    exact (hfound p).mpr (.inr ⟨_, hmem, hp.trans (List.prefix_append _ _)⟩)
  have hroot : (st.find? Store.root [r.defs.id]).isSome :=
    hwritten name hname _ (List.prefix_append [r.defs.id] _)
  obtain ⟨q, hq⟩ := Option.isSome_iff_exists.mp hroot
  obtain ⟨records, hlist, hlist'⟩ := ScenarioRecord.list_congr htree htree' hanchored.root hq hlog
    fun name => by
      change (st.find? Store.root (r.pathOf name)).isSome ↔
        (r.store.find? Store.root (r.pathOf name)).isSome
      constructor
      · intro hsome
        rcases (hfound _).mp hsome with hnil | ⟨a, ha, hp⟩
        · cases hnil
        · obtain ⟨c, hc⟩ := ((mem_written_iff htree a).mp ha).exists_find?
          exact find?_isSome_of_le hp (by rw [hc]; rfl)
      · intro hsome
        exact hwritten name ((hanchored.exists_iff name).mp hsome) _ (List.prefix_refl _)
  refine ⟨records, records_eq_of_list hlist, ?_⟩
  rw [CommandLine.recordsOf, hrestore]
  change (do ScenarioRecord.list st (← st.resolve Store.root [r.defs.id])) = _
  rw [(resolve_eq_ok_iff _ _ _ _).mpr hq]
  exact hlist'

theorem Fresh.dispose_eq {r : Run} {d : DefinitionSet} {settings : RunSettings} {time : Int64}
    (h : r.Fresh d settings time) : r.dispose = { r with disposed := true } := by
  have hnone : r.fsms.flatMap FsmSchedule.tracked = [] := by
    rw [h.fsms, List.flatMap_map]
    exact List.flatMap_eq_nil_iff.mpr fun _ _ => rfl
  rw [dispose, h.disposed, if_neg Bool.false_ne_true, hnone]
  rfl

/-- If a run ends before the first event, nothing has been written. The restored store has no
attribute but the root of all, and the pattern is not found in it. -/
theorem Fresh.recordsOf {r : Run} {d : DefinitionSet} {settings : RunSettings} {time : Int64}
    (h : r.Fresh d settings time) (createdAt : Int64) :
    r.dispose.records = .ok [] ∧ CommandLine.recordsOf (r.dispose.store.capture createdAt) d.id =
      .error (.attributeNotFound ("/" ++ d.id)) := by
  rw [h.dispose_eq, ← h.defs]
  have hwritten : r.store.written = [] := List.eq_nil_iff_forall_not_mem.mpr fun a ha => by
    obtain ⟨hat, hne⟩ := (mem_written_iff h.tree a).mp ha
    refine hne (hat.symm.trans ?_)
    rw [Store.intervalsAt, h.historyAt?]
    split <;> rfl
  constructor
  · change r.records = .ok []
    obtain ⟨names, -, hnames, records, hlist, hread⟩ :=
      ScenarioRecord.list_spec h.tree h.anchored.root
    have hnone : names = [] := List.eq_nil_iff_forall_not_mem.mpr fun name hname =>
      h.not_started name ((h.anchored.exists_iff name).mp ((hnames name).mp hname))
    subst hnone
    cases hread
    rw [List.mergeSort_nil] at hlist
    exact records_eq_of_list hlist
  · change CommandLine.recordsOf (r.store.capture createdAt) r.defs.id = _
    obtain ⟨st, hrestore, htree', -⟩ :=
      restore_capture ⟨h.tree, h.lockedName, h.startTime_le⟩ createdAt
    obtain ⟨st', hrestore', -, hfound⟩ := exists_restore (r.store.capture createdAt)
    obtain rfl : st = st' := Except.ok.inj (hrestore.symm.trans hrestore')
    have hmissing : st.find? Store.root [r.defs.id] = none := by
      rw [← Option.not_isSome_iff_eq_none, hfound, capture, hwritten]
      simp
    rw [CommandLine.recordsOf, hrestore]
    change (do ScenarioRecord.list st (← st.resolve Store.root [r.defs.id])) = _
    rw [resolve_root_eq_error htree' hmissing]
    rfl

theorem performAll_events (r : Run) (events : List Event) :
    r.performAll (events.map Call.event ++ [Call.dispose]) = (r.feed events).dispose := by
  rw [performAll, List.foldl_append, List.foldl_map]
  rfl

/-- In every run of an accepted document on an empty store, if some event came, the store that is
restored from its snapshot lists the records that the run lists at its end. If none came, the run
lists no records, and the pattern is not found in the restored store. -/
theorem history_after_run {d : DefinitionDocument} {defs : DefinitionSet}
    (h : d.compile = .ok defs) (settings : RunSettings) (time : Int64) :
    ∃ r, Run.start defs (Store.empty time) settings = .ok r ∧
      ∀ events createdAt, ∃ records, (r.feed events).dispose.records = .ok records ∧
        (events ≠ [] → CommandLine.recordsOf ((r.feed events).dispose.store.capture createdAt)
          defs.id = .ok records) ∧
        (events = [] → records = [] ∧
          CommandLine.recordsOf ((r.feed events).dispose.store.capture createdAt) defs.id =
            .error (.attributeNotFound ("/" ++ defs.id))) := by
  obtain ⟨r, hstart, hfresh, hground⟩ := exists_grounded h settings time
  refine ⟨r, hstart, fun events createdAt => ?_⟩
  cases events with
  | nil =>
      obtain ⟨hrecords, hlost⟩ := hfresh.recordsOf createdAt
      exact ⟨[], hrecords, fun hne => (hne rfl).elim, fun _ => ⟨rfl, hlost⟩⟩
  | cons event rest =>
      obtain ⟨name, hname⟩ : ∃ name, (r.onEvent event).Started name := by
        have hcompiled := (DefinitionDocument.compile_eq_ok_iff d defs).mp h
        obtain ⟨id, hid⟩ := List.exists_mem_of_ne_nil _ hcompiled.initial_ne_nil
        obtain ⟨f, hf, rfl⟩ : ∃ f ∈ defs.fsms, f.id = id := by
          simpa using hcompiled.known_initial id hid
        obtain ⟨i, hi⟩ := List.getElem?_of_mem hf
        rw [← hfresh.defs] at hi hid
        exact ⟨_, onEvent_started hground hfresh.begun hfresh.disposed hi hid event⟩
      have hended := (hfresh.archived hground).performAll ((event :: rest).map .event ++ [.dispose])
      have hlater : (r.performAll ((event :: rest).map .event ++ [.dispose])).Started name :=
        hname.of_trace (performAll_trace (hground.performAll [.event event]).1.numbered _)
          (hground.performAll [.event event]).1
      obtain ⟨records, hrecords, hfound⟩ := hended.recordsOf hlater createdAt
      rw [(hground.performAll _).2, hfresh.defs] at hfound
      rw [performAll_events] at hrecords hfound
      exact ⟨records, hrecords, fun _ => hfound, fun hnil => by cases hnil⟩

theorem history_after_run_sample :
    ∃ defs r records, DefinitionDocument.sample.compile = .ok defs ∧
      Run.start defs (Store.empty 0) {} = .ok r ∧
      (r.feed [⟨⟨1, 0⟩, "begin", ∅, none⟩]).dispose.records = .ok records ∧
      CommandLine.recordsOf
        ((r.feed [⟨⟨1, 0⟩, "begin", ∅, none⟩]).dispose.store.capture 0) defs.id = .ok records := by
  obtain ⟨defs, hcompile⟩ := DefinitionDocument.exists_compile_sample
  obtain ⟨r, hstart, hhistory⟩ := history_after_run hcompile {} 0
  obtain ⟨records, hrecords, hfound, -⟩ := hhistory [⟨⟨1, 0⟩, "begin", ∅, none⟩] 0
  exact ⟨defs, r, records, hcompile, hstart, hrecords, hfound (List.cons_ne_nil _ _)⟩

/-- A run of the sample without any event. -/
theorem history_lost_without_events :
    ∃ defs r, DefinitionDocument.sample.compile = .ok defs ∧
      Run.start defs (Store.empty 0) {} = .ok r ∧ (r.feed []).dispose.records = .ok [] ∧
      CommandLine.recordsOf ((r.feed []).dispose.store.capture 0) defs.id =
        .error (.attributeNotFound ("/" ++ defs.id)) := by
  obtain ⟨defs, hcompile⟩ := DefinitionDocument.exists_compile_sample
  obtain ⟨r, hstart, hfresh⟩ := exists_start defs {} 0
  exact ⟨defs, r, hcompile, hstart, hfresh.recordsOf 0⟩

end Run

end TraceAutomata
