import TraceAutomata.Proofs.Store.Walk

namespace TraceAutomata.Store

theorem addAttribute_spec {st : Store} (t : st.Tree) (a : AttributeHistory) :
    ∃ st', st.addAttribute a = .ok st' ∧ st.Extends st' ∧
      (∀ p, (st'.find? root p).isSome ↔ (st.find? root p).isSome ∨ p <+: a.path) ∧
      ∀ p, st'.intervalsAt p = if p = a.path then a.intervals else st.intervalsAt p := by
  obtain ⟨mid, q, hensure, hext, -, hfind, hhist⟩ := ensure_spec t (find?_nil st root) a.path
  rw [List.nil_append] at hfind hhist
  refine ⟨mid.setHistory q a.intervals, ?_, ⟨tree_setHistory hext.tree, fun p c hp => ?_,
    hext.startTime, hext.lockedName⟩, fun p => ?_, fun p => ?_⟩
  · rw [addAttribute, hensure]
    rfl
  · rw [find?_setHistory, hext.find? p c hp]
  · rw [find?_setHistory, ← hext.tree.historyAt?_isSome_iff, ← t.historyAt?_isSome_iff, hhist]
    split
    · next hp => simp [hp]
    · next hp => simp [hp]
  · rw [intervalsAt, historyAt?_setHistory hext.tree hfind]
    split
    · rfl
    · rw [hhist]
      split
      · rfl
      · rfl

theorem addAll_spec {st : Store} (t : st.Tree) (attributes : List AttributeHistory) :
    ∃ st', attributes.foldlM addAttribute st = .ok st' ∧ st.Extends st' ∧
      (∀ p, (st'.find? root p).isSome ↔
        (st.find? root p).isSome ∨ ∃ a ∈ attributes, p <+: a.path) ∧
      ∀ log : List String → List Interval, (∀ a ∈ attributes, a.intervals = log a.path) →
        ∀ p, st'.intervalsAt p =
          if p ∈ attributes.map AttributeHistory.path then log p else st.intervalsAt p := by
  induction attributes generalizing st with
  | nil => exact ⟨st, rfl, .refl t, fun p => by simp, fun log _ p => by simp⟩
  | cons a rest ih =>
      obtain ⟨mid, hadd, hext, hfound, hmid⟩ := addAttribute_spec t a
      obtain ⟨st', hrest, hext', hfound', hlast⟩ := ih hext.tree
      refine ⟨st', ?_, hext.trans hext', fun p => ?_, fun log hlog p => ?_⟩
      · rw [List.foldlM_cons, hadd]
        exact hrest
      · rw [hfound', hfound, List.exists_mem_cons_iff, or_assoc]
      · obtain ⟨hfirst, hlog⟩ := List.forall_mem_cons.mp hlog
        rw [hlast log hlog, List.map_cons]
        by_cases hrest : p ∈ rest.map AttributeHistory.path
        · rw [if_pos hrest, if_pos (List.mem_cons_of_mem _ hrest)]
        · rw [if_neg hrest, hmid]
          by_cases hp : p = a.path
          · rw [if_pos hp, if_pos (hp ▸ List.mem_cons_self), hfirst, hp]
          · rw [if_neg hp, if_neg fun hmem => (List.mem_cons.mp hmem).elim hp hrest]

theorem intervalsAt_empty (time : Int64) (path : List String) :
    (empty time).intervalsAt path = [] := by
  cases path with
  | nil => rfl
  | cons name rest =>
      have hchild : (empty time).child? root name = none := by
        simp [child?, empty, root]
      rw [intervalsAt, historyAt?, find?, hchild]
      rfl

theorem find?_of_nodes {st st' : Store} (h : st'.nodes = st.nodes) (q : Quark)
    (path : List String) : st'.find? q path = st.find? q path := by
  induction path generalizing q with
  | nil => rfl
  | cons name rest ih => simp only [find?, child?, h, ih]

/-- Whatever a snapshot holds, it can be restored, and the attributes are then those that lie on the
way to some history. -/
theorem exists_restore (s : Snapshot) :
    ∃ st, s.restore = .ok st ∧ st.lockedName = none ∧
      ∀ p, (st.find? root p).isSome ↔ p = [] ∨ ∃ a ∈ s.attributes, p <+: a.path := by
  obtain ⟨mid, hadd, hext, hmid, -⟩ := addAll_spec (tree_empty s.startTime) s.attributes
  refine ⟨{ mid with endTime := max s.endTime s.startTime }, ?_, hext.lockedName, fun p => ?_⟩
  · rw [Snapshot.restore, hadd]
    rfl
  · have hempty : ((empty s.startTime).find? root p).isSome ↔ p = [] := by
      cases p with
      | nil => simp
      | cons name rest => simp [find?, child?, empty, root]
    have hnodes : ({ mid with endTime := max s.endTime s.startTime } : Store).nodes = mid.nodes :=
      rfl
    rw [find?_of_nodes hnodes, hmid, hempty]

theorem intervalsAt_of_nodes {st st' : Store} (h : st'.nodes = st.nodes) (path : List String) :
    st'.intervalsAt path = st.intervalsAt path := by
  rw [intervalsAt, intervalsAt, historyAt?, historyAt?, find?_of_nodes h, h]

theorem restore_capture {st : Store} (h : st.Reached) (createdAt : Int64) :
    ∃ st', (st.capture createdAt).restore = .ok st' ∧ st'.Tree ∧ st'.startTime = st.startTime ∧
      st'.endTime = st.endTime ∧ ∀ p, st'.intervalsAt p = st.intervalsAt p := by
  have hlog : ∀ a ∈ st.written, a.intervals = st.intervalsAt a.path := fun a ha =>
    ((mem_written_iff h.tree a).mp ha).1.symm
  obtain ⟨mid, hadd, hext, -, hmid⟩ := addAll_spec (tree_empty st.startTime) st.written
  replace hmid := hmid st.intervalsAt hlog
  have hend : max st.endTime st.startTime = st.endTime := by
    have hmax : max st.endTime st.startTime =
        if st.endTime ≤ st.startTime then st.startTime else st.endTime := rfl
    rw [hmax]
    split
    · next hle => exact Int64.le_antisymm h.startTime_le hle
    · rfl
  refine ⟨{ mid with endTime := st.endTime }, ?_, ?_, hext.startTime, rfl, fun p => ?_⟩
  · rw [Snapshot.restore, capture, hadd]
    simp only [hend]
    rfl
  · exact ⟨hext.tree.root_node, hext.tree.of_child, hext.tree.of_parent⟩
  · have hnodes : ({ mid with endTime := st.endTime } : Store).nodes = mid.nodes := rfl
    rw [intervalsAt_of_nodes hnodes, hmid]
    split
    · rfl
    · next hnot =>
      rw [intervalsAt_empty]
      by_contra hne
      refine hnot (List.mem_map.mpr ⟨⟨p, st.intervalsAt p⟩, ?_, rfl⟩)
      exact (mem_written_iff h.tree _).mpr ⟨rfl, Ne.symm hne⟩

theorem written_congr {st st' : Store} (t : st.Tree) (t' : st'.Tree)
    (h : ∀ p, st'.intervalsAt p = st.intervalsAt p) : st'.written = st.written := by
  have hmem : ∀ a, a ∈ st'.written ↔ a ∈ st.written := fun a => by
    rw [mem_written_iff t, mem_written_iff t', WrittenAt, WrittenAt, h]
  refine List.Perm.eq_of_pairwise (fun a b _ _ hab hba => (hab.asymm hba).elim)
    (written_sorted t') (written_sorted t) ?_
  exact (List.perm_ext_iff_of_nodup (written_nodup t') (written_nodup t)).mpr hmem

theorem queries_eq {st st' : Store} (t : st.Tree) (t' : st'.Tree)
    (hstart : st'.startTime = st.startTime) {path : List String} {q q' : Quark}
    (hq : st.find? root path = some q) (hq' : st'.find? root path = some q')
    (hlog : st'.intervalsAt path = st.intervalsAt path) :
    st'.history q' = st.history q ∧ st'.ongoing q' = st.ongoing q ∧
      ∀ time, st'.valueAt q' time = st.valueAt q time := by
  obtain ⟨n, hn⟩ := t.exists_node hq
  obtain ⟨n', hn'⟩ := t'.exists_node hq'
  rw [intervalsAt_of_find? hq hn, intervalsAt_of_find? hq' hn'] at hlog
  have hintervals : n'.intervals = n.intervals := Array.toList_inj.mp hlog
  have hnode := (node_eq_ok_iff st q n).mpr hn
  have hnode' := (node_eq_ok_iff st' q' n').mpr hn'
  refine ⟨?_, ?_, fun time => ?_⟩
  · simp only [history, hnode, hnode', Except.map, hintervals]
  · simp only [ongoing, hnode, hnode', Except.map, hintervals]
  · simp only [valueAt, hnode, hnode', Except.map, hintervals, hstart]

/-- The walk that captures a store ends, and finds each attribute that was ever written once, with
its path and its history, a parent before its children and these in the order of their names. The
store that is restored has the same times, answers alike at each of these paths, and is captured
as the same again. -/
theorem snapshot_round_trip (time : Int64) (updates : List Update) (createdAt : Int64) :
    let st := (empty time).updateAll updates
    (st.walk st.size).waiting = [] ∧
      (st.capture createdAt).attributes.Perm ((List.range st.size).filterMap st.written?) ∧
      (st.capture createdAt).attributes.Pairwise (fun a b => Precedes a.path b.path) ∧
      ∃ st', (st.capture createdAt).restore = .ok st' ∧
        st'.startTime = st.startTime ∧ st'.endTime = st.endTime ∧
        (∀ a ∈ (st.capture createdAt).attributes, ∃ q q',
          st.resolve root a.path = .ok q ∧ st'.resolve root a.path = .ok q' ∧
          st'.history q' = st.history q ∧ st'.ongoing q' = st.ongoing q ∧
          ∀ time, st'.valueAt q' time = st.valueAt q time) ∧
        ∀ later, st'.capture later = { st.capture createdAt with createdAt := later } := by
  intro st
  have h : st.Reached := (reached_empty time).updateAll updates
  obtain ⟨st', hrestore, t', hstart, hend, hlog⟩ := restore_capture h createdAt
  refine ⟨waiting_walk_size h.tree, written_perm h.tree, written_sorted h.tree, st', hrestore,
    hstart, hend, fun a ha => ?_, fun later => ?_⟩
  · have hat := (mem_written_iff h.tree a).mp ha
    have hat' : st'.WrittenAt a := ⟨(hlog a.path).trans hat.1, hat.2⟩
    obtain ⟨q, hq⟩ := hat.exists_find?
    obtain ⟨q', hq'⟩ := hat'.exists_find?
    exact ⟨q, q', (resolve_eq_ok_iff _ _ _ _).mpr hq, (resolve_eq_ok_iff _ _ _ _).mpr hq',
      queries_eq h.tree t' hstart hq hq' (hlog a.path)⟩
  · rw [capture, capture, hstart, hend, written_congr h.tree t' hlog]

end TraceAutomata.Store
