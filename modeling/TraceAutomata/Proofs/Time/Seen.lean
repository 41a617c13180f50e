import TraceAutomata.Definition.Input
import TraceAutomata.Proofs.Condition.Algebra
import TraceAutomata.Proofs.Store.Update

namespace TraceAutomata

/-- Two contexts show the same times: that of the event, those of the store, and for every state what is
found where the scenario's entry into it is looked up. -/
structure GuardContext.SameTimes (ctx ctx' : GuardContext) : Prop where
  event : ctx'.event.nanos = ctx.event.nanos
  startTime : ctx'.store.startTime = ctx.store.startTime
  endTime : ctx'.store.endTime = ctx.store.endTime
  entry : ∀ state,
    ctx'.query (Layout.scenarioPath ctx'.scenario ++ Layout.statePath state) =
      ctx.query (Layout.scenarioPath ctx.scenario ++ Layout.statePath state)

namespace GuardContext.SameTimes

variable {ctx ctx' : GuardContext}

theorem range_eq (h : ctx.SameTimes ctx') (r : TimeRange) : r.evaluate ctx' = r.evaluate ctx := by
  rw [TimeRange.evaluate, TimeRange.evaluate, h.event, h.startTime, h.endTime]

theorem elapsed_eq (h : ctx.SameTimes ctx') (e : Elapsed) : e.evaluate ctx' = e.evaluate ctx := by
  have hreference : e.reference ctx' = e.reference ctx := by
    rw [Elapsed.reference, Elapsed.reference, h.entry]
  rw [Elapsed.evaluate, Elapsed.evaluate, hreference, h.event]

theorem leaf_eq (h : ctx.SameTimes ctx') {leaf : Condition} (hleaf : leaf.IsLeaf)
    (htimes : leaf.comparesValues = false) : leaf.evaluate ctx' = leaf.evaluate ctx := by
  cases leaf with
  | timeRange r => rw [Condition.evaluate, Condition.evaluate, h.range_eq]
  | elapsed e => rw [Condition.evaluate, Condition.evaluate, h.elapsed_eq]
  | compare => cases htimes
  | equal => cases htimes
  | not => cases hleaf
  | and => cases hleaf
  | or => cases hleaf

end GuardContext.SameTimes

namespace TransitionInput

theorem compile_time_eq_ok {id : String} {c : Condition} {input : TransitionInput}
    (h : compile id (.time c) = .ok input) :
    input = .time c ∧ ∀ part ∈ c.subconditions, part.comparesValues = false := by
  rw [compile] at h
  split at h
  · cases h
  · next hnone =>
    refine ⟨(Except.ok.inj h).symm, fun part hpart => ?_⟩
    rw [Bool.not_eq_true, List.any_eq_false] at hnone
    simpa using hnone part hpart

/-- An accepted time input sees times and nothing else: neither the name, the fields and the end of the
event nor the rest of the store has a part in its answer or its fault. -/
theorem time_seen_only {id : String} {c : Condition} {input : TransitionInput}
    (haccepted : compile id (.time c) = .ok input) {ctx ctx' : GuardContext}
    (htimes : ctx.SameTimes ctx') : input.evaluate ctx' = input.evaluate ctx := by
  obtain ⟨rfl, hparts⟩ := compile_time_eq_ok haccepted
  exact Condition.evaluate_congr c fun part hpart hleaf => htimes.leaf_eq hleaf (hparts part hpart)

end TransitionInput

namespace Store

variable {st : Store} {q c : Quark}

theorem resolve_append {path : List String} (h : st.resolve q path = .ok c) (rest : List String) :
    st.resolve q (path ++ rest) = st.resolve c rest := by
  induction path generalizing q with
  | nil =>
      obtain rfl : q = c := Except.ok.inj h
      rfl
  | cons name path ih =>
      rw [List.cons_append, resolve]
      rw [resolve] at h
      cases hnode : st.node q with
      | error e => rw [hnode] at h; cases h
      | ok n =>
          rw [hnode] at h
          simp only [bind, Except.bind] at h ⊢
          cases hchild : n.children.find? name with
          | none => rw [hchild] at h; cases h
          | some child => rw [hchild] at h; exact ih h

theorem resolve_cons_of_missing {name : String} (hq : q < st.nodes.size)
    (h : st.child? q name = none) (rest : List String) :
    st.resolve q (name :: rest) =
      .error (.attributeNotFound (pathText (st.segments q) ++ "/" ++ name)) := by
  have hn : st.nodes[q]? = some st.nodes[q] := Array.getElem?_eq_getElem hq
  rw [child?, hn, Option.bind_some] at h
  rw [resolve, node, hn]
  simp only [bind, Except.bind]
  rw [h]

end Store

namespace GuardContext

/-- A scenario entered a state at time 100; then the store goes on as it is told. -/
def sampleTimes (others : List Update) (event : Event) : GuardContext where
  store := (Store.empty 0).updateAll
    ([.create Store.root ["p", "scenarios", "f#1", "states", "S1", "start_time"],
      .write 6 100 (.long 100)] ++ others ++ [.extendTo 250])
  root := 1
  scenario := "f#1"
  event := event

theorem query_entry_of_ne {ctx : GuardContext} {entered : String} {q : Quark}
    (hstates : ctx.store.resolve ctx.root
      (Layout.scenarioPath ctx.scenario ++ [Layout.states]) = .ok q)
    (hsize : q < ctx.store.nodes.size)
    (hentries : ctx.store.nodes[q]?.map (fun n => n.children.names) = some [entered])
    {state : String} (hne : state ≠ entered) :
    ctx.query (Layout.scenarioPath ctx.scenario ++ Layout.statePath state) =
      .error (.store
        (.attributeNotFound (Store.pathText (ctx.store.segments q) ++ "/" ++ state))) := by
  have hmissing : ctx.store.child? q state = none := by
    obtain ⟨n, hn, hnames⟩ := Option.map_eq_some_iff.mp hentries
    rw [Store.child?, hn, Option.bind_some, Dict.find?, List.lookup_eq_none_iff]
    intro e he
    have hmem : e.1 ∈ n.children.names := List.mem_map_of_mem he
    rw [hnames, List.mem_singleton] at hmem
    simpa [hmem] using hne
  have hpath : Layout.scenarioPath ctx.scenario ++ Layout.statePath state =
      Layout.scenarioPath ctx.scenario ++ [Layout.states] ++ [state, Layout.startTime] := rfl
  rw [query, hpath, Store.resolve_append hstates, Store.resolve_cons_of_missing hsize hmissing]
  rfl

end GuardContext

open GuardContext in
/-- A time range and two looks at entries, one of them in vain, do not notice another event and
another attribute. -/
theorem TransitionInput.time_seen_only_sample :
    let c : Condition := .and [.not (.or [.timeRange ⟨0, 100, .nano, .inside⟩,
      .elapsed ⟨"S1", .less, 100, .nano⟩]), .elapsed ⟨"S9", .more, 1, .nano⟩]
    let ctx := sampleTimes [] ⟨.ofNanos 250, "e", ∅, none⟩
    let ctx' := sampleTimes [.create 1 ["cpu"], .write 7 120 (.int 3)]
      ⟨⟨2500, -10⟩, "f", (∅ : Dict Value).insert "x" (.int 1), some (.ofNanos 9)⟩
    compile "late" (.time c) = .ok (.time c) ∧ ctx.SameTimes ctx' ∧
      evaluate ctx' (.time c) = evaluate ctx (.time c) := by
  intro c ctx ctx'
  have haccepted : compile "late" (.time c) = .ok (.time c) := rfl
  have htimes : ctx.SameTimes ctx' := by
    refine ⟨by decide, by decide +kernel, by decide +kernel, fun state => ?_⟩
    by_cases h : state = "S1"
    · subst h
      decide +kernel
    · have hfound : ctx.store.resolve ctx.root
          (Layout.scenarioPath ctx.scenario ++ [Layout.states]) = .ok 4 := by decide +kernel
      have hfound' : ctx'.store.resolve ctx'.root
          (Layout.scenarioPath ctx'.scenario ++ [Layout.states]) = .ok 4 := by decide +kernel
      have hsegments : ctx'.store.segments 4 = ctx.store.segments 4 := by decide +kernel
      have hentries : ctx.store.nodes[4]?.map (fun n => n.children.names) = some ["S1"] := by
        decide +kernel
      have hentries' : ctx'.store.nodes[4]?.map (fun n => n.children.names) = some ["S1"] := by
        decide +kernel
      rw [query_entry_of_ne hfound (by decide +kernel) hentries h,
        query_entry_of_ne hfound' (by decide +kernel) hentries' h, hsegments]
  exact ⟨haccepted, htimes, time_seen_only haccepted htimes⟩

end TraceAutomata
