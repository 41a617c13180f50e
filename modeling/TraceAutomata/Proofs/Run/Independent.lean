import Mathlib.Data.List.Sort
import TraceAutomata.Proofs.Run.Alone

namespace TraceAutomata

namespace Run

namespace InStep

variable {f : FsmDefinition} {index : Nat} {time : Int64} {r r' : Run}

theorem fsmOf_of_started (h : InStep f index time r r') {name : String} (hname : r'.Started name) :
    ∃ n, name = Scenario.nameOf f.id n := by
  obtain ⟨fsm, n, ⟨i, g, hg, rfl, -⟩, rfl⟩ := hname
  rw [h.kindred.defs] at hg
  obtain rfl : g = f := List.mem_singleton.mp (List.mem_of_getElem? hg)
  exact ⟨n, rfl⟩

theorem started_iff (h : InStep f index time r r') (name : String) :
    r'.Started name ↔ r.Started name ∧ Scenario.fsmOf name = f.id := by
  have hsame : ∀ n, r'.Started (Scenario.nameOf f.id n) ↔ r.Started (Scenario.nameOf f.id n) := by
    intro n
    have hbelow := congrFun (h.recorded.below n) []
    rw [Store.below, Store.below, List.append_nil, List.append_nil] at hbelow
    rw [← h.right.anchored.exists_iff, ← h.left.anchored.exists_iff,
      ← h.right.anchored.tree.historyAt?_isSome_iff, ← h.left.anchored.tree.historyAt?_isSome_iff,
      hbelow]
  constructor
  · intro hstarted
    obtain ⟨n, rfl⟩ := h.fsmOf_of_started hstarted
    exact ⟨(hsame n).mp hstarted, Scenario.fsmOf_nameOf f.id n⟩
  · rintro ⟨hstarted, hfsm⟩
    obtain ⟨fsm, n, -, rfl⟩ := id hstarted
    rw [Scenario.fsmOf_nameOf] at hfsm
    subst hfsm
    exact (hsame n).mpr hstarted

theorem records_eq (h : InStep f index time r r') :
    ∃ records, r.records = .ok records ∧
      r'.records = .ok (records.filter fun x => Scenario.fsmOf x.name == f.id) := by
  obtain ⟨names, hsorted, hnames, records, hlist, hread⟩ :=
    ScenarioRecord.list_spec h.left.anchored.tree h.left.anchored.root
  obtain ⟨names', hsorted', hnames', records', hlist', hread'⟩ :=
    ScenarioRecord.list_spec h.right.anchored.tree h.right.anchored.root
  have hmem : ∀ name, name ∈ names' ↔
      name ∈ names.filter fun name => Scenario.fsmOf name == f.id := by
    intro name
    rw [List.mem_filter, hnames, hnames', beq_iff_eq]
    exact (h.right.anchored.exists_iff name).trans
      ((h.started_iff name).trans (and_congr_left' (h.left.anchored.exists_iff name).symm))
  have hnames'' : names' = names.filter fun name => Scenario.fsmOf name == f.id :=
    hsorted'.eq_of_mem_iff (hsorted.sublist List.filter_sublist) hmem
  have hkept : List.Forall₂
      (fun name => ScenarioRecord.ReadFrom (r.store.below (r.pathOf name)) name)
      names' (records.filter fun x => Scenario.fsmOf x.name == f.id) := by
    rw [hnames'']
    refine List.rel_filter (fun {name x} hx => ?_) hread
    simp only [hx.name]
  have hright : List.Forall₂
      (fun name => ScenarioRecord.ReadFrom (r.store.below (r.pathOf name)) name)
      names' records' := by
    have hviews : ∀ name ∈ names', r'.store.below (r'.pathOf name) =
        r.store.below (r.pathOf name) := by
      intro name hname
      obtain ⟨n, rfl⟩ := h.fsmOf_of_started
        ((h.right.anchored.exists_iff name).mp ((hnames' name).mp hname))
      exact h.recorded.below n
    refine ((List.forall₂_and_left _ _).mpr ⟨hviews, hread'⟩).imp fun name x ⟨hview, hx⟩ => ?_
    rw [← hview]
    exact hx
  have hsame : records' = records.filter fun x => Scenario.fsmOf x.name == f.id :=
    List.right_unique_forall₂' (fun _ _ _ hx hx' => hx.unique hx') hright hkept
  refine ⟨records.mergeSort ScenarioRecord.notAfter, ?_, ?_⟩
  · rw [Run.records, hlist]
    rfl
  · rw [Run.records, hlist', hsame, ScenarioRecord.filter_mergeSort ScenarioRecord.notAfter_trans
      ScenarioRecord.notAfter_total]
    rfl

theorem stats_eq (h : InStep f index time r r') : r'.stats = r.stats[index]?.toList := by
  obtain ⟨c, c', hc, hc', hline⟩ := h.kindred.line
  obtain ⟨c₀, hone⟩ := List.length_eq_one_iff.mp h.length_eq_one
  have hlive := h.kindred.liveCount_eq
  rw [hone] at hc'
  obtain rfl : c₀ = c' := Option.some.inj hc'
  obtain ⟨active, pending, rfl, -⟩ := hline
  rw [stats, stats, List.getElem?_mapIdx, hc, hone, List.mapIdx_singleton, hlive]
  rfl

end InStep

/-- What an fsm does among others is what it does alone. -/
theorem fsms_independent {d : DefinitionDocument} {defs : DefinitionSet}
    (h : d.compile = .ok defs) (hlocal : defs.Local) {index : Nat} {f : FsmDefinition}
    (hf : defs.fsms[index]? = some f) (hinitial : f.id ∈ defs.initial) (settings : RunSettings)
    (time : Int64) :
    ∃ defs' r r', (d.only f.id).compile = .ok defs' ∧
      Run.start defs (Store.empty time) settings = .ok r ∧
      Run.start defs' (Store.empty time) settings = .ok r' ∧
      ∀ calls : List Call, (∀ id, .cancel id ∉ calls) →
        let last := r.performAll calls
        let last' := r'.performAll calls
        (∃ records, last.records = .ok records ∧
          last'.records = .ok (records.filter fun x => Scenario.fsmOf x.name == f.id)) ∧
        (∀ n path, last'.store.historyAt? (last'.pathOf (Scenario.nameOf f.id n) ++ path) =
          last.store.historyAt? (last.pathOf (Scenario.nameOf f.id n) ++ path)) ∧
        last'.store.endTime = last.store.endTime ∧
        last'.stats = last.stats[index]?.toList ∧
        last.emitted.toList = (r.moments calls).filterMap (·.act.emitted?) ∧
        last'.emitted.toList = (r.moments calls).filterMap (Moment.emittedBy? f.id) := by
  have honly := DefinitionDocument.compile_only h hlocal (List.mem_of_getElem? hf) hinitial
  obtain ⟨r, hstart, hfresh, hground⟩ := exists_grounded h settings time
  obtain ⟨r', hstart', hfresh', hground'⟩ := exists_grounded honly settings time
  refine ⟨defs.only f, r, r', honly, hstart, hstart', fun calls hcalls => ?_⟩
  have hbegin := hfresh.inStep hfresh' hground hground' hlocal hf
  obtain ⟨_, htandem⟩ := hbegin.performAll (hfresh.defs ▸ hinitial) hcalls
  have hlast := htandem.inStep
  have hemitted := (performAll_trace hfresh.numbered calls).emitted_eq
  have hemitted' := htandem.emitted
  rw [hfresh.emitted] at hemitted
  rw [hfresh'.emitted] at hemitted'
  refine ⟨hlast.records_eq, fun n => ?_, ?_, hlast.stats_eq, hemitted, hemitted'⟩
  · exact congrFun (hlast.recorded.below n)
  · exact hlast.recorded.endTime'.trans hlast.recorded.endTime.symm

def twoEvents : List Call :=
  [.event ⟨⟨1, 0⟩, "begin", .ofList [("pid", .int 7)], none⟩, .event ⟨⟨2, 0⟩, "end", ∅, none⟩,
    .dispose]

theorem fsms_independent_sample :
    ∃ defs f defs' r r', DefinitionDocument.sample.compile = .ok defs ∧ defs.Local ∧
      defs.fsms[0]? = some f ∧ f.id ∈ defs.initial ∧ (∀ id, .cancel id ∉ twoEvents) ∧
      (DefinitionDocument.sample.only f.id).compile = .ok defs' ∧
      Run.start defs (Store.empty 0) {} = .ok r ∧ Run.start defs' (Store.empty 0) {} = .ok r' ∧
      (r'.performAll twoEvents).stats = (r.performAll twoEvents).stats[0]?.toList ∧
      (r'.performAll twoEvents).emitted.toList =
        (r.moments twoEvents).filterMap (Moment.emittedBy? f.id) := by
  obtain ⟨defs, -, hcompile, -, hcheck⟩ := DefinitionDocument.sample.exists_of_checks {} 0
    (fun defs _ => defs.tests.values.all TransitionInput.isLocal &&
      defs.actions.values.all (fun ops => ops.all Operation.isLocal) &&
      defs.fsms[0]?.any fun f => defs.initial.contains f.id)
    (by decide +kernel)
  simp only [Bool.and_eq_true, List.all_eq_true, Option.any_eq_true, List.contains_iff_mem] at hcheck
  obtain ⟨⟨htests, hactions⟩, f, hf, hinitial⟩ := hcheck
  have hlocal : defs.Local := ⟨htests, hactions⟩
  obtain ⟨defs', r, r', hcompile', hstart, hstart', hsame⟩ :=
    fsms_independent hcompile hlocal hf hinitial {} 0
  have hcalls : ∀ id, .cancel id ∉ twoEvents := by
    intro id hid
    simp [twoEvents] at hid
  obtain ⟨-, -, -, hstats, -, hemitted⟩ := hsame twoEvents hcalls
  exact ⟨defs, f, defs', r, r', hcompile, hlocal, hf, hinitial, hcalls, hcompile', hstart, hstart',
    hstats, hemitted⟩

end Run

end TraceAutomata
