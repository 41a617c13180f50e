import TraceAutomata.Proofs.Definition.Compiled
import TraceAutomata.Proofs.Store.Growth
import TraceAutomata.Run.Basic

namespace TraceAutomata

/-- A run that has just been started on an empty store. -/
structure Run.Fresh (r : Run) (d : DefinitionSet) (s : RunSettings) (time : Int64) : Prop where
  defs : r.defs = d
  settings : r.settings = s
  fsms : r.fsms = d.fsms.map fun f => { id := f.id }
  scenarios : r.scenarios = []
  created : r.created = 0
  received : r.received = 0
  emitted : r.emitted = #[]
  begun : r.begun = false
  disposed : r.disposed = false
  tree : r.store.Tree
  lockedName : r.store.lockedName = none
  startTime : r.store.startTime = time
  endTime : r.store.endTime = time
  find?_root : r.store.find? Store.root [d.id] = some r.root
  historyAt? : ∀ p, r.store.historyAt? p = if p <+: [d.id] then some [] else none

theorem Store.historyAt?_empty (time : Int64) (p : List String) :
    (Store.empty time).historyAt? p = if p = [] then some [] else none := by
  cases p with
  | nil => rfl
  | cons name rest => rfl

/-- On whatever store it starts, a run has started no scenario and received no event. -/
theorem Run.start_eq_ok_iff {defs : DefinitionSet} {store : Store} {settings : RunSettings}
    {r : Run} :
    Run.start defs store settings = .ok r ↔
      ∃ st root, store.ensure Store.root [defs.id] = .ok (st, root) ∧
        r = { defs, settings, store := st, root, fsms := defs.fsms.map fun f => { id := f.id } } := by
  rw [Run.start]
  cases store.ensure Store.root [defs.id] with
  | error e => simp [Fault.ofStore, bind, Except.bind]
  | ok result =>
      obtain ⟨st, root⟩ := result
      simp [Fault.ofStore, bind, Except.bind, pure, Except.pure, eq_comm]

theorem Run.exists_start (defs : DefinitionSet) (settings : RunSettings) (time : Int64) :
    ∃ r, Run.start defs (Store.empty time) settings = .ok r ∧ r.Fresh defs settings time := by
  obtain ⟨st, root, hensure, hext, hend, hfind, hhist⟩ :=
    Store.ensure_spec (Store.tree_empty time) (Store.find?_nil _ Store.root) [defs.id]
  refine ⟨_, Run.start_eq_ok_iff.mpr ⟨st, root, hensure, rfl⟩, ?_⟩
  refine ⟨rfl, rfl, rfl, rfl, rfl, rfl, rfl, rfl, rfl, hext.tree, hext.lockedName,
    hext.startTime, hend, hfind, fun p => ?_⟩
  rw [hhist p, List.nil_append, Store.intervalsAt, Store.historyAt?_empty]
  by_cases hp : p = []
  · subst hp
    simp
  · simp [hp]

/-- Whether a document is accepted and its run on an empty store has a property. -/
def DefinitionDocument.checks (d : DefinitionDocument) (settings : RunSettings) (time : Int64)
    (p : DefinitionSet → Run → Bool) : Bool :=
  d.compile.toOption.any fun defs =>
    (Run.start defs (Store.empty time) settings).toOption.any (p defs)

theorem DefinitionDocument.exists_of_checks (d : DefinitionDocument) (settings : RunSettings)
    (time : Int64) (p : DefinitionSet → Run → Bool) (h : d.checks settings time p = true) :
    ∃ defs r, d.compile = .ok defs ∧ Run.start defs (Store.empty time) settings = .ok r ∧
      p defs r = true := by
  rw [checks] at h
  cases hcompile : d.compile with
  | error fault =>
      rw [hcompile] at h
      cases h
  | ok defs =>
      rw [hcompile] at h
      cases hstart : Run.start defs (Store.empty time) settings with
      | error fault =>
          simp only [Except.toOption, Option.any_some, hstart] at h
          cases h
      | ok r =>
          simp only [Except.toOption, Option.any_some, hstart] at h
          exact ⟨defs, r, rfl, hstart, h⟩

end TraceAutomata
