import TraceAutomata.Proofs.Definition.Only
import TraceAutomata.Proofs.Run.Bystander
import TraceAutomata.Proofs.Scenario.Record

/-!
Two runs that have the same of one fsm: the one runs several fsms, in the other one this fsm is
alone. The scenarios are numbered differently and are in other places of the store, so they are
paired by what else there is of them.
-/

namespace TraceAutomata

def Scenario.Alike (s s' : Scenario) : Prop :=
  ∃ id subtree, s' = { s with id, subtree }

namespace Scenario.Alike

variable {s s' : Scenario}

theorem name (h : s.Alike s') : s'.name = s.name := by
  obtain ⟨_, _, rfl⟩ := h
  rfl

theorem fsm (h : s.Alike s') : s'.fsm = s.fsm := by
  obtain ⟨_, _, rfl⟩ := h
  rfl

theorem state (h : s.Alike s') : s'.state = s.state := by
  obtain ⟨_, _, rfl⟩ := h
  rfl

theorem status (h : s.Alike s') : s'.status = s.status := by
  obtain ⟨_, _, rfl⟩ := h
  rfl

theorem lastEvent (h : s.Alike s') : s'.lastEvent = s.lastEvent := by
  obtain ⟨_, _, rfl⟩ := h
  rfl

theorem isLive (h : s.Alike s') : s'.isLive = s.isLive := by
  rw [Scenario.isLive, h.status, Scenario.isLive]

theorem isWaiting (h : s.Alike s') : s'.isWaiting = s.isWaiting := by
  rw [Scenario.isWaiting, h.status, Scenario.isWaiting]

theorem hasStarted (h : s.Alike s') : s'.hasStarted = s.hasStarted := by
  rw [Scenario.hasStarted, h.lastEvent, Scenario.hasStarted]

theorem handled (h : s.Alike s') (number : Option Nat) :
    Alike { s with lastEvent := number } { s' with lastEvent := number } := by
  obtain ⟨id, subtree, rfl⟩ := h
  exact ⟨id, subtree, rfl⟩

theorem cancelled (h : s.Alike s') (time : Int64) :
    Alike { s.advance .abandoned with endTime := some time }
      { s'.advance .abandoned with endTime := some time } := by
  obtain ⟨id, subtree, rfl⟩ := h
  refine ⟨id, subtree, ?_⟩
  simp only [advance]
  split <;> rfl

end Scenario.Alike

theorem countP_eq_of_forall₂ {α β : Type} {R : α → β → Prop} {p : α → Bool} {q : β → Bool}
    {list : List α} {list' : List β} (h : List.Forall₂ R list list')
    (hR : ∀ a b, R a b → q b = p a) : list'.countP q = list.countP p := by
  induction h with
  | nil => rfl
  | cons hab _ ih => rw [List.countP_cons, List.countP_cons, ih, hR _ _ hab]

namespace Run

/-- A scenario of an fsm has one number in one run, and another number in another run. -/
def Twins (f : FsmDefinition) (r r' : Run) (id id' : ScenarioId) : Prop :=
  ∃ s s', r.scenario? id = some s ∧ r'.scenario? id' = some s' ∧ s.Alike s' ∧ s.fsm = f.id

theorem Twins.isLive_eq {f : FsmDefinition} {r r' : Run} {id id' : ScenarioId}
    (h : Twins f r r' id id') : r'.isLive id' = r.isLive id := by
  obtain ⟨s, s', hs, hs', halike, -⟩ := h
  rw [isLive, isLive, hs, hs', Option.any_some, Option.any_some, halike.isLive]

def SameLine (R : ScenarioId → ScenarioId → Prop) (c c' : FsmSchedule) : Prop :=
  ∃ active pending, c' = { c with active, pending } ∧ List.Forall₂ R c.active active ∧
    List.Forall₂ R c.pending pending

theorem SameLine.tracked {R : ScenarioId → ScenarioId → Prop} {c c' : FsmSchedule}
    (h : SameLine R c c') : List.Forall₂ R c.tracked c'.tracked := by
  obtain ⟨active, pending, rfl, hactive, hpending⟩ := h
  exact List.rel_append hactive hpending

theorem SameLine.imp {R R' : ScenarioId → ScenarioId → Prop} {c c' : FsmSchedule}
    (h : SameLine R c c') (hR : ∀ id id', R id id' → R' id id') : SameLine R' c c' := by
  obtain ⟨active, pending, rfl, hactive, hpending⟩ := h
  exact ⟨active, pending, rfl, hactive.imp hR, hpending.imp hR⟩

/-- What a run with one fsm has in memory is what another run has of this fsm. -/
structure Kindred (f : FsmDefinition) (index : Nat) (r r' : Run) : Prop where
  here : r.defs.fsms[index]? = some f
  defs : r'.defs = r.defs.only f
  settings : r'.settings = r.settings
  received : r'.received = r.received
  begun : r'.begun = r.begun
  disposed : r'.disposed = r.disposed
  line : ∃ c c', r.fsms[index]? = some c ∧ r'.fsms[0]? = some c' ∧ SameLine (Twins f r r') c c'

namespace Kindred

variable {f : FsmDefinition} {index : Nat} {r r' next next' : Run}

theorem here' (h : Kindred f index r r') : r'.defs.fsms[0]? = some f := by
  rw [h.defs]
  rfl

theorem of_line (h : Kindred f index r r') (steady : Steady r next) (steady' : Steady r' next')
    (line : ∃ c c', next.fsms[index]? = some c ∧ next'.fsms[0]? = some c' ∧
      SameLine (Twins f next next') c c') : Kindred f index next next' where
  here := by rw [steady.defs]; exact h.here
  defs := by rw [steady'.defs, steady.defs]; exact h.defs
  settings := by rw [steady'.settings, steady.settings]; exact h.settings
  received := by rw [steady'.received, steady.received]; exact h.received
  begun := by rw [steady'.begun, steady.begun]; exact h.begun
  disposed := by rw [steady'.disposed, steady.disposed]; exact h.disposed
  line := line

theorem congr (h : Kindred f index r r') (steady : Steady r next) (steady' : Steady r' next')
    (schedule : next.fsms[index]? = r.fsms[index]?) (schedule' : next'.fsms[0]? = r'.fsms[0]?)
    (twins : ∀ id id', Twins f r r' id id' → Twins f next next' id id') :
    Kindred f index next next' := by
  obtain ⟨c, c', hc, hc', hline⟩ := h.line
  exact h.of_line steady steady'
    ⟨c, c', schedule.trans hc, schedule'.trans hc', hline.imp twins⟩

theorem modifyFsm (h : Kindred f index r r') {g g' : FsmSchedule → FsmSchedule}
    (hg : ∀ c c', SameLine (Twins f r r') c c' → SameLine (Twins f r r') (g c) (g' c')) :
    Kindred f index (r.modifyFsm index g) (r'.modifyFsm 0 g') := by
  obtain ⟨c, c', hc, hc', hline⟩ := h.line
  refine h.of_line ⟨rfl, rfl, rfl, rfl, rfl⟩ ⟨rfl, rfl, rfl, rfl, rfl⟩
    ⟨g c, g' c', ?_, ?_, hg c c' hline⟩
  · rw [Run.modifyFsm, List.getElem?_modify, hc]
    simp
  · rw [Run.modifyFsm, List.getElem?_modify, hc']
    simp

theorem liveCount_eq (h : Kindred f index r r') : r'.liveCount 0 = r.liveCount index := by
  obtain ⟨c, c', hc, hc', hline⟩ := h.line
  rw [liveCount, liveCount, hc, hc']
  apply countP_eq_of_forall₂ hline.tracked
  intro id id' hid
  exact hid.isLive_eq

theorem restartIfIdle (h : Kindred f index r r') :
    Kindred f index (r.restartIfIdle index) (r'.restartIfIdle 0) := by
  rw [Run.restartIfIdle, Run.restartIfIdle, h.liveCount_eq]
  split
  · apply h.modifyFsm
    rintro c _ ⟨active, pending, rfl, hactive, hpending⟩
    simp only
    split
    · exact ⟨active, pending, rfl, hactive, hpending⟩
    · exact ⟨active, pending, rfl, hactive, hpending⟩
  · exact h

theorem takesScenario_eq (h : Kindred f index r r') {c c' : FsmSchedule}
    (hline : SameLine (Twins f r r') c c') :
    r'.takesScenario 0 f c' = r.takesScenario index f c := by
  obtain ⟨active, pending, rfl, -⟩ := hline
  rw [takesScenario, takesScenario, h.liveCount_eq]

end Kindred

section Twins

variable {f : FsmDefinition} {index : Nat} {r r' : Run} {s s' t t' : Scenario}
  {groups groups' : List (List Write)}

theorem scenario?_altered_self (hs : r.scenario? s.id = some s) (hid : t.id = s.id) :
    (r.altered s t groups).scenario? s.id = some t := by
  have hself := scenario?_modifyScenario_self r (f := fun _ => t) fun _ _ => hid
  rw [hs] at hself
  exact hself

theorem scenario?_altered_of_ne (hid : t.id = s.id) {id : ScenarioId} (hne : id ≠ s.id) :
    (r.altered s t groups).scenario? id = r.scenario? id :=
  scenario?_modifyScenario_ne (fun _ _ => hid) hne

theorem Twins.altered (hl : r.Anchored) (hr : r'.Anchored) (hs : r.scenario? s.id = some s)
    (hs' : r'.scenario? s'.id = some s') (halike : s.Alike s') (card : SameCard s t)
    (card' : SameCard s' t') (hnext : t.Alike t') {id id' : ScenarioId}
    (h : Twins f r r' id id') :
    Twins f (r.altered s t groups) (r'.altered s' t' groups') id id' := by
  obtain ⟨x, x', hx, hx', hx'x, hfsm⟩ := h
  have hname := halike.name
  have hxname := hx'x.name
  have hmem := mem_of_scenario? hs
  have hmem' := mem_of_scenario? hs'
  have hxmem := mem_of_scenario? hx
  have hxmem' := mem_of_scenario? hx'
  have hiff : id = s.id ↔ id' = s'.id := by
    rw [← id_of_scenario? hx, ← id_of_scenario? hx']
    constructor
    · intro heq
      obtain rfl : x = s := by
        rw [id_of_scenario? hx] at heq
        subst heq
        exact Option.some.inj (hx.symm.trans hs)
      exact hr.unique x' hxmem' s' hmem' (hxname.trans hname.symm)
    · intro heq
      obtain rfl : x' = s' := by
        rw [id_of_scenario? hx'] at heq
        subst heq
        exact Option.some.inj (hx'.symm.trans hs')
      exact hl.unique x hxmem s hmem (hxname.symm.trans hname)
  rcases eq_or_ne id s.id with heq | hne
  · obtain rfl := hiff.mp heq
    subst heq
    obtain rfl : s = x := Option.some.inj (hs.symm.trans hx)
    exact ⟨t, t', scenario?_altered_self hs card.id, scenario?_altered_self hs' card'.id, hnext,
      card.fsm.trans hfsm⟩
  · have hne' : id' ≠ s'.id := fun heq => hne (hiff.mpr heq)
    exact ⟨x, x', (scenario?_altered_of_ne card.id hne).trans hx,
      (scenario?_altered_of_ne card'.id hne').trans hx', hx'x, hfsm⟩

theorem Kindred.altered (h : Kindred f index r r') (hl : r.Anchored) (hr : r'.Anchored)
    (hs : r.scenario? s.id = some s) (hs' : r'.scenario? s'.id = some s') (halike : s.Alike s')
    (card : SameCard s t) (card' : SameCard s' t') (hnext : t.Alike t') :
    Kindred f index (r.altered s t groups) (r'.altered s' t' groups') :=
  h.congr ⟨rfl, rfl, rfl, rfl, rfl⟩ ⟨rfl, rfl, rfl, rfl, rfl⟩ rfl rfl
    fun _ _ hid => hid.altered hl hr hs hs' halike card card' hnext

end Twins

/-- The same is recorded of the scenarios of an fsm, and the observed time ends at a time. -/
structure SameRecord (f : FsmDefinition) (time : Int64) (r r' : Run) : Prop where
  startTime : r'.store.startTime = r.store.startTime
  endTime : r.store.endTime = time
  endTime' : r'.store.endTime = time
  below : ∀ n, r'.store.below (r'.pathOf (Scenario.nameOf f.id n)) =
    r.store.below (r.pathOf (Scenario.nameOf f.id n))

namespace SameRecord

variable {f : FsmDefinition} {time : Int64} {r r' next next' : Run} {s s' : Scenario}

theorem congr (h : SameRecord f time r r') (defs : next.defs = r.defs)
    (defs' : next'.defs = r'.defs) (store : next.store = r.store) (store' : next'.store = r'.store) :
    SameRecord f time next next' := by
  refine ⟨?_, ?_, ?_, fun n => ?_⟩
  · rw [store, store']
    exact h.startTime
  · rw [store]
    exact h.endTime
  · rw [store']
    exact h.endTime'
  · rw [store, store', pathOf, pathOf, defs, defs']
    exact h.below n

theorem recordAll (h : SameRecord f time r r') (groups : List (List Write)) (hl : r.Anchored)
    (hr : r'.Anchored) (hs : s ∈ r.scenarios) (hs' : s' ∈ r'.scenarios) (halike : s.Alike s')
    (htime : ∀ writes ∈ groups, ∀ w ∈ writes, w.time ≤ time) (defs : next.defs = r.defs)
    (defs' : next'.defs = r'.defs) (store : next.store = History.recordAll s.subtree groups r.store)
    (store' : next'.store = History.recordAll s'.subtree groups r'.store) :
    SameRecord f time next next' := by
  have hname := halike.name
  obtain ⟨hrec, -, hend⟩ := History.recordAll_spec hl.tree hl.unlocked (hl.subtree s hs) groups
  obtain ⟨hrec', -, hend'⟩ :=
    History.recordAll_spec hr.tree hr.unlocked (hr.subtree s' hs') groups
  rw [← store] at hrec hend
  rw [← store'] at hrec' hend'
  refine ⟨?_, ?_, ?_, fun n => ?_⟩
  · rw [hrec'.startTime, hrec.startTime]
    exact h.startTime
  · rw [← h.endTime] at htime ⊢
    exact hend htime
  · rw [← h.endTime'] at htime ⊢
    exact hend' htime
  · rw [pathOf, pathOf, defs, defs', ← pathOf, ← pathOf]
    rcases eq_or_ne (Scenario.nameOf f.id n) s.name with heq | hne
    · have hbelow := h.below n
      rw [heq] at hbelow ⊢
      rw [hrec.below, ← hbelow, ← hname]
      exact hrec'.below
    · rw [below_eq_of_recorded hrec hne, below_eq_of_recorded hrec' (hname ▸ hne)]
      exact h.below n

theorem of_untouched {index : Nat} (h : SameRecord f time r r') (hu : Untouched f index r next) :
    SameRecord f time next r' := by
  refine ⟨h.startTime.trans hu.startTime.symm, hu.endTime.trans h.endTime, h.endTime', fun n => ?_⟩
  rw [h.below n, pathOf, pathOf, hu.defs]
  exact (hu.below n).symm

end SameRecord

theorem toOption_ofStore {α : Type} (x : Except StoreError α) :
    (Fault.ofStore x).toOption = x.toOption := by
  cases x <;> rfl

theorem toOption_resolve (st : Store) (q : Quark) (path : List String) :
    (st.resolve q path).toOption = st.find? q path := by
  apply Option.ext
  intro c
  rw [← Store.resolve_eq_ok_iff]
  cases st.resolve q path <;> simp [Except.toOption]

theorem toOption_ongoing (st : Store) (q : Quark) :
    (st.ongoing q).toOption = st.nodes[q]?.map fun n => Interval.ongoing n.intervals.toList := by
  rw [Store.ongoing, Store.node]
  cases st.nodes[q]? with
  | none => rfl
  | some n =>
      rw [Option.map_some, Interval.ongoing, Array.getLast?_toList]
      rfl

theorem query_eq {r : Run} (h : r.Anchored) (name : String) (event : Event) (path : List String) :
    ((r.context name event).query (Layout.scenarioPath name ++ path)).toOption =
      (r.store.below (r.pathOf name) path).map Interval.ongoing := by
  have hfind : r.store.find? Store.root (r.pathOf name ++ path) =
      r.store.find? r.root (Layout.scenarioPath name ++ path) := by
    rw [pathOf, ← List.singleton_append, List.append_assoc, Store.find?_append, h.root]
    rfl
  rw [GuardContext.query, toOption_ofStore, Except.toOption_bind, Store.below, Store.historyAt?,
    hfind]
  change ((r.store.resolve r.root _).toOption.bind fun q => (r.store.ongoing q).toOption) = _
  rw [toOption_resolve]
  cases r.store.find? r.root (Layout.scenarioPath name ++ path) with
  | none => rfl
  | some q =>
      rw [Option.bind_some, Option.bind_some, toOption_ongoing, Option.map_map]
      rfl

theorem SameRecord.agree {f : FsmDefinition} {time : Int64} {r r' : Run}
    (h : SameRecord f time r r') (hl : r.Anchored) (hr : r'.Anchored) {name : String}
    (hbelow : r'.store.below (r'.pathOf name) = r.store.below (r.pathOf name)) (event : Event) :
    (r.context name event).Agree (r'.context name event) where
  scenario := rfl
  event := rfl
  startTime := h.startTime
  endTime := h.endTime'.trans h.endTime.symm
  query path := by
    have hquery := query_eq hr name event path
    rw [hbelow, ← query_eq hl name event path] at hquery
    exact hquery

end Run

end TraceAutomata
