import TraceAutomata.Proofs.Run.Anchor

namespace TraceAutomata

namespace StoreM

/-- Whether none of several changes is refused, one made after the other. -/
def acceptsAll : List (StoreM Unit) → Store → Bool
  | [], _ => true
  | m :: rest, st => m.accepts st && acceptsAll rest (m.after st)

theorem acceptsAll_map {st : Store} (t : st.Tree) (hl : st.lockedName = none)
    {base : List String} {subtree : Quark} (hq : st.find? Store.root base = some subtree)
    (groups : List (List Write)) :
    acceptsAll (groups.map (History.writeAll subtree)) st = (st.below base).accepts groups := by
  induction groups generalizing st with
  | nil => rfl
  | cons writes rest ih =>
      obtain ⟨hrec, haccept, -, -⟩ := History.writeAll_spec t hl hq writes
      have hrest := ih hrec.tree (hrec.lockedName.trans hl) (hrec.find? _ _ hq)
      rw [List.map_cons, acceptsAll, hrest, View.accepts, haccept, hrec.below]

end StoreM

namespace Moment

/-- The subtree of a new scenario is opened and its fsm recorded there. -/
def enrollChange (r : Run) (f : FsmDefinition) (c : FsmSchedule) (parent : Option String)
    (time : Int64) : StoreM Unit := do
  let subtree ← History.openScenario r.root (Scenario.nameOf f.id (c.created + 1))
  History.setIdentity subtree time f.id parent

def changes : Moment → List (StoreM Unit)
  | ⟨r, _, .enroll index parent trigger⟩ =>
      match r.defs.fsms[index]?, r.fsms[index]? with
      | some f, some c =>
          [enrollChange r f c parent ((trigger.map Event.nanos).getD r.store.endTime)]
      | _, _ => []
  | ⟨_, some e, .receive f s⟩ => Run.receiveChanges f s e.nanos
  | ⟨_, some e, .change scope names value⟩ =>
      [History.write scope.subtree e.nanos names value]
  | ⟨_, some e, .save scope slot value⟩ => [History.saveSlot scope.subtree e.nanos slot value]
  | ⟨_, some e, .enter _ f s next⟩ =>
      Run.moveChanges s.subtree e.nanos (Run.leavesInitial f s s.state next)
        (next != s.state) next (Run.moved f s.state next e.nanos s).status
  | ⟨r, _, .cancel s⟩ =>
      [History.setEndTime s.subtree r.store.endTime,
        History.setState s.subtree r.store.endTime s.state .abandoned]
  | _ => []

def Accepted (m : Moment) : Prop :=
  (∀ index, m.act ≠ .abort index) ∧ StoreM.acceptsAll m.changes m.run.store = true

end Moment

namespace Run

theorem changes_of_alters {m : Moment} {s s' : Scenario} {groups : List (List Write)}
    (h : Alters m s s' groups) : m.changes = groups.map (History.writeAll s.subtree) := by
  cases h with
  | receive _ => exact receiveChanges_eq ..
  | change _ =>
      rw [List.map_singleton, ← History.write_eq_writeAll]
      rfl
  | save _ =>
      rw [List.map_singleton, ← History.write_eq_writeAll]
      rfl
  | enter _ _ _ _ => exact moveChanges_eq ..
  | cancel =>
      rw [Moment.changes, History.setState_eq, History.setEndTime, History.write_eq_writeAll]
      rfl

theorem enrollChange_of_open {r : Run} {f : FsmDefinition} {c : FsmSchedule}
    {parent : Option String} {time : Int64} {subtree : Quark} {st : Store}
    (hopen : History.openScenario r.root (Scenario.nameOf f.id (c.created + 1)) r.store =
      .ok subtree st) :
    Moment.enrollChange r f c parent time r.store =
      History.setIdentity subtree time f.id parent st := by
  simp only [Moment.enrollChange, bind, EStateM.bind, hopen]

end Run

end TraceAutomata
