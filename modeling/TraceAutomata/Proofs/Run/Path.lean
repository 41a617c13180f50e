import Mathlib.Data.List.Chain
import TraceAutomata.Proofs.Run.Frame

/-!
What one act can do, and how a call is made of acts. The moments of a call lead from the run
before it to the run after it, each act with its effect; so what every act keeps, every call
keeps, and it holds at every moment.
-/

namespace TraceAutomata

namespace Run

def Acting (r : Run) (s : Scenario) : Prop :=
  r.scenario? s.id = some s ∧ s.isLive = true ∧ s.lastEvent = some r.received

def OfFsm (r : Run) (s : Scenario) (index : Nat) (f : FsmDefinition) : Prop :=
  r.defs.fsmIndex? s.fsm = some index ∧ r.defs.fsm? s.fsm = some f

end Run

/-- The effect of an act, with all that is known just before it. -/
inductive Move : Moment → Run → Prop
  | arrive {r : Run} {e : Event} (h : r.disposed = false) :
      Move ⟨r, some e, .arrive⟩ (r.arrived e)
  | begin {r : Run} {e : Event} (h : r.begun = false) :
      Move ⟨r, some e, .begin⟩ { r with begun := true }
  | appoint {r : Run} {e : Event} {id : String} {index : Nat} (hid : id ∈ r.defs.initial)
      (hindex : r.defs.fsmIndex? id = some index) :
      Move ⟨r, some e, .appoint index⟩ (r.modifyFsm index fun c => { c with isRoot := true })
  | takeDue {r : Run} {e : Event} {index : Nat} {c : FsmSchedule}
      (hc : r.fsms[index]? = some c) (hdue : c.startNext = true) :
      Move ⟨r, some e, .takeDue index⟩
        (r.modifyFsm index fun c => { c with startNext := false })
  | decide {r : Run} {e : Event} {left index : Nat} {parent : Option String}
      {trigger : Option Event} : Move ⟨r, some e, .decide left index parent trigger⟩ r
  | abort {r : Run} {e : Event} {index : Nat} {name : String} {error : StoreError} {st : Store}
      (h : History.openScenario r.root name r.store = .error error st) :
      Move ⟨r, some e, .abort index⟩ { r with store := st }
  | enroll {r : Run} {e : Event} {index : Nat} {parent : Option String}
      {trigger : Option Event} {f : FsmDefinition} {c : FsmSchedule} {subtree : Quark}
      {st : Store} (htrigger : trigger = none ∨ trigger = some e)
      (hf : r.defs.fsms[index]? = some f) (hc : r.fsms[index]? = some c)
      (htakes : r.takesScenario index f c = true)
      (hopen : History.openScenario r.root (Scenario.nameOf f.id (c.created + 1)) r.store =
        .ok subtree st) :
      Move ⟨r, some e, .enroll index parent trigger⟩
        (r.admitted index f c parent ((trigger.map Event.nanos).getD r.store.endTime) subtree st)
  | handle {r : Run} {e : Event} {id : ScenarioId} : Move ⟨r, some e, .handle id⟩ r
  | receive {r : Run} {e : Event} {f : FsmDefinition} {s : Scenario} {index : Nat}
      (hs : r.scenario? s.id = some s) (hlive : s.isLive = true) (hf : r.OfFsm s index f) :
      Move ⟨r, some e, .receive f s⟩ (r.receive f s e)
  | operate {r : Run} {e : Event} {s : Scenario} {op : Operation} (hs : r.Acting s) :
      Move ⟨r, some e, .operate s.scope op⟩ r
  | change {r : Run} {e : Event} {s : Scenario} {names : List String} {value : Value}
      (hs : r.Acting s) :
      Move ⟨r, some e, .change s.scope names value⟩
        (r.record (History.write s.subtree e.nanos names value))
  | save {r : Run} {e : Event} {s : Scenario} {slot : String} {value : Value}
      (hs : r.Acting s) :
      Move ⟨r, some e, .save s.scope slot value⟩
        (r.record (History.saveSlot s.subtree e.nanos slot value))
  | emit {r : Run} {e : Event} {s : Scenario} {name : SyntheticName}
      {fields : Dict ValueSource} {synthetic : SyntheticEvent} (hs : r.Acting s)
      (h : r.synthesize s.scope e name fields = .ok synthetic) :
      Move ⟨r, some e, .emit s.scope synthetic⟩
        { r with emitted := r.emitted.push synthetic }
  | enter {r : Run} {e : Event} {index : Nat} {f : FsmDefinition} {s : Scenario}
      {state : StateDefinition} {t : Transition} (hs : r.Acting s) (hf : r.OfFsm s index f)
      (hstate : f.state? s.state = some state) (ht : t ∈ state.transitions) :
      Move ⟨r, some e, .enter index f s t.target⟩
        (r.enter index f s.id s.state t.target e.nanos).1
  | merge {r : Run} {e : Event} {index : Nat} :
      Move ⟨r, some e, .merge index⟩ (r.modifyFsm index FsmSchedule.mergePending)
  | retire {r : Run} {e : Event} {index : Nat} :
      Move ⟨r, some e, .retire index⟩ (r.retire index)
  | cancel {r : Run} {s : Scenario} (hs : r.scenario? s.id = some s) (hlive : s.isLive = true) :
      Move ⟨r, none, .cancel s⟩ (r.cancelLive s)
  | dispose {r : Run} : Move ⟨r, none, .dispose⟩ { r with disposed := true }

/-- Moments that lead from one run to another, while an event is handled or none. -/
inductive Path (event : Option Event) : Run → List Moment → Run → Prop
  | nil (r : Run) : Path event r [] r
  | cons {r r' r'' : Run} {act : Act} {ms : List Moment} (move : Move ⟨r, event, act⟩ r')
      (rest : Path event r' ms r'') : Path event r (⟨r, event, act⟩ :: ms) r''

/-- Moments that lead from one run to another. -/
inductive Trace : Run → List Moment → Run → Prop
  | nil (r : Run) : Trace r [] r
  | cons {m : Moment} {r' r'' : Run} {ms : List Moment} (move : Move m r')
      (rest : Trace r' ms r'') : Trace m.run (m :: ms) r''

namespace Trace

variable {r r' r'' : Run} {ms ms' : List Moment}

theorem append (h : Trace r ms r') (h' : Trace r' ms' r'') : Trace r (ms ++ ms') r'' := by
  induction h with
  | nil r => exact h'
  | cons move _ ih => exact .cons move (ih h')

/-- What each act keeps holds at every moment and in the end. -/
theorem invariant {I : Run → Prop} (h : Trace r ms r')
    (step : ∀ m ∈ ms, ∀ r', Move m r' → I m.run → I r') (hr : I r) :
    I r' ∧ ∀ m ∈ ms, I m.run := by
  induction h with
  | nil r => exact ⟨hr, by simp⟩
  | cons move _ ih =>
      have hnext := step _ List.mem_cons_self _ move hr
      obtain ⟨hlast, hall⟩ := ih (fun m hm => step m (List.mem_cons_of_mem _ hm)) hnext
      exact ⟨hlast, List.forall_mem_cons.mpr ⟨hr, hall⟩⟩

theorem exists_move (h : Trace r ms r') : ∀ m ∈ ms, ∃ next, Move m next := by
  induction h with
  | nil r => exact List.forall_mem_nil _
  | cons move _ ih => exact List.forall_mem_cons.mpr ⟨⟨_, move⟩, ih⟩

theorem isChain (h : Trace r ms r') :
    (ms.map (·.run) ++ [r']).IsChain fun r r' => ∃ m ∈ ms, m.run = r ∧ Move m r' := by
  induction h with
  | nil r => exact .singleton r
  | @cons m next last ms move rest ih =>
      have hrest : (ms.map (·.run) ++ [last]).IsChain fun r r' =>
          ∃ m' ∈ m :: ms, m'.run = r ∧ Move m' r' :=
        ih.imp fun r r' ⟨m', hm', hstep⟩ => ⟨m', List.mem_cons_of_mem _ hm', hstep⟩
      have hhead : (ms.map (·.run) ++ [last]).head? = some next := by
        cases rest <;> rfl
      rw [List.map_cons, List.cons_append]
      apply hrest.cons
      intro r hr
      rw [hhead, Option.mem_some_iff] at hr
      exact ⟨m, List.mem_cons_self, rfl, hr ▸ move⟩

end Trace

namespace Path

variable {event : Option Event} {r r' r'' : Run} {ms ms' : List Moment}

theorem single {act : Act} (move : Move ⟨r, event, act⟩ r') :
    Path event r [⟨r, event, act⟩] r' :=
  .cons move (.nil r')

theorem append (h : Path event r ms r') (h' : Path event r' ms' r'') :
    Path event r (ms ++ ms') r'' := by
  induction h with
  | nil r => exact h'
  | cons move _ ih => exact .cons move (ih h')

theorem trace (h : Path event r ms r') : Trace r ms r' := by
  induction h with
  | nil r => exact .nil r
  | cons move _ ih => exact .cons move ih

theorem event_eq (h : Path event r ms r') : ∀ m ∈ ms, m.event = event := by
  induction h with
  | nil r => simp
  | cons move _ ih => exact List.forall_mem_cons.mpr ⟨rfl, ih⟩

end Path

end TraceAutomata
