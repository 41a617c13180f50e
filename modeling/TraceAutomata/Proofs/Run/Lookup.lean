import Mathlib.Logic.Relation
import TraceAutomata.Proofs.Definition.Closed
import TraceAutomata.Proofs.Run.Effect
import TraceAutomata.Proofs.Run.Start

namespace TraceAutomata

namespace DefinitionSet

/-- The fsm of a scenario is found, and in it the state in which the scenario is. -/
def Places (d : DefinitionSet) (s : Scenario) : Prop :=
  ∃ index f state, d.fsmIndex? s.fsm = some index ∧ d.fsm? s.fsm = some f ∧
    f.state? s.state = some state

/-- Whatever a scenario looks up in a state of an fsm is found. -/
structure Serves (d : DefinitionSet) (f : FsmDefinition) (state : StateDefinition) : Prop where
  inputs : ∀ t ∈ state.transitions, ∀ id ∈ t.inputs, id ≠ TransitionInput.other → d.KnowsTest id
  actions : ∀ ctx, ∀ id ∈ (d.resolve state ctx).actions, d.KnowsAction id
  next : ∀ ctx, (f.state? (d.resolve state ctx).next).isSome

variable {d : DefinitionSet} {f : FsmDefinition} {s s' : Scenario}

theorem Places.of_mem (hnodup : (d.fsms.map (·.id)).Nodup) (hf : f ∈ d.fsms)
    (hfsm : s.fsm = f.id) (hstate : (f.state? s.state).isSome) : d.Places s := by
  obtain ⟨index, hindex⟩ := List.getElem?_of_mem hf
  obtain ⟨state, hstate⟩ := Option.isSome_iff_exists.mp hstate
  rw [Places, hfsm]
  exact ⟨index, f, state, fsmIndex?_of_getElem? hnodup hindex, fsm?_of_mem hnodup hf, hstate⟩

theorem Places.congr (h : d.Places s) (fsm : s'.fsm = s.fsm) (state : s'.state = s.state) :
    d.Places s' := by
  rw [Places, fsm, state]
  exact h

theorem Closed.serves (h : d.Closed) (hf : f ∈ d.fsms) {name : String}
    {state : StateDefinition} (hstate : f.state? name = some state) : d.Serves f state := by
  have hmem : state ∈ f.states := List.mem_of_find?_eq_some hstate
  refine ⟨h.inputs f hf state hmem, fun ctx id hid => ?_, fun ctx => ?_⟩
  · rw [resolve] at hid
    split at hid
    · next t hfound =>
      exact h.actions f hf state hmem t (List.mem_of_find?_eq_some hfound) id hid
    · cases hid
  · rw [resolve]
    split
    · next t hfound => exact h.target f hf state hmem t (List.mem_of_find?_eq_some hfound)
    · have hname : state.name = name := by simpa using List.find?_some hstate
      rw [hname, hstate]
      rfl

end DefinitionSet

namespace Run

theorem Alters.places {m : Moment} {s s' : Scenario} {groups : List (List Write)}
    (hwf : m.run.defs.WellFormed) (halters : Alters m s s' groups) (hs : m.run.defs.Places s) :
    m.run.defs.Places s' := by
  cases halters with
  | receive _ => exact hs.congr rfl rfl
  | change _ => exact hs
  | save _ => exact hs
  | enter _ hf hstate ht =>
      obtain ⟨hmem, hid⟩ := (DefinitionSet.fsm?_eq_some_iff hwf.nodup_ids).mp hf.2
      have htarget := (hwf.fsm _ hmem).state_target _ (List.mem_of_find?_eq_some hstate) _ ht
      rw [moved_eq]
      exact .of_mem hwf.nodup_ids hmem hid.symm htarget
  | cancel =>
      rw [advance_eq]
      exact hs.congr rfl rfl

/-- The fsm and the state of every scenario are found, as the definitions have them. -/
structure Placed (r : Run) (d : DefinitionSet) : Prop where
  defs : r.defs = d
  numbered : r.Numbered
  places : ∀ s ∈ r.scenarios, d.Places s

section Placed

variable {d : DefinitionSet} {r r' : Run}

theorem Placed.move {m : Moment} (hwf : d.WellFormed) (move : Move m r') (h : m.run.Placed d) :
    r'.Placed d := by
  obtain ⟨rfl, hn, hplaces⟩ := h
  refine ⟨move.follows.defs, move.follows.numbered hn, ?_⟩
  apply (Effect.of_move hn move).forall_scenarios _ _ hplaces
  · intro f hf sequence parent subtree
    exact .of_mem hwf.nodup_ids hf rfl (hwf.fsm f hf).state_initial
  · intro s s' groups _ halters
    exact halters.places hwf

theorem Placed.trace (h : r.Placed d) (hwf : d.WellFormed) {ms : List Moment}
    (htrace : Trace r ms r') : r'.Placed d ∧ ∀ m ∈ ms, m.run.Placed d :=
  htrace.invariant (I := fun r => r.Placed d) (fun _ _ _ move => Placed.move hwf move) h

/-- How scenarios start others on an event: those that the event is handed to, and those that have
themselves been started on it. -/
inductive Spawning (event : Event) : Spawn → Prop
  | handed : Spawning event (spawnOn event)
  | nested (budget : Nat) :
      Spawning event fun r index parent => launch budget (some parent) (some event) r index

variable {event : Event} {spawn : Spawn}

theorem Spawning.exists_passage (h : Spawning event spawn) :
    ∃ spawned : Run → Nat → String → List Moment, ∀ r index parent, r.Numbered →
      Passage event none r (spawned r index parent) (spawn r index parent) := by
  cases h with
  | handed => exact ⟨_, fun r index parent hn => launch_passage (.inr rfl) _ _ hn index⟩
  | nested budget => exact ⟨_, fun r index parent hn => launch_passage (.inr rfl) budget _ hn index⟩

theorem spawnAll_eq_ok (h : Spawning event spawn) (hn : r.Numbered) (parent : String)
    {fsms : List String} (hknown : ∀ fsm ∈ fsms, r.defs.KnowsFsm fsm) :
    ∃ r', spawnAll spawn parent fsms r = .ok () r' := by
  obtain ⟨spawned, hspawn⟩ := h.exists_passage
  induction fsms generalizing r with
  | nil => exact ⟨r, rfl⟩
  | cons fsm rest ih =>
      obtain ⟨index, f, hindex, -⟩ := hknown fsm List.mem_cons_self
      have hkeeps := (hspawn r index parent hn).keeps
      simp only [spawnAll_cons, hindex]
      apply ih (hkeeps.numbered hn)
      intro fsm hfsm
      rw [hkeeps.defs]
      exact hknown fsm (List.mem_cons_of_mem _ hfsm)

def Again (spawn : Spawn) (event : Event) (id : ScenarioId) (r r' : Run) : Prop :=
  r.step spawn event id = (r', .again)

theorem enter_ne_failed (r : Run) (index : Nat) (f : FsmDefinition) (id : ScenarioId)
    (current next : String) (time : Int64) (fault : Fault) :
    (r.enter index f id current next time).2 ≠ .failed fault := by
  rw [enter]
  split
  · simp
  · simp only
    split
    · simp
    · split <;> simp

theorem Placed.step_ne_failed (h : r.Placed d) (spawn : Spawn) (event : Event) (id : ScenarioId)
    (fault : Fault) : (r.step spawn event id).2 ≠ .failed fault := by
  rw [step]
  split
  · simp
  · next s hfound =>
    obtain ⟨rfl, hs, -⟩ := scenario?_of_filter hfound
    obtain ⟨index, f, state, hindex, hf, hstate⟩ := h.places s (mem_of_scenario? hs)
    rw [← h.defs] at hindex hf
    simp only [hindex, hf, hstate]
    split
    · apply enter_ne_failed
    · simp

theorem Placed.chained (h : r.Placed d) (hwf : d.WellFormed) (hspawning : Spawning event spawn)
    {id : ScenarioId} (hchain : Relation.ReflTransGen (Again spawn event id) r r') :
    r'.Placed d := by
  obtain ⟨spawned, hspawn⟩ := hspawning.exists_passage
  induction hchain with
  | refl => exact h
  | @tail r' r'' _ hagain ih =>
      have hpath := (step_passage hspawn ih.numbered id).path
      rw [hagain] at hpath
      exact (ih.trace hwf hpath.trace).1

end Placed

/-- Whatever is looked up by name on behalf of a scenario is found: its fsm and its state, what the
state refers to, what is needed in all steps on one event, and the fsms that an action starts. -/
structure Resolves (r : Run) (d : DefinitionSet) : Prop where
  defs : r.defs = d
  places : ∀ s ∈ r.scenarios, ∃ index f state, r.OfFsm s index f ∧
    f.state? s.state = some state ∧ d.Serves f state
  step_ne_failed : ∀ event spawn, Spawning event spawn → ∀ id r',
    Relation.ReflTransGen (Again spawn event id) r r' →
      ∀ fault, (r'.step spawn event id).2 ≠ .failed fault
  spawns : ∀ event spawn, Spawning event spawn → ∀ id ops fsms, d.action id = .ok ops →
    .spawn fsms ∈ ops → ∀ scope, ∃ r', operate spawn scope event (.spawn fsms) r = .ok () r'

theorem Placed.resolves {r : Run} {d : DefinitionSet} (h : r.Placed d) (hwf : d.WellFormed)
    (hclosed : d.Closed) : r.Resolves d where
  defs := h.defs
  places s hs := by
    obtain ⟨index, f, state, hindex, hf, hstate⟩ := h.places s hs
    have hmem := ((DefinitionSet.fsm?_eq_some_iff hwf.nodup_ids).mp hf).1
    rw [← h.defs] at hindex hf
    exact ⟨index, f, state, ⟨hindex, hf⟩, hstate, hclosed.serves hmem hstate⟩
  step_ne_failed event spawn hspawning id r' hchain fault :=
    (h.chained hwf hspawning hchain).step_ne_failed spawn event id fault
  spawns event spawn hspawning id ops fsms haction hop scope := by
    refine spawnAll_eq_ok hspawning h.numbered scope.fsm ?_
    rw [h.defs]
    exact hclosed.spawns id ops fsms haction hop

theorem start_eq_ok {defs : DefinitionSet} {store : Store} {settings : RunSettings} {r : Run}
    (h : Run.start defs store settings = .ok r) : r.defs = defs ∧ r.scenarios = [] := by
  obtain ⟨st, root, -, rfl⟩ := start_eq_ok_iff.mp h
  exact ⟨rfl, rfl⟩

/-- Definitions that compile name nothing that is not there, and in all of their runs, on any store,
every lookup by name on behalf of a scenario succeeds, at every moment. -/
theorem lookups_succeed {d : DefinitionDocument} {defs : DefinitionSet}
    (h : d.compile = .ok defs) :
    defs.Closed ∧ ∀ store settings r, Run.start defs store settings = .ok r →
      ∀ calls, (r.performAll calls).Resolves defs ∧ ∀ m ∈ r.moments calls, m.run.Resolves defs := by
  have hcompiles := (DefinitionDocument.compile_eq_ok_iff d defs).mp h
  refine ⟨hcompiles.closed, fun store settings r hstart calls => ?_⟩
  obtain ⟨hdefs, hscenarios⟩ := start_eq_ok hstart
  have hn : r.Numbered := ⟨by simp [hscenarios], by simp [hscenarios]⟩
  have hplaced : r.Placed defs := ⟨hdefs, hn, by simp [hscenarios]⟩
  obtain ⟨hlast, hall⟩ := hplaced.trace hcompiles.wellFormed (performAll_trace hn calls)
  exact ⟨hlast.resolves hcompiles.wellFormed hcompiles.closed,
    fun m hm => (hall m hm).resolves hcompiles.wellFormed hcompiles.closed⟩

theorem lookups_succeed_sample :
    ∃ defs r, DefinitionDocument.sample.compile = .ok defs ∧
      Run.start defs (Store.empty 0) {} = .ok r ∧ defs.Closed ∧
      ∀ calls, (r.performAll calls).Resolves defs ∧ ∀ m ∈ r.moments calls, m.run.Resolves defs := by
  obtain ⟨defs, hcompile⟩ := DefinitionDocument.exists_compile_sample
  obtain ⟨r, hstart, -⟩ := exists_start defs {} 0
  obtain ⟨hclosed, hruns⟩ := lookups_succeed hcompile
  exact ⟨defs, r, hcompile, hstart, hclosed, hruns _ _ r hstart⟩

end Run

end TraceAutomata
