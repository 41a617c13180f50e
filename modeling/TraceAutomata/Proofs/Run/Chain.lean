import Mathlib.Data.List.Perm.Subperm
import TraceAutomata.Proofs.Run.Completion
import TraceAutomata.Proofs.Run.Delivery
import TraceAutomata.Proofs.Run.Lookup
import TraceAutomata.Proofs.Run.Subject

namespace TraceAutomata

namespace Run

/-- No scenario takes more transitions than it is allowed. -/
def Allowed (ms : List Moment) : Prop :=
  ∀ id, total (·.transitions id) ms ≤ total (·.allowance id) ms

theorem Tends.allowed {since : Nat} {ms : List Moment} (h : Tends none 0 since ms) :
    Allowed ms := fun id => by
  simpa using h.transitions id

theorem Allowed.nil : Allowed [] := fun _ => Nat.le_refl 0

theorem Allowed.append {ms ms' : List Moment} (h : Allowed ms) (h' : Allowed ms') :
    Allowed (ms ++ ms') := by
  intro id
  rw [total_append, total_append]
  exact Nat.add_le_add (h id) (h' id)

theorem Allowed.cons {m : Moment} {ms : List Moment} (hm : ∀ id, m.transitions id = 0)
    (h : Allowed ms) : Allowed (m :: ms) := by
  intro id
  rw [total_cons, total_cons, hm, Nat.zero_add]
  exact Nat.le_add_left_of_le (h id)

theorem Allowed.fold {α : Type} {f : Run → α → Run} {moments : Run → α → List Moment}
    {I : Run → Prop} {list : List α} {r : Run}
    (step : ∀ r a, I r → Allowed (moments r a) ∧ I (f r a)) (hr : I r) :
    Allowed (foldMoments f moments r list) := by
  induction list generalizing r with
  | nil => exact .nil
  | cons a rest ih =>
      obtain ⟨hfirst, hnext⟩ := step r a hr
      exact hfirst.append (ih hnext)

section Events

variable {r : Run} {event : Event}

theorem launchRoot_allowed (hn : r.Numbered) (index : Nat) :
    Allowed (launchRootMoments event r index) :=
  (launch_tends (.inl rfl) _ none hn index).allowed

theorem begin_allowed (hn : r.Numbered) : Allowed (beginMoments event r) := by
  refine .cons (fun _ => rfl) (.fold (I := Numbered) (fun r id hn => ?_) ⟨hn.1, hn.2⟩)
  split
  · next index _ =>
    have hn' := numbered_modifyFsm hn index fun c => { c with isRoot := true }
    exact ⟨.cons (fun _ => rfl) (launchRoot_allowed hn' index),
      (launchRoot_path hn' event index).follows.numbered hn'⟩
  · exact ⟨.nil, hn⟩

theorem startDue_allowed (hn : r.Numbered) (index : Nat) :
    Allowed (startDueMoments event r index) := by
  rw [startDueMoments]
  split
  · split
    · exact .cons (fun _ => rfl) (launchRoot_allowed (numbered_modifyFsm hn _ _) index)
    · exact .nil
  · exact .nil

theorem spawnOn_tends (event : Event) (r : Run) (index : Nat) (parent : String)
    (hn : r.Numbered) : Tends none 0 r.created (spawnOnMoments event r index parent) :=
  launch_tends (.inr rfl) _ (some parent) hn index

theorem offer_allowed (hn : r.Numbered) (f : FsmDefinition) (id : ScenarioId) :
    Allowed (offerMoments f event r id) := by
  rw [offerMoments]
  split
  · split
    · have htends : Tends (some id) 0 r.created
          (handleMoments (spawnOn event) (spawnOnMoments event) event id r) :=
        handle_tends (spawnOn_passage event) (spawnOn_tends event) hn id
      exact fun x => by simpa using htends.transitions x
    · exact .nil
  · exact .nil

theorem visit_allowed (hn : r.Numbered) (index : Nat) :
    Allowed (visitMoments event r index) := by
  refine .cons (fun _ => rfl) (.cons (fun _ => rfl) ?_)
  split
  · next f c _ _ =>
    refine .fold (I := Numbered) (fun r id hn => ⟨offer_allowed hn f id, ?_⟩)
      ((follows_retire _ index).numbered (numbered_modifyFsm hn _ _))
    exact (offer_path hn event f id).follows.numbered hn
  · exact .nil

theorem onEvent_allowed (hn : r.Numbered) : Allowed (r.onEventMoments event) := by
  rw [onEventMoments]
  split
  · exact .nil
  · have harrived : (r.arrived event).Numbered := ⟨hn.1, hn.2⟩
    have hopened := (opened_path harrived event).follows.numbered harrived
    have hdue := (Path.fold (List.range (r.arrived event).opened.fsms.length)
      (fun r' index _ hr' _ => startDue_path hr' event index) hopened).follows.numbered hopened
    refine .append (.cons (fun _ => rfl) (.append ?_ ?_)) ?_
    · split
      · exact .nil
      · exact begin_allowed harrived
    · exact .fold (I := Numbered) (fun r index hn => ⟨startDue_allowed hn index,
        (startDue_path hn event index).follows.numbered hn⟩) hopened
    · split
      · exact .fold (I := Numbered) (fun r index hn => ⟨visit_allowed hn index,
          (visit_path hn event index).follows.numbered hn⟩) hdue
      · exact .nil

end Events

theorem Moment.allowance_of_ne {m : Moment} {id : ScenarioId} (h : m.act ≠ .handle id) :
    m.allowance id = 0 := by
  obtain ⟨r, event, act⟩ := m
  cases act with
  | handle x =>
      have hne : x ≠ id := fun heq => h (congrArg Act.handle heq)
      exact if_neg hne
  | _ => rfl

theorem total_allowance_of_not_mem {ms : List Moment} {id : ScenarioId} (h : id ∉ fed ms) :
    total (·.allowance id) ms = 0 := by
  induction ms with
  | nil => rfl
  | cons m ms ih =>
      have hm : m.act ≠ .handle id := by
        intro hact
        refine h (List.mem_filterMap.mpr ⟨m, List.mem_cons_self, ?_⟩)
        rw [Moment.fed?, hact]
      have hrest : id ∉ fed ms := fun hid => by
        obtain ⟨m', hm', heq⟩ := List.mem_filterMap.mp hid
        exact h (List.mem_filterMap.mpr ⟨m', List.mem_cons_of_mem _ hm', heq⟩)
      rw [total_cons, Moment.allowance_of_ne hm, ih hrest]

theorem total_allowance {ms : List Moment} (h : (fed ms).Nodup) (id : ScenarioId) :
    total (·.allowance id) ms = 0 ∨
      ∃ m ∈ ms, m.act = .handle id ∧ total (·.allowance id) ms = m.run.chainLimit id + 1 := by
  induction ms with
  | nil => exact .inl rfl
  | cons m ms ih =>
      by_cases hact : m.act = .handle id
      · have hfed : fed (m :: ms) = id :: fed ms := by
          refine List.filterMap_cons_some ?_
          rw [Moment.fed?, hact]
        rw [hfed, List.nodup_cons] at h
        refine .inr ⟨m, List.mem_cons_self, hact, ?_⟩
        rw [total_cons, total_allowance_of_not_mem h.1, Moment.allowance, hact]
        simp
      · have hrest : (fed ms).Nodup := by
          refine h.sublist ?_
          exact (List.sublist_cons_self m ms).filterMap Moment.fed?
        rw [total_cons, Moment.allowance_of_ne hact, Nat.zero_add]
        refine (ih hrest).imp_right ?_
        rintro ⟨m', hm', heq⟩
        exact ⟨m', List.mem_cons_of_mem _ hm', heq⟩

theorem exists_of_handle {event : Option Event} {r r' : Run} {ms : List Moment}
    (hpath : Path event r ms r') (hprompt : Prompt ms) {m : Moment} (hm : m ∈ ms)
    {id : ScenarioId} (hact : m.act = .handle id) :
    ∃ s index f, m.run.scenario? id = some s ∧ m.run.OfFsm s index f := by
  induction hpath with
  | nil r => cases hm
  | @cons r next r' act ms move rest ih =>
      rcases List.mem_cons.mp hm with rfl | hm
      · obtain rfl : act = .handle id := hact
        obtain ⟨next, hnext, f, s, hreceive, rfl⟩ := hprompt.1
        cases move
        cases rest with
        | nil r => cases hnext
        | cons move' _ =>
            obtain rfl := Option.mem_some_iff.mp hnext
            subst hreceive
            cases move' with
            | receive hs _ hf => exact ⟨s, _, f, hs, hf⟩
      · exact ih hprompt.2 hm

theorem chainLimit_eq {r : Run} {id : ScenarioId} {s : Scenario} {index : Nat}
    {f : FsmDefinition} (hs : r.scenario? id = some s) (hf : r.OfFsm s index f) :
    r.chainLimit id = r.settings.chainLimit.getD f.states.length := by
  rw [chainLimit, hs, Option.bind_some, hf.2]

section Chains

variable {event : Event} {spawn : Spawn} {id : ScenarioId} {r r' : Run}

def stateOf (id : ScenarioId) (r : Run) : Option String :=
  (r.scenario? id).map (·.state)

theorem scenario?_enter {s : Scenario} (hs : r.scenario? s.id = some s) (index : Nat)
    (f : FsmDefinition) (current next : String) (time : Int64) :
    (r.enter index f s.id current next time).1.scenario? s.id =
      some (moved f current next time s) := by
  have hself : (r.modifyScenario s.id fun _ => moved f current next time s).scenario? s.id =
      some (moved f current next time s) := by
    rw [scenario?_modifyScenario_self r fun _ _ => id_moved f current next time s, hs]
    rfl
  have hscenarios := (enter_spec index f current next time hs).scenarios
  rw [scenario?, hscenarios]
  exact hself

theorem enter_eq_again {s : Scenario} (hs : r.scenario? s.id = some s) {index : Nat}
    {f : FsmDefinition} {current next : String} {time : Int64}
    (h : r.enter index f s.id current next time = (r', .again)) :
    r'.scenario? s.id = some (moved f current next time s) ∧ next ≠ current ∧
      (f.state? next).isSome := by
  have hfound := scenario?_enter hs index f current next time
  rw [h] at hfound
  refine ⟨hfound, ?_⟩
  rw [enter, hs] at h
  simp only at h
  split at h
  · simp at h
  · split at h
    · next hgoes =>
      rw [Bool.and_eq_true, bne_iff_ne, Option.any_eq_true] at hgoes
      obtain ⟨hne, state, hstate, -⟩ := hgoes
      exact ⟨hne, by simp [hstate]⟩
    · simp at h

theorem Again.enters (h : Again spawn event id r r') (hspawning : Spawning event spawn)
    (hn : r.Numbered) :
    ∃ s s' index f, r.scenario? id = some s ∧ r.OfFsm s index f ∧ r'.scenario? id = some s' ∧
      s'.fsm = s.fsm ∧ s'.state ≠ s.state ∧ (f.state? s'.state).isSome := by
  obtain ⟨spawned, hspawn⟩ := hspawning.exists_passage
  rw [Again, step] at h
  split at h
  · simp at h
  · next s hfound =>
    obtain ⟨rfl, hs, hlive⟩ := scenario?_of_filter hfound
    split at h
    · next index f hindex hf =>
      simp only at h
      split at h
      · simp at h
      · split at h
        · have hbusy := busy_receive hn (f := f) hs hlive event
          have hafter := fun actions =>
            (Busy.keep (actions_passage hspawn hbusy actions).keeps hbusy).2.1
          obtain ⟨hfound, hne, hsome⟩ := enter_eq_again (hafter _) h
          rw [moved_eq] at hfound
          exact ⟨s, _, index, f, hs, ⟨hindex, hf⟩, hfound, rfl, hne, hsome⟩
        · simp at h
    · simp at h

theorem Again.keeps (h : Again spawn event id r r') (hspawning : Spawning event spawn)
    (hn : r.Numbered) : Keeps (some id) r r' := by
  obtain ⟨spawned, hspawn⟩ := hspawning.exists_passage
  have hkeeps := (step_passage hspawn hn id).keeps
  rw [h] at hkeeps
  exact hkeeps

theorem moves_of_chain (hspawning : Spawning event spawn) (hn : r.Numbered) {rs : List Run}
    (h : List.IsChain (Again spawn event id) (r :: rs)) :
    List.IsChain (fun q q' => stateOf id q ≠ stateOf id q') (r :: rs) := by
  induction rs generalizing r with
  | nil => exact .singleton r
  | cons next rs ih =>
      obtain ⟨hagain, hrest⟩ := List.isChain_cons_cons.mp h
      refine .cons_cons ?_ (ih ((hagain.keeps hspawning hn).numbered hn) hrest)
      obtain ⟨s, s', -, -, hs, -, hs', -, hne, -⟩ := hagain.enters hspawning hn
      rw [stateOf, stateOf, hs, hs']
      exact fun heq => hne (Option.some.inj heq).symm

theorem states_of_chain (hspawning : Spawning event spawn) (hn : r.Numbered) {s : Scenario}
    {index : Nat} {f : FsmDefinition} (hs : r.scenario? id = some s) (hf : r.OfFsm s index f)
    {rs : List Run} (h : List.IsChain (Again spawn event id) (r :: rs)) :
    ∀ q ∈ rs, ∃ state ∈ f.states, stateOf id q = some state.name := by
  induction rs generalizing r s with
  | nil => exact List.forall_mem_nil _
  | cons next rs ih =>
      obtain ⟨hagain, hrest⟩ := List.isChain_cons_cons.mp h
      have hkeeps := hagain.keeps hspawning hn
      obtain ⟨s', s'', i, g, hs', hg, hs'', hfsm, -, hstate⟩ := hagain.enters hspawning hn
      obtain rfl : s = s' := Option.some.inj (hs.symm.trans hs')
      obtain rfl : f = g := Option.some.inj (hf.2.symm.trans hg.2)
      have hnext : next.OfFsm s'' index f := by
        rw [OfFsm, hkeeps.defs, hfsm]
        exact hf
      refine List.forall_mem_cons.mpr ⟨?_, ih (hkeeps.numbered hn) hs'' hnext hrest⟩
      obtain ⟨state, hfound⟩ := Option.isSome_iff_exists.mp hstate
      have hname : state.name = s''.state := by simpa using List.find?_some hfound
      exact ⟨state, List.mem_of_find?_eq_some hfound, by rw [stateOf, hs'', hname]; rfl⟩

/-- The scenario has taken all the steps that it is allowed on an event, and goes on after each. -/
def Cut (spawn : Spawn) (event : Event) (id : ScenarioId) (r : Run) (rs : List Run) : Prop :=
  rs.length = r.chainLimit id + 1 ∧ List.IsChain (Again spawn event id) (r :: rs)

/-- By default only a chain that has entered some state twice is cut. -/
theorem Cut.not_nodup {rs : List Run} (h : Cut spawn event id r rs)
    (hspawning : Spawning event spawn) (hn : r.Numbered) (hlimit : r.settings.chainLimit = none) :
    ¬ (rs.map (stateOf id)).Nodup := by
  obtain ⟨hlength, hchain⟩ := h
  obtain ⟨next, rest, rfl⟩ := List.exists_cons_of_length_eq_add_one hlength
  obtain ⟨s, -, index, f, hs, hf, -⟩ :=
    (List.isChain_cons_cons.mp hchain).1.enters hspawning hn
  rw [chainLimit_eq hs hf, hlimit, Option.getD_none] at hlength
  intro hnodup
  have hsubset : (next :: rest).map (stateOf id) ⊆ f.states.map fun state => some state.name := by
    intro name hname
    obtain ⟨q, hq, rfl⟩ := List.mem_map.mp hname
    obtain ⟨state, hstate, heq⟩ := states_of_chain hspawning hn hs hf hchain q hq
    exact heq ▸ List.mem_map_of_mem hstate
  have hle := (hnodup.subperm hsubset).length_le
  rw [List.length_map, List.length_map, hlength] at hle
  exact Nat.not_succ_le_self _ hle

theorem chain_ends (allowed : Nat) (r : Run) :
    (∃ rs, rs.length = allowed + 1 ∧ List.IsChain (Again spawn event id) (r :: rs) ∧
      chain spawn event id allowed r = rs.getLastD r) ∨
    ∃ rs, rs.length ≤ allowed ∧ List.IsChain (Again spawn event id) (r :: rs) ∧
      ((rs.getLastD r).step spawn event id).2 ≠ .again ∧
      chain spawn event id allowed r = ((rs.getLastD r).step spawn event id).1 := by
  induction allowed generalizing r with
  | zero =>
      by_cases hagain : (r.step spawn event id).2 = .again
      · exact .inl ⟨[(r.step spawn event id).1], rfl,
          .cons_cons (Prod.ext rfl hagain) (.singleton _), rfl⟩
      · exact .inr ⟨[], Nat.le_refl 0, .singleton r, hagain, rfl⟩
  | succ allowed ih =>
      by_cases hagain : (r.step spawn event id).2 = .again
      · have hstep : Again spawn event id r (r.step spawn event id).1 := Prod.ext rfl hagain
        have hnext : chain spawn event id (allowed + 1) r =
            chain spawn event id allowed (r.step spawn event id).1 := by
          rw [chain, hstep]
        rw [hnext]
        rcases ih (r.step spawn event id).1 with
          ⟨rs, hlength, hchain, hlast⟩ | ⟨rs, hlength, hchain, hends, hlast⟩
        · refine .inl ⟨_ :: rs, congrArg (· + 1) hlength, .cons_cons hstep hchain, ?_⟩
          rw [hlast, List.getLastD_cons]
        · refine .inr ⟨_ :: rs, Nat.succ_le_succ hlength, .cons_cons hstep hchain, ?_⟩
          rw [List.getLastD_cons]
          exact ⟨hends, hlast⟩
      · refine .inr ⟨[], Nat.zero_le _, .singleton r, hagain, ?_⟩
        rw [chain]
        split
        · next hstep => exact (hagain (congrArg Prod.snd hstep)).elim
        · next hstep => rw [List.getLastD_nil, hstep]

end Chains

/-- An event comes to an end, and it takes no scenario further than the limits say. -/
structure Returns (r : Run) (event : Event) : Prop where
  path : Path (some event) r (r.onEventMoments event) (r.onEvent event)
  /-- Starts come to an end wherever they are called for, however deep. -/
  starts : ∀ m ∈ r.onEventMoments event, ∀ depth parent trigger index,
    Completes (.start depth parent trigger index) m.run
      (launch (r.settings.spawnLimit + 1 - depth) parent trigger m.run index)
  handles : ∀ m ∈ r.onEventMoments event, ∀ id,
    Completes (.handle 0 event id) m.run (handle (spawnOn event) event id m.run)
  /-- Nothing is started deeper than is allowed. -/
  deep : ∀ m ∈ r.onEventMoments event, ∀ depth parent trigger index r',
    r.settings.spawnLimit < depth →
      Completes (.start depth parent trigger index) m.run r' → r' = m.run
  /-- A scenario that takes transitions has been handed the event, and takes at most one more than
  its limit says, which is by default the number of the states of its fsm. -/
  transitions : ∀ id, total (·.transitions id) (r.onEventMoments event) = 0 ∨
    ∃ m ∈ r.onEventMoments event, m.act = .handle id ∧ ∃ s f, m.run.scenario? id = some s ∧
      r.defs.fsm? s.fsm = some f ∧ total (·.transitions id) (r.onEventMoments event) ≤
        1 + r.settings.chainLimit.getD f.states.length
  /-- A chain is cut, or it ends with a step after which the scenario does not go on. -/
  chains : ∀ m ∈ r.onEventMoments event, ∀ spawn, Spawning event spawn → ∀ id,
    (∃ rs, Cut spawn event id m.run rs ∧ handle spawn event id m.run = rs.getLastD m.run) ∨
    ∃ rs, rs.length ≤ m.run.chainLimit id ∧ List.IsChain (Again spawn event id) (m.run :: rs) ∧
      ((rs.getLastD m.run).step spawn event id).2 ≠ .again ∧
      handle spawn event id m.run = ((rs.getLastD m.run).step spawn event id).1
  /-- With the default limit, the states that a chain enters before it is cut are not all
  different. -/
  repeats : r.settings.chainLimit = none → ∀ m ∈ r.onEventMoments event, ∀ spawn,
    Spawning event spawn → ∀ id rs, Cut spawn event id m.run rs → ¬ (rs.map (stateOf id)).Nodup
  enters : ∀ m ∈ r.onEventMoments event, ∀ spawn, Spawning event spawn → ∀ id rs,
    List.IsChain (Again spawn event id) (m.run :: rs) →
      List.IsChain (fun q q' => stateOf id q ≠ stateOf id q') (m.run :: rs)

theorem InLine.returns {r : Run} (h : r.InLine) (event : Event) : r.Returns event := by
  have hn := h.staffed.numbered
  have hpath := onEvent_path hn event
  have hall := (hpath.trace.invariant (I := fun q => q.Numbered ∧ q.settings = r.settings ∧
    q.defs = r.defs) (fun m _ _ move hm => ⟨move.follows.numbered hm.1,
      move.follows.settings.trans hm.2.1, move.follows.defs.trans hm.2.2⟩) ⟨hn, rfl, rfl⟩).2
  constructor
  case path => exact hpath
  case starts =>
    intro m hm depth parent trigger index
    obtain ⟨hm, hsettings, -⟩ := hall m hm
    exact launch_completes parent trigger hm (by rw [hsettings]) index
  case handles => exact fun m hm id => handle_spawnOn_completes (hall m hm).1 event id
  case deep =>
    intro m hm depth parent trigger index r' hdepth hcompletes
    exact hcompletes.eq_of_deep ((hall m hm).2.1 ▸ hdepth)
  case transitions =>
    intro id
    have hallowed : Allowed (r.onEventMoments event) := onEvent_allowed hn
    have hid := hallowed id
    cases hdisposed : r.disposed with
    | true => exact .inl (by simp [onEventMoments, hdisposed])
    | false =>
        have hdelivers := h.deliversOnce hdisposed event
        rcases total_allowance hdelivers.once id with hzero | ⟨m, hm, hact, htotal⟩
        · exact .inl (by omega)
        · obtain ⟨s, index, f, hs, hf⟩ := exists_of_handle hpath hdelivers.prompt hm hact
          obtain ⟨-, hsettings, hdefs⟩ := hall m hm
          rw [chainLimit_eq hs hf, hsettings] at htotal
          exact .inr ⟨m, hm, hact, s, f, hs, hdefs ▸ hf.2, by omega⟩
  case chains =>
    intro m hm spawn hspawning id
    refine (chain_ends (m.run.chainLimit id) m.run).imp_left ?_
    rintro ⟨rs, hlength, hchain, hlast⟩
    exact ⟨rs, ⟨hlength, hchain⟩, hlast⟩
  case repeats =>
    intro hlimit m hm spawn hspawning id rs hcut
    obtain ⟨hm, hsettings, -⟩ := hall m hm
    exact hcut.not_nodup hspawning hm (by rw [hsettings]; exact hlimit)
  case enters =>
    intro m hm spawn hspawning id rs hchain
    obtain ⟨hm, -, -⟩ := hall m hm
    exact moves_of_chain hspawning hm hchain

/-- Whatever has happened to a run, and on whatever store it was started, it comes to an end with
every event, and no event takes a scenario further than the settings allow. -/
theorem events_return {d : DefinitionDocument} {defs : DefinitionSet} (h : d.compile = .ok defs)
    {store : Store} {settings : RunSettings} {r : Run}
    (hstart : Run.start defs store settings = .ok r) (calls : List Call) (event : Event) :
    (r.performAll calls).defs = defs ∧ (r.performAll calls).settings = settings ∧
      (r.performAll calls).Returns event := by
  have hr := start_inLine h hstart
  have htrace := performAll_trace hr.staffed.numbered calls
  have hline := (htrace.invariant (fun _ _ _ move => InLine.move move) hr).1
  obtain ⟨st, root, -, rfl⟩ := start_eq_ok_iff.mp hstart
  exact ⟨htrace.follows.defs, htrace.follows.settings, hline.returns event⟩

/-- A job that goes to and fro between two automatic states is cut when it has taken one transition more
than its fsm has states. -/
theorem events_return_sample :
    let calls : List Call := [.event ⟨⟨1, 0⟩, "begin", ∅, none⟩]
    let event : Event := ⟨⟨2, 0⟩, "turn", ∅, none⟩
    ∃ defs r f, DefinitionDocument.nested.compile = .ok defs ∧
      Run.start defs (Store.empty 0) { spawnLimit := 2 } = .ok r ∧
      defs.fsm? "job" = some f ∧ f.states.length = 4 ∧
      total (·.transitions 1) ((r.performAll calls).onEventMoments event) = 5 ∧
      (r.performAll calls).Returns event := by
  intro calls event
  obtain ⟨defs, r, hcompile, hstart, hcheck⟩ :=
    DefinitionDocument.nested.exists_of_checks { spawnLimit := 2 } 0
      (fun defs r => decide ((defs.fsm? "job").map (·.states.length) = some 4 ∧
        total (·.transitions 1) ((r.performAll calls).onEventMoments event) = 5))
      (by decide +kernel)
  obtain ⟨hlength, htotal⟩ := of_decide_eq_true hcheck
  obtain ⟨f, hf, hlength⟩ := Option.map_eq_some_iff.mp hlength
  exact ⟨defs, r, f, hcompile, hstart, hf, hlength, htotal,
    (events_return hcompile hstart calls event).2.2⟩

end Run

end TraceAutomata
