import TraceAutomata.Proofs.Run.Transit

namespace TraceAutomata

theorem Interval.ongoing_append_of_last {writes writes' : List Interval} {value : Value}
    (h : (writes'.map Interval.value).getLast? = some value) :
    ongoing (writes ++ writes') = value := by
  rw [List.getLast?_map] at h
  obtain ⟨w, hw, rfl⟩ := Option.map_eq_some_iff.mp h
  rw [ongoing, List.getLast?_append, hw]
  rfl

theorem Value.Agrees.eq_null {value : Value} (h : value.Agrees .null) : value = .null := by
  rcases h with h | ⟨_, _, _, hdouble, -⟩
  · exact h
  · cases hdouble

namespace DefinitionDocument.Compiles

variable {d : DefinitionDocument} {defs : DefinitionSet} (h : d.Compiles defs)

include h

theorem action_saveScratchId : defs.action Operation.saveScratchId = .ok [.saveScratch] := by
  rw [DefinitionSet.action_eq_ok_iff, h.find?_actions]
  rfl

theorem action_clearScratchId : defs.action Operation.clearScratchId = .ok [.clearScratch] := by
  rw [DefinitionSet.action_eq_ok_iff, h.find?_actions]
  rfl

end DefinitionDocument.Compiles

theorem DefinitionSet.operations_of_action {d : DefinitionSet} {id : String} {ops : List Operation}
    (h : d.action id = .ok ops) : d.operations id = ops := by
  rw [operations, action_eq_ok_iff.mp h]
  rfl

namespace Run

/-- What a scenario has in its slots after a save, by what it had before. -/
def SlotsSaved (q : Run) (event : Event) (name : String) (r : Run) : Prop :=
  ∀ slot, match q.defs.savedIn event slot with
    | some value => (r.slotValue name slot).Agrees value
    | none => r.slotValue name slot = q.slotValue name slot

def SlotsCleared (name : String) (r : Run) : Prop :=
  ∀ slot ∈ r.defs.scratchFields.values, r.slotValue name slot = .null

/-- The acts begin with nothing in the slots, leave these to saves and clears, and are made on
events in the order of their times. -/
structure SlotsSpared (r : Run) (ms : List Moment) : Prop where
  fresh : SlotsShown [] r
  settled : r.Settled
  spares : ∀ m ∈ ms, m.Spares Layout.isScratch
  ordered : ms.Pairwise fun m m' => ∀ e e', m.event = some e → m'.event = some e' →
    e.nanos ≤ e'.nanos

namespace SlotsSpared

variable {r q q' : Run} {past ms : List Moment} {event : Event} {name slot : String}

theorem before (h : SlotsSpared r (past ++ ms)) : SlotsSpared r past :=
  ⟨h.fresh, h.settled, fun m hm => h.spares m (List.mem_append_left _ hm),
    (List.pairwise_append.mp h.ordered).1⟩

theorem agrees (h : SlotsSpared r past) (hpast : Trace r past q) (name slot : String) :
    (q.slotValue name slot).Agrees (Interval.ongoing (slotWrites name slot past)) :=
  slotValue_agrees (h.fresh.trace h.settled.grounded hpast h.spares h.ordered)
    (h.settled.trace hpast).grounded name slot

section Stretch

variable (h : SlotsSpared r (past ++ ms)) (hpast : Trace r past q) (htrace : Trace q ms q')

include h hpast htrace

theorem kept (hnone : slotWrites name slot ms = []) :
    q'.slotValue name slot = q.slotValue name slot :=
  slotValue_of_trace (h.settled.trace hpast).grounded htrace
    (fun m hm => h.spares m (List.mem_append_right _ hm)) hnone

theorem agrees_last {value : Value}
    (hlast : ((slotWrites name slot ms).map Interval.value).getLast? = some value) :
    (q'.slotValue name slot).Agrees value := by
  have hagrees := h.agrees (hpast.append htrace) name slot
  rw [slotWrites_append, Interval.ongoing_append_of_last hlast] at hagrees
  exact hagrees

theorem slotsSaved (hlast : ∀ slot,
    ((slotWrites name slot ms).map Interval.value).getLast? = q.defs.savedIn event slot) :
    SlotsSaved q event name q' := by
  intro slot
  have hput := hlast slot
  cases hsaved : q.defs.savedIn event slot with
  | some value => exact h.agrees_last hpast htrace (hput.trans hsaved)
  | none =>
      rw [hsaved, List.getLast?_eq_none_iff, List.map_eq_nil_iff] at hput
      exact h.kept hpast htrace hput

theorem slotsCleared (hlast : ∀ slot, ((slotWrites name slot ms).map Interval.value).getLast? =
    if slot ∈ q.defs.scratchFields.values then some .null else none) : SlotsCleared name q' := by
  intro slot hslot
  rw [htrace.follows.defs] at hslot
  exact (h.agrees_last hpast htrace ((hlast slot).trans (if_pos hslot))).eq_null

end Stretch

end SlotsSpared

section Operations

variable {r : Run} {event : Event} {op : Operation} {entries : List (String × Value)}

theorem foldActions_of_slots {spawn : Spawn} {spawned : Run → Nat → String → List Moment}
    {scope : ActionScope} {id : String} (haction : r.defs.action id = .ok [op])
    (hentries : r.slotEntries event op = some entries) :
    foldMoments (runAction spawn scope event) (actionMoments spawn spawned event scope) r [id] =
      ⟨r, some event, .operate scope op⟩ :: slotMoments event scope r entries := by
  simp only [foldMoments, actionMoments, haction, List.append_nil]
  cases op with
  | saveScratch =>
      obtain rfl := Option.some.inj hentries
      rfl
  | clearScratch =>
      obtain rfl := Option.some.inj hentries
      rfl
  | stateChange _ _ => cases hentries
  | synthetic _ _ => cases hentries
  | spawn _ => cases hentries

theorem getLast?_foldActions {spawn : Spawn} {spawned : Run → Nat → String → List Moment}
    {scope : ActionScope} {id : String} (haction : r.defs.action id = .ok [op])
    (hentries : r.slotEntries event op = some entries) (slot : String) :
    ((slotWrites scope.scenario slot (foldMoments (runAction spawn scope event)
      (actionMoments spawn spawned event scope) r [id])).map Interval.value).getLast? =
        (⟨r, some event, .operate scope op⟩ : Moment).puts? scope.scenario slot := by
  rw [foldActions_of_slots haction hentries]
  exact getLast?_operation hentries scope slot

end Operations

/-- The act is one of the writes of an operation of a scenario, by what came before. -/
def FollowsOperation (name : String) (op : Operation) (past : List Moment) (m : Moment) : Prop :=
  ∃ before q scope writes, scope.scenario = name ∧
    past = before ++ ⟨q, m.event, .operate scope op⟩ :: writes ∧ ∀ w ∈ writes, w.writesSlot = true

/-- Actions that a busy scenario runs, from one run to another. -/
structure Stage (s : Scenario) (d : DefinitionSet) (ids : List String) (r : Run)
    (ms : List Moment) (r' : Run) : Prop where
  trace : Trace r ms r'
  operations : ms.filterMap (Moment.operation? s.name) = ids.flatMap d.operations
  owned : Owned ms
  engaged : Engaged s d r'

section Stages

variable {s : Scenario} {d : DefinitionSet} {event : Event} {spawn : Spawn}
  {spawned : Run → Nat → String → List Moment} {r r' : Run} {ids : List String}
  {ms : List Moment}

theorem Engaged.stage (h : Engaged s d r) (starter : Starter event spawn spawned)
    (hspawned : ∀ r index parent, r.Numbered → Composed (spawned r index parent))
    (ids : List String) :
    Stage s d ids r
      (foldMoments (runAction spawn s.scope event) (actionMoments spawn spawned event s.scope) r
        ids)
      (ids.foldl (runAction spawn s.scope event) r) :=
  have hpassage := foldActions_passage starter h.busy ids
  ⟨hpassage.path.trace, operations_actions starter h ids,
    (foldActions_composed starter hspawned h.busy ids).owned, h.passage hpassage⟩

theorem Stage.operation_of_write (h : Stage s d ids r ms r') {past rest : List Moment} {m : Moment}
    {slot : String} {w : Interval} (hsplit : ms = past ++ m :: rest)
    (hwrite : m.slotWrite? s.name slot = some w) :
    ∃ op ∈ ids.flatMap d.operations, op.writesSlots = true ∧ FollowsOperation s.name op past m := by
  obtain ⟨e, scope, -, hname, hact, -⟩ := Moment.slotWrite?_eq_some hwrite
  obtain ⟨before, q, op, writes, rfl, hop, hwrites⟩ := h.owned past m rest hsplit scope slot _ hact
  refine ⟨op, ?_, hop, before, q, scope, writes, hname, rfl, hwrites⟩
  rw [← h.operations, hsplit]
  refine List.mem_filterMap.mpr ⟨⟨q, m.event, .operate scope op⟩, ?_, if_pos hname⟩
  simp

theorem Stage.slotWrites_eq_nil (h : Stage s d ids r ms r')
    (hops : ∀ op ∈ ids.flatMap d.operations, op.writesSlots = false) (slot : String) :
    slotWrites s.name slot ms = [] := by
  rw [slotWrites, List.filterMap_eq_nil_iff]
  intro m hm
  rw [Option.eq_none_iff_forall_ne_some]
  intro w hw
  obtain ⟨past, rest, hsplit⟩ := List.append_of_mem hm
  obtain ⟨op, hop, hwrites, -⟩ := h.operation_of_write hsplit hw
  rw [hops op hop] at hwrites
  cases hwrites

section Spared

variable (h : Stage s d ids r ms r') (hsettled : r.Settled)
  (hspares : ∀ m ∈ ms, m.Spares Layout.isScratch)

include h hsettled hspares

theorem Stage.changed {past rest : List Moment} {m : Moment} {next : Run}
    (hsplit : ms = past ++ m :: rest) (move : Move m next) {slot : String}
    (hne : next.slotValue s.name slot ≠ m.run.slotValue s.name slot) :
    ∃ op ∈ ids.flatMap d.operations, op.writesSlots = true ∧ FollowsOperation s.name op past m := by
  cases hwrite : m.slotWrite? s.name slot with
  | some w => exact h.operation_of_write hsplit hwrite
  | none =>
      have htrace := h.trace
      rw [hsplit] at htrace hspares
      refine absurd (slotValue_of_trace (hsettled.trace htrace.before).grounded
        (.cons move (.nil next)) (List.forall_mem_singleton.mpr ?_) ?_) hne
      · exact hspares m (List.mem_append_right _ List.mem_cons_self)
      · exact List.filterMap_cons_none hwrite

theorem Stage.untouched (hops : ∀ op ∈ ids.flatMap d.operations, op.writesSlots = false)
    (slot : String) :
    (∀ m ∈ ms, m.run.slotValue s.name slot = r.slotValue s.name slot) ∧
      r'.slotValue s.name slot = r.slotValue s.name slot := by
  have hnone := h.slotWrites_eq_nil hops slot
  refine ⟨fun m hm => ?_, slotValue_of_trace hsettled.grounded h.trace hspares hnone⟩
  obtain ⟨past, rest, rfl⟩ := List.append_of_mem hm
  rw [slotWrites_append, List.append_eq_nil_iff] at hnone
  exact slotValue_of_trace hsettled.grounded h.trace.before
    (fun m hm => hspares m (List.mem_append_left _ hm)) hnone.1

end Spared

end Stages

/-- The acts of a transition, once the scenario has noted the event: the saving, if there is one,
then the declared actions, then the clearing, if there is one, and the entry into the next state.
-/
inductive FramesSlots (q : Run) (event : Event) (f : FsmDefinition) (s : Scenario)
    (t : Transition) : List Moment → Prop
  | intro {saves declared clears after : List Moment} {started ended entered left : Run}
      {index : Nat} (saving : Trace (q.receive f s event) saves started)
      (acting : Trace started declared ended) (clearing : Trace ended clears entered)
      (entering : Move ⟨entered, some event,
        .enter index f { s with lastEvent := some q.received } t.target⟩ left)
      -- The operations of the scenario are those of its actions, whatever others do meanwhile.
      (save_operations : saves.filterMap (Moment.operation? s.name) =
        if t.saveScratch then [.saveScratch] else [])
      (declared_operations : declared.filterMap (Moment.operation? s.name) =
        t.actions.flatMap q.defs.operations)
      (clear_operations : clears.filterMap (Moment.operation? s.name) =
        if t.clearScratch then [.clearScratch] else [])
      (saved : if t.saveScratch then SlotsSaved q event s.name started
        else started = q.receive f s event)
      -- Between saving and clearing, declared operations alone change a slot of the scenario.
      (changed : ∀ past m rest next, declared = past ++ m :: rest → Move m next → ∀ slot,
        next.slotValue s.name slot ≠ m.run.slotValue s.name slot →
          ∃ op ∈ t.actions.flatMap q.defs.operations, op.writesSlots = true ∧
            FollowsOperation s.name op past m)
      (untouched : (∀ op ∈ t.actions.flatMap q.defs.operations, op.writesSlots = false) →
        ∀ slot, (∀ m ∈ declared, m.run.slotValue s.name slot = started.slotValue s.name slot) ∧
          ended.slotValue s.name slot = started.slotValue s.name slot)
      (cleared : if t.clearScratch then SlotsCleared s.name entered ∧ SlotsCleared s.name left
        else entered = ended) :
      FramesSlots q event f s t (saves ++ declared ++ clears ++
        ⟨entered, some event, .enter index f { s with lastEvent := some q.received } t.target⟩ ::
          after)

section Framing

variable {d : DefinitionDocument} {r q last : Run} {event : Event} {f : FsmDefinition}
  {s : Scenario} {index : Nat} {state : StateDefinition} {t : Transition} {spawn : Spawn}
  {spawned : Run → Nat → String → List Moment} {past rest : List Moment}

/-- The stages of a transition put together, where no other act writes to slots. -/
theorem SlotsSpared.framesSlots {saves declared clears after : List Moment}
    {started ended entered left : Run} {s' : Scenario}
    (hs' : s' = { s with lastEvent := some q.received })
    (h : SlotsSpared r (past ++ ⟨q, some event, .receive f s⟩ :: saves ++ declared ++ clears ++
      ⟨entered, some event, .enter index f s' t.target⟩ :: after))
    (hpast : Trace r past q) (hcompiles : d.Compiles q.defs)
    (receiving : Move ⟨q, some event, .receive f s⟩ (q.receive f s event))
    (saving : Stage s' q.defs (if t.saveScratch then [Operation.saveScratchId] else [])
      (q.receive f s event) saves started)
    (acting : Stage s' q.defs t.actions started declared ended)
    (clearing : Stage s' q.defs (if t.clearScratch then [Operation.clearScratchId] else [])
      ended clears entered)
    (entering : Move ⟨entered, some event, .enter index f s' t.target⟩ left)
    (hsaved : if t.saveScratch then
        ∀ slot, ((slotWrites s.name slot saves).map Interval.value).getLast? =
          q.defs.savedIn event slot
      else started = q.receive f s event)
    (hcleared : if t.clearScratch then
        ∀ slot, ((slotWrites s.name slot clears).map Interval.value).getLast? =
          if slot ∈ q.defs.scratchFields.values then some .null else none
      else entered = ended) :
    q.FramesSlots event f s t (saves ++ declared ++ clears ++
      ⟨entered, some event, .enter index f s' t.target⟩ :: after) := by
  subst hs'
  have hspares : ∀ m ∈ declared, m.Spares Layout.isScratch := fun m hm =>
    h.spares m (by simp [hm])
  have hstarted : Trace q (⟨q, some event, .receive f s⟩ :: saves) started :=
    .cons receiving saving.trace
  have hended := (hpast.append hstarted).append acting.trace
  refine .intro saving.trace acting.trace clearing.trace entering ?saves acting.operations
    ?clears ?saved
    (fun past m rest next hsplit move slot hne =>
      acting.changed saving.engaged.settled hspares hsplit move hne)
    (fun hops slot => acting.untouched saving.engaged.settled hspares hops slot) ?cleared
  case saves =>
    refine saving.operations.trans ?_
    split <;> simp [DefinitionSet.operations_of_action hcompiles.action_saveScratchId]
  case clears =>
    refine clearing.operations.trans ?_
    split <;> simp [DefinitionSet.operations_of_action hcompiles.action_clearScratchId]
  case saved =>
    split at hsaved
    · next hsave =>
      rw [if_pos hsave]
      exact h.before.before.before.slotsSaved hpast hstarted hsaved
    · next hsave =>
      rw [if_neg hsave]
      exact hsaved
  case cleared =>
    split at hcleared
    · next hclear =>
      rw [if_pos hclear]
      have hentered : SlotsCleared s.name entered := by
        refine h.before.slotsCleared hended clearing.trace fun slot => ?_
        rw [acting.engaged.defs]
        exact hcleared slot
      refine ⟨hentered, fun slot hslot => ?_⟩
      rw [entering.follows.defs] at hslot
      rw [← hentered slot hslot]
      refine slotValue_of_trace clearing.engaged.settled.grounded (.cons entering (.nil left))
        (List.forall_mem_singleton.mpr ?_) rfl
      exact h.spares _ (List.mem_append_right _ List.mem_cons_self)
    · next hclear =>
      rw [if_neg hclear]
      exact hcleared

theorem SlotsSpared.framesSlots_of_taking
    (h : SlotsSpared r (past ++ ⟨q, some event, .receive f s⟩ :: rest))
    (htrace : Trace r (past ++ ⟨q, some event, .receive f s⟩ :: rest) last)
    (hcompiles : d.Compiles q.defs) (htaking : q.Taking event f s index state spawn spawned)
    (hspawned : ∀ r index parent, r.Numbered → Composed (spawned r index parent))
    {after : List Moment} (hrest : rest =
      actionsMoments spawn spawned event s.id t.actionIds (q.receive f s event) ++
        ⟨runActions spawn s.id event t.actionIds (q.receive f s event), some event,
          .enter index f { s with lastEvent := some q.received } t.target⟩ :: after) :
    q.FramesSlots event f s t rest := by
  subst hrest
  have hbusy := busy_receive htaking.numbered (f := f) htaking.found htaking.live event
  have hscenario : (q.receive f s event).scenario? s.id =
      some { s with lastEvent := some q.received } := hbusy.2.1
  have hdefs : (q.receive f s event).defs = q.defs := (keeps_receive q f s event).defs
  obtain ⟨_, -, hfrom⟩ := htrace.of_append
  obtain ⟨-, received, receiving, hfollow⟩ := hfrom.of_cons
  obtain rfl : q.receive f s event = received := by
    cases receiving
    rfl
  have hengaged : Engaged { s with lastEvent := some q.received } q.defs (q.receive f s event) :=
    ⟨hbusy, h.settled.trace (htrace.before.append (.cons receiving (.nil _))), hdefs⟩
  rw [actionsMoments, hscenario, runActions, hscenario, Transition.actionIds] at h hfollow ⊢
  simp only [foldMoments_append, List.foldl_append] at h hfollow ⊢
  have hsaving := hengaged.stage htaking.starter hspawned
    (if t.saveScratch then [Operation.saveScratchId] else [])
  have hacting := hsaving.engaged.stage htaking.starter hspawned t.actions
  have hclearing := hacting.engaged.stage htaking.starter hspawned
    (if t.clearScratch then [Operation.clearScratchId] else [])
  obtain ⟨_, -, hlast⟩ := hfollow.of_append
  obtain ⟨-, left, entering, -⟩ := hlast.of_cons
  refine SlotsSpared.framesSlots rfl ?_ htrace.before hcompiles receiving hsaving hacting hclearing
    entering ?_ ?_
  · simpa using h
  · split
    · intro slot
      rw [← hdefs] at hcompiles ⊢
      exact (getLast?_foldActions hcompiles.action_saveScratchId rfl slot).trans
        (puts?_save _ event s.scope slot)
    · rfl
  · split
    · intro slot
      rw [← hacting.engaged.defs] at hcompiles ⊢
      exact (getLast?_foldActions hcompiles.action_clearScratchId rfl slot).trans
        (puts?_clear _ event s.scope slot)
    · rfl

end Framing

/-- The scratch slots of all scenarios, through a run. -/
structure KeepsSlots (r : Run) (calls : List Call) : Prop where
  /-- At every moment a slot holds what was written to it last. -/
  latest : ∀ past rest q, r.moments calls = past ++ rest → Trace r past q → ∀ name slot,
    (q.slotValue name slot).Agrees (Interval.ongoing (slotWrites name slot past))
  /-- Between operations that is what the last save put there, or null after a clear. -/
  held : ∀ past rest q, r.moments calls = past ++ rest → Trace r past q →
    (∀ m ∈ rest.head?, m.writesSlot = false) → ∀ name slot,
      (q.slotValue name slot).Agrees (lastPut name slot past)
  /-- Nothing but saves and clears writes to slots, each to those of its scenario. -/
  owned : Owned (r.moments calls)
  kept : ∀ past ms rest q q', r.moments calls = past ++ ms ++ rest → Trace r past q →
    Trace q ms q' → ∀ name slot, slotWrites name slot ms = [] →
      q'.slotValue name slot = q.slotValue name slot
  /-- A save leaves a slot as it is if the event has no field for it. -/
  saves : ∀ past q e scope rest,
    r.moments calls = past ++ ⟨q, some e, .operate scope .saveScratch⟩ :: rest →
      ∃ writes after q', rest = writes ++ after ∧ (∀ m ∈ writes, m.writesSlot = true) ∧
        Trace q (⟨q, some e, .operate scope .saveScratch⟩ :: writes) q' ∧
          SlotsSaved q e scope.scenario q'
  clears : ∀ past q e scope rest,
    r.moments calls = past ++ ⟨q, some e, .operate scope .clearScratch⟩ :: rest →
      ∃ writes after q', rest = writes ++ after ∧ (∀ m ∈ writes, m.writesSlot = true) ∧
        Trace q (⟨q, some e, .operate scope .clearScratch⟩ :: writes) q' ∧
          SlotsCleared scope.scenario q'
  transitions : ∀ past q e f s rest state t,
    r.moments calls = past ++ ⟨q, some e, .receive f s⟩ :: rest →
      f.state? s.state = some state →
        state.transitions.find? (fun t =>
          t.inputs.all (q.defs.inputPasses ((q.receive f s e).context s.name e))) = some t →
          q.FramesSlots e f s t rest

theorem SlotsSpared.operation {r q last : Run} {past rest : List Moment} {e : Event}
    {scope : ActionScope} {op : Operation} {entries : List (String × Value)}
    (h : SlotsSpared r (past ++ ⟨q, some e, .operate scope op⟩ :: rest))
    (htrace : Trace r (past ++ ⟨q, some e, .operate scope op⟩ :: rest) last)
    (hfulfilled : Fulfilled (past ++ ⟨q, some e, .operate scope op⟩ :: rest))
    (hentries : q.slotEntries e op = some entries) :
    ∃ writes after q', rest = writes ++ after ∧ (∀ m ∈ writes, m.writesSlot = true) ∧
      Trace q (⟨q, some e, .operate scope op⟩ :: writes) q' ∧
      SlotsSpared r (past ++ ⟨q, some e, .operate scope op⟩ :: writes) ∧
      ∀ slot, ((slotWrites scope.scenario slot
        (⟨q, some e, .operate scope op⟩ :: writes)).map Interval.value).getLast? =
          (⟨q, some e, .operate scope op⟩ : Moment).puts? scope.scenario slot := by
  obtain ⟨after, rfl⟩ := hfulfilled past _ rest rfl q e scope op entries rfl hentries
  obtain ⟨_, hpast, hfrom⟩ := htrace.of_append
  obtain rfl := hfrom.of_cons.1
  rw [← List.cons_append] at h hfrom
  rw [← List.append_assoc] at h
  obtain ⟨q', hwrites, -⟩ := hfrom.of_append
  refine ⟨_, after, q', rfl, fun m hm => ?_, hwrites, h.before, getLast?_operation hentries scope⟩
  obtain ⟨-, slot, value, hact⟩ := mem_slotMoments hm
  exact Moment.writesSlot_of_save hact

/-- In every run of an accepted document with events in the order of their times, the scratch slots
of a scenario hold what it has saved there last and not cleared since, unless an action writes
there. -/
theorem keeps_slots {d : DefinitionDocument} {defs : DefinitionSet} (h : d.compile = .ok defs)
    (settings : RunSettings) (time : Int64) :
    ∃ r, Run.start defs (Store.empty time) settings = .ok r ∧
      ∀ calls : List Call,
        (calls.filterMap Call.event?).Pairwise (fun e e' => e.nanos ≤ e'.nanos) →
        (∀ m ∈ r.moments calls, m.Spares Layout.isScratch) → r.KeepsSlots calls := by
  obtain ⟨r, hstart, hfresh, hground⟩ := exists_grounded h settings time
  refine ⟨r, hstart, fun calls hmono hspares => ?_⟩
  have hcompiles := (DefinitionDocument.compile_eq_ok_iff d defs).mp h
  have hcomposed := moments_composed hfresh.numbered calls
  have htrace := performAll_trace hfresh.numbered calls
  have hall : SlotsSpared r (r.moments calls) := ⟨hfresh.slotsShown,
    ⟨hground, _, hfresh.remembered⟩, hspares, moments_ordered hfresh.numbered hmono⟩
  refine ⟨?latest, ?held, hcomposed.owned, ?kept, ?saves, ?clears, ?transitions⟩
  case latest =>
    intro past rest q hsplit hpast
    exact (hsplit ▸ hall).before.agrees hpast
  case held =>
    intro past rest q hsplit hpast hrest name slot
    rw [← (hcomposed.toldBetween name slot past rest hsplit hrest).ongoing_eq]
    exact (hsplit ▸ hall).before.agrees hpast name slot
  case kept =>
    intro past ms rest q q' hsplit hpast hms name slot
    exact (hsplit ▸ hall).before.kept hpast hms
  case saves =>
    intro past q e scope rest hsplit
    rw [hsplit] at hall htrace
    obtain ⟨writes, after, q', hrest, hwrites, hsaves, hord, hlast⟩ :=
      hall.operation htrace (hsplit ▸ hcomposed.fulfilled) rfl
    exact ⟨writes, after, q', hrest, hwrites, hsaves, hord.slotsSaved htrace.before hsaves
      fun slot => (hlast slot).trans (puts?_save q e scope slot)⟩
  case clears =>
    intro past q e scope rest hsplit
    rw [hsplit] at hall htrace
    obtain ⟨writes, after, q', hrest, hwrites, hclears, hord, hlast⟩ :=
      hall.operation htrace (hsplit ▸ hcomposed.fulfilled) rfl
    exact ⟨writes, after, q', hrest, hwrites, hclears, hord.slotsCleared htrace.before hclears
      fun slot => (hlast slot).trans (puts?_clear q e scope slot)⟩
  case transitions =>
    intro past q e f s rest state t hsplit hstate hfind
    rw [hsplit] at hall htrace
    have hres : q.resolution f s e state = ⟨t.target, t.actionIds, true⟩ := by
      rw [resolution, DefinitionSet.resolve, (keeps_receive q f s e).defs, hfind]
    obtain ⟨index, spawn, spawned, after, htaking, hspawned, hrest⟩ :=
      hcomposed.followed past _ rest hsplit q e f s state rfl hstate (by rw [hres])
    rw [hres, received_receive] at hrest
    have hdefs : q.defs = defs := htrace.before.follows.defs.trans hfresh.defs
    exact hall.framesSlots_of_taking htrace (hdefs ▸ hcompiles) htaking hspawned hrest

/-- A pattern of two fsms. On its first event a job saves two fields to one slot, starts a task that
does the same, and clears its slots again; on its second event it saves another field. -/
def relay : DefinitionDocument where
  id := "relay"
  initial := ["job"]
  preconditions := []
  scratchFields := .ofList [("pid", "process"), ("tid", "process"), ("cpu", "core")]
  tests := ∅
  actions := .ofList
    [("note", [.spawn ["task"], .stateChange [.name "progress"] (.literal (.long 1))])]
  fsms :=
    [{ id := "job", initial := "idle", finalState := some "done",
       states :=
        [{ name := "idle",
           transitions :=
            [{ inputs := ["other"], target := "busy", actions := ["note"], saveScratch := true,
               clearScratch := true }] },
          { name := "busy",
            transitions := [{ inputs := ["other"], target := "done", saveScratch := true }] }] },
      { id := "task", initial := "idle", finalState := some "done",
        states :=
        [{ name := "idle",
           transitions := [{ inputs := ["other"], target := "done", saveScratch := true }] }] }]

def relayCalls : List Call :=
  [.event ⟨⟨1, 0⟩, "begin", .ofList [("pid", .int 7), ("tid", .int 8)], none⟩,
    .event ⟨⟨2, 0⟩, "end", .ofList [("cpu", .int 3)], none⟩]

theorem keeps_slots_relay :
    ∃ defs r, relay.compile = .ok defs ∧ Run.start defs (Store.empty 0) {} = .ok r ∧
      (relayCalls.filterMap Call.event?).Pairwise (fun e e' => e.nanos ≤ e'.nanos) ∧
      (∀ m ∈ r.moments relayCalls, m.Spares Layout.isScratch) ∧
      lastPut "job#1" "process" (r.moments relayCalls) = .null ∧
      lastPut "job#1" "core" (r.moments relayCalls) = .int 3 ∧
      lastPut "task#1" "process" (r.moments relayCalls) = .int 8 ∧
      r.KeepsSlots relayCalls := by
  obtain ⟨defs, r, hcompile, hstart, hcheck⟩ := relay.exists_of_checks {} 0
    (fun _ r => decide ((∀ m ∈ r.moments relayCalls, m.Spares Layout.isScratch) ∧
      lastPut "job#1" "process" (r.moments relayCalls) = .null ∧
      lastPut "job#1" "core" (r.moments relayCalls) = .int 3 ∧
      lastPut "task#1" "process" (r.moments relayCalls) = .int 8))
    (by decide +kernel)
  obtain ⟨hspares, hprocess, hcore, htask⟩ := of_decide_eq_true hcheck
  obtain ⟨r', hstart', hkeeps⟩ := keeps_slots hcompile {} 0
  obtain rfl : r = r' := Except.ok.inj (hstart.symm.trans hstart')
  have hmono : (relayCalls.filterMap Call.event?).Pairwise fun e e' => e.nanos ≤ e'.nanos := by
    decide
  exact ⟨defs, r, hcompile, hstart, hmono, hspares, hprocess, hcore, htask,
    hkeeps relayCalls hmono hspares⟩

end Run

end TraceAutomata
