import TraceAutomata.Proofs.Run.Twin

namespace TraceAutomata

def Act.emitted? : Act → Option SyntheticEvent
  | .emit _ synthetic => some synthetic
  | _ => none

namespace Run

theorem emitted_restartIfIdle (r : Run) (index : Nat) :
    (r.restartIfIdle index).emitted = r.emitted := by
  rw [restartIfIdle]
  split <;> rfl

theorem emitted_record (r : Run) (m : StoreM Unit) : (r.record m).emitted = r.emitted := by
  rw [record_eq]

theorem emitted_enter (r : Run) (index : Nat) (f : FsmDefinition) (id : ScenarioId)
    (current next : String) (time : Int64) :
    (r.enter index f id current next time).1.emitted = r.emitted := by
  rw [enter]
  cases r.scenario? id with
  | none => rfl
  | some s =>
      simp only [recordMove_eq, recordAll_eq]
      split
      · rw [emitted_restartIfIdle]
        rfl
      · split <;> rfl

theorem emitted_cancelLive (r : Run) (s : Scenario) : (r.cancelLive s).emitted = r.emitted := by
  rw [cancelLive]
  simp only [emitted_record]
  split
  · rw [emitted_restartIfIdle]
    rfl
  · rfl

end Run

open Run

theorem Move.emitted_eq {m : Moment} {r' : Run} (move : Move m r') :
    r'.emitted.toList = m.run.emitted.toList ++ m.act.emitted?.toList := by
  have hsame : ∀ {next : Run}, next.emitted = m.run.emitted →
      next.emitted.toList = m.run.emitted.toList ++ [] := by
    intro next heq
    rw [heq, List.append_nil]
  cases move with
  | arrive _ => exact hsame rfl
  | begin _ => exact hsame rfl
  | appoint _ _ => exact hsame rfl
  | takeDue _ _ => exact hsame rfl
  | decide => exact hsame rfl
  | abort _ => exact hsame rfl
  | enroll _ _ _ _ _ => exact hsame (by rw [admitted_eq])
  | handle => exact hsame rfl
  | receive _ _ _ => exact hsame (by rw [receive_eq, recordAll_eq]; rfl)
  | operate _ => exact hsame rfl
  | change _ => exact hsame (emitted_record _ _)
  | save _ => exact hsame (emitted_record _ _)
  | emit _ _ => exact Array.toList_push
  | enter _ _ _ _ => exact hsame (emitted_enter _ _ _ _ _ _ _)
  | merge => exact hsame rfl
  | @retire r e index =>
      apply hsame
      cases hc : r.fsms[index]? with
      | none => rw [Run.retire, hc]
      | some c =>
          rw [retire_eq hc]
          rfl
  | cancel _ _ => exact hsame (emitted_cancelLive _ _)
  | dispose => exact hsame rfl

theorem Trace.emitted_eq {r r' : Run} {ms : List Moment} (h : Trace r ms r') :
    r'.emitted.toList = r.emitted.toList ++ ms.filterMap fun m => m.act.emitted? := by
  induction h with
  | nil r => simp
  | @cons m next last ms move rest ih =>
      rw [ih, move.emitted_eq, List.append_assoc, List.filterMap_cons]
      cases m.act.emitted? <;> rfl

namespace Run

/-- Two runs, of which one has the fsm among others and the other one has it alone, have the same of
the fsm, and they have emitted the same since some moment. -/
structure Lockstep (f : FsmDefinition) (index : Nat) (time : Int64)
    (sent sent' : List SyntheticEvent) (r r' : Run) : Prop where
  left : r.Grounded
  right : r'.Grounded
  locale : r.defs.Local
  kindred : Kindred f index r r'
  recorded : SameRecord f time r r'
  emitted : ∃ own, r.emitted.toList = sent ++ own ∧ r'.emitted.toList = sent' ++ own

/-- Two scenarios that are busy with an event in two runs are the same one. -/
structure Pair (f : FsmDefinition) (s s' : Scenario) (r r' : Run) : Prop where
  left : Busy s r
  right : Busy s' r'
  alike : s.Alike s'
  fsm : s.fsm = f.id

theorem Pair.keep {f : FsmDefinition} {s s' : Scenario} {r r' next next' : Run}
    (h : Pair f s s' r r') (k : Keeps none r next) (k' : Keeps none r' next') :
    Pair f s s' next next' :=
  ⟨Busy.keep k h.left, Busy.keep k' h.right, h.alike, h.fsm⟩

theorem Twins.keep {f : FsmDefinition} {r r' next next' : Run} (hn : r.Numbered)
    (hn' : r'.Numbered) (k : Keeps none r next) (k' : Keeps none r' next') {id id' : ScenarioId}
    (h : Twins f r r' id id') : Twins f next next' id id' := by
  obtain ⟨s, s', hs, hs', halike, hfsm⟩ := h
  refine ⟨s, s', ?_, ?_, halike, hfsm⟩
  · rw [k.scenario? id (id_of_scenario? hs ▸ hn.le_created s (mem_of_scenario? hs)) (by simp)]
    exact hs
  · rw [k'.scenario? id' (id_of_scenario? hs' ▸ hn'.le_created s' (mem_of_scenario? hs'))
      (by simp)]
    exact hs'

namespace Lockstep

variable {f : FsmDefinition} {index : Nat} {time : Int64} {sent sent' : List SyntheticEvent}
  {r r' next next' : Run} {s s' : Scenario} {event : Event}

theorem step (h : Lockstep f index time sent sent' r r') {e e' : Option Event} {act act' : Act}
    (move : Move ⟨r, e, act⟩ next) (move' : Move ⟨r', e', act'⟩ next')
    (hact : act.emitted? = none) (hact' : act'.emitted? = none)
    (kindred : Kindred f index next next') (recorded : SameRecord f time next next') :
    Lockstep f index time sent sent' next next' where
  left := h.left.move move
  right := h.right.move move'
  locale := by
    rw [move.follows.defs]
    exact h.locale
  kindred := kindred
  recorded := recorded
  emitted := by
    obtain ⟨own, hown, hown'⟩ := h.emitted
    refine ⟨own, ?_, ?_⟩
    · rw [move.emitted_eq, hact]
      simpa using hown
    · rw [move'.emitted_eq, hact']
      simpa using hown'

theorem fold {α : Type} {g g' : Run → α → Run} {P : Run → Run → Prop} {list : List α}
    (change : ∀ r r', ∀ a ∈ list, Lockstep f index time sent sent' r r' → P r r' →
      Lockstep f index time sent sent' (g r a) (g' r' a) ∧ P (g r a) (g' r' a))
    (h : Lockstep f index time sent sent' r r') (hp : P r r') :
    Lockstep f index time sent sent' (list.foldl g r) (list.foldl g' r') ∧
      P (list.foldl g r) (list.foldl g' r') := by
  induction list generalizing r r' with
  | nil => exact ⟨h, hp⟩
  | cons a rest ih =>
      obtain ⟨hfirst, hpfirst⟩ := change r r' a List.mem_cons_self h hp
      exact ih (fun r r' b hb => change r r' b (List.mem_cons_of_mem _ hb)) hfirst hpfirst

theorem below_eq (h : Lockstep f index time sent sent' r r') (hs : s ∈ r.scenarios)
    (hfsm : s.fsm = f.id) :
    r'.store.below (r'.pathOf s.name) = r.store.below (r.pathOf s.name) := by
  obtain ⟨sequence, -, hname⟩ := h.left.anchored.started s hs
  rw [hname, hfsm]
  exact h.recorded.below sequence

theorem agree (h : Lockstep f index time sent sent' r r') (hs : s ∈ r.scenarios)
    (hfsm : s.fsm = f.id) (event : Event) :
    (r.context s.name event).Agree (r'.context s.name event) :=
  h.recorded.agree h.left.anchored h.right.anchored (h.below_eq hs hfsm) event

theorem exists_scratchValues (h : Lockstep f index time sent sent' r r')
    (ha : Pair f s s' r r') :
    ∃ values, History.scratchValues r.store s.subtree = .ok values ∧
      History.scratchValues r'.store s'.subtree = .ok values := by
  have hmem := mem_of_scenario? ha.left.2.1
  have hmem' := mem_of_scenario? ha.right.2.1
  have hname := ha.alike.name
  obtain ⟨values, hvalues, hfind⟩ := History.scratchValues_spec h.left.anchored.tree
    (h.left.anchored.subtree s hmem)
  obtain ⟨values', hvalues', hfind'⟩ := History.scratchValues_spec h.right.anchored.tree
    (h.right.anchored.subtree s' hmem')
  refine ⟨values, hvalues, ?_⟩
  rw [hvalues']
  congr 1
  apply Dict.ext_find?
  intro slot
  rw [hfind, hfind', hname, h.below_eq hmem ha.fsm]

theorem syntheticName_eq {ctx ctx' : GuardContext} (hagree : ctx.Agree ctx')
    {name : SyntheticName} (hlocal : name.isLocal = true) :
    (syntheticName ctx' name).toOption = (syntheticName ctx name).toOption := by
  cases name with
  | literal text => rfl
  | value source =>
      rw [syntheticName, syntheticName, Except.toOption_map, Except.toOption_map,
        hagree.resolve_eq hlocal]

theorem syntheticFields_eq {ctx ctx' : GuardContext} (hagree : ctx.Agree ctx')
    {fields : Dict ValueSource} (hlocal : fields.values.all ValueSource.isLocal = true) :
    syntheticFields ctx' fields = syntheticFields ctx fields := by
  rw [syntheticFields, syntheticFields]
  congr 1
  apply List.filterMap_congr
  rintro ⟨name, source⟩ hmem
  have hsource : source.isLocal = true :=
    List.all_eq_true.mp hlocal source (List.mem_map_of_mem (f := Prod.snd) hmem)
  have hresolve := hagree.resolve_eq hsource
  cases hvalue : source.resolve ctx with
  | error e =>
      cases hvalue' : source.resolve ctx' with
      | error e' => simp only [hvalue, hvalue']
      | ok value' => simp [hvalue, hvalue', Except.toOption] at hresolve
  | ok value =>
      cases hvalue' : source.resolve ctx' with
      | error e' => simp [hvalue, hvalue', Except.toOption] at hresolve
      | ok value' =>
          obtain rfl : value' = value := by
            simpa [hvalue, hvalue', Except.toOption] using hresolve
          simp only [hvalue, hvalue']

theorem synthesize_eq (h : Lockstep f index time sent sent' r r') (ha : Pair f s s' r r')
    {name : SyntheticName} (hname : name.isLocal = true) {fields : Dict ValueSource}
    (hfields : fields.values.all ValueSource.isLocal = true) (event : Event) :
    (r'.synthesize s'.scope event name fields).toOption =
      (r.synthesize s.scope event name fields).toOption := by
  have hagree : (r.context s.scope.scenario event).Agree (r'.context s.scope.scenario event) :=
    h.agree (mem_of_scenario? ha.left.2.1) ha.fsm event
  obtain ⟨values, hvalues, hvalues'⟩ := h.exists_scratchValues ha
  obtain ⟨id, subtree, heq⟩ := ha.alike
  have hscope : s'.scope.scenario = s.scope.scenario ∧ s'.scope.startTime = s.scope.startTime := by
    rw [heq]
    exact ⟨rfl, rfl⟩
  have hscratch : History.scratchValues r.store s.scope.subtree = .ok values := hvalues
  have hscratch' : History.scratchValues r'.store s'.scope.subtree = .ok values := hvalues'
  rw [synthesize, synthesize, hscratch, hscratch', h.kindred.settings, hscope.1, hscope.2]
  simp only [Except.toOption_bind]
  rw [syntheticName_eq hagree hname, syntheticFields_eq hagree hfields]

theorem write (h : Lockstep f index time sent sent' r r') (ha : Pair f s s' r r')
    (htime : event.nanos ≤ time) (path : List String) (value : Value) :
    Lockstep f index time sent sent' (r.record (History.write s.subtree event.nanos path value))
      (r'.record (History.write s'.subtree event.nanos path value)) := by
  have hkeeps := keeps_record none r (History.write s.subtree event.nanos path value)
  have hkeeps' := keeps_record none r' (History.write s'.subtree event.nanos path value)
  refine h.step (.change ha.left.2 : Move ⟨r, some event, _⟩ _)
    (.change ha.right.2 : Move ⟨r', some event, _⟩ _) rfl rfl ?_ ?_
  · exact h.kindred.congr hkeeps.steady hkeeps'.steady (by rw [record_fsms]) (by rw [record_fsms])
      fun id id' => Twins.keep h.left.numbered h.right.numbered hkeeps hkeeps'
  · refine h.recorded.recordAll [[⟨path, event.nanos, value⟩]] h.left.anchored
      h.right.anchored (mem_of_scenario? ha.left.2.1) (mem_of_scenario? ha.right.2.1) ha.alike ?_
      hkeeps.defs hkeeps'.defs ?_ ?_
    · intro writes hwrites w hw
      obtain rfl := List.mem_singleton.mp hwrites
      obtain rfl := List.mem_singleton.mp hw
      exact htime
    · rw [record_store, History.write_eq_writeAll]
      rfl
    · rw [record_store, History.write_eq_writeAll]
      rfl

theorem slots (h : Lockstep f index time sent sent' r r') (ha : Pair f s s' r r')
    (htime : event.nanos ≤ time) (slots : List (String × Value)) :
    Lockstep f index time sent sent' (slots.foldl (saveSlot s.scope event) r)
      (slots.foldl (saveSlot s'.scope event) r') := by
  refine (h.fold (P := Pair f s s') (fun r r' entry _ h ha => ⟨?_, ?_⟩) ha).1
  · exact h.write ha htime (Layout.slotPath entry.1) entry.2
  · exact ha.keep (keeps_record none r _) (keeps_record none r' _)

theorem attempt_synthetic (spawn : Spawn) (r : Run) (scope : ActionScope) (event : Event)
    (name : SyntheticName) (fields : Dict ValueSource) :
    attempt (Run.operate spawn scope event (.synthetic name fields)) r =
      match (r.synthesize scope event name fields).toOption with
      | some synthetic => { r with emitted := r.emitted.push synthetic }
      | none => r := by
  simp only [attempt, Run.operate]
  cases r.synthesize scope event name fields <;> rfl

theorem attempt_stateChange (spawn : Spawn) (r : Run) (scope : ActionScope) (event : Event)
    (path : AttributePath) (value : ValueSource) :
    attempt (Run.operate spawn scope event (.stateChange path value)) r =
      match AttributePath.names (r.context scope.scenario event) path,
        (value.resolve (r.context scope.scenario event)).toOption with
      | .ok names, some value => r.record (History.write scope.subtree event.nanos names value)
      | _, _ => r := by
  simp only [attempt, Run.operate]
  cases AttributePath.names (r.context scope.scenario event) path with
  | error e => rfl
  | ok names =>
      cases value.resolve (r.context scope.scenario event) with
      | error e => rfl
      | ok value => exact attempt_change (History.write scope.subtree event.nanos names value) r

theorem operate (h : Lockstep f index time sent sent' r r') (ha : Pair f s s' r r')
    (htime : event.nanos ≤ time) {op : Operation} (hop : op.isLocal = true) :
    Lockstep f index time sent sent' (attempt (Run.operate (spawnOn event) s.scope event op) r)
      (attempt (Run.operate (spawnOn event) s'.scope event op) r') := by
  have hagree : (r.context s.scope.scenario event).Agree (r'.context s.scope.scenario event) :=
    h.agree (mem_of_scenario? ha.left.2.1) ha.fsm event
  have hscenario : s'.scope.scenario = s.scope.scenario := by
    obtain ⟨_, _, heq⟩ := ha.alike
    rw [heq]
    rfl
  cases op with
  | stateChange path value =>
      rw [Operation.isLocal, Bool.and_eq_true] at hop
      rw [attempt_stateChange, attempt_stateChange, hscenario, hagree.names_eq hop.1,
        hagree.resolve_eq hop.2]
      split
      · next names value _ _ => exact h.write ha htime names value
      · exact h
  | saveScratch =>
      have hslots : r'.savedSlots event = r.savedSlots event := by
        rw [savedSlots, h.kindred.defs]
        rfl
      change Lockstep f index time sent sent' (r.saveFields s.scope event)
        (r'.saveFields s'.scope event)
      rw [saveFields_eq, saveFields_eq, hslots]
      exact h.slots ha htime _
  | clearScratch =>
      have hslots : r'.clearedSlots = r.clearedSlots := by
        rw [clearedSlots, h.kindred.defs]
        rfl
      change Lockstep f index time sent sent' (r.clearSlots s.scope event)
        (r'.clearSlots s'.scope event)
      rw [clearSlots_eq, clearSlots_eq, hslots]
      exact h.slots ha htime _
  | synthetic name fields =>
      rw [Operation.isLocal, Bool.and_eq_true] at hop
      have hsame := h.synthesize_eq ha hop.1 hop.2 event
      rw [attempt_synthetic, attempt_synthetic, hsame]
      cases hsynthetic : r.synthesize s.scope event name fields with
      | error e => exact h
      | ok synthetic =>
          have hsynthetic' : r'.synthesize s'.scope event name fields = .ok synthetic := by
            rw [hsynthetic] at hsame
            cases hright : r'.synthesize s'.scope event name fields with
            | error e => simp [hright, Except.toOption] at hsame
            | ok other => simpa [hright, Except.toOption] using hsame
          have move : Move ⟨r, some event, _⟩ _ := .emit ha.left.2 hsynthetic
          have move' : Move ⟨r', some event, _⟩ _ := .emit ha.right.2 hsynthetic'
          obtain ⟨own, hown, hown'⟩ := h.emitted
          refine ⟨h.left.move move, h.right.move move', h.locale, ?_, ?_, own ++ [synthetic],
            ?_, ?_⟩
          · exact h.kindred.congr ⟨rfl, rfl, rfl, rfl, rfl⟩ ⟨rfl, rfl, rfl, rfl, rfl⟩ rfl rfl
              fun _ _ hid => hid
          · exact h.recorded.congr rfl rfl rfl rfl
          · change (r.emitted.push synthetic).toList = _
            rw [Array.toList_push, hown, List.append_assoc]
          · change (r'.emitted.push synthetic).toList = _
            rw [Array.toList_push, hown', List.append_assoc]
  | spawn fsms => cases hop

theorem action (h : Lockstep f index time sent sent' r r') (ha : Pair f s s' r r')
    (htime : event.nanos ≤ time) (id : String) :
    Lockstep f index time sent sent' (runAction (spawnOn event) s.scope event r id)
      (runAction (spawnOn event) s'.scope event r' id) := by
  have haction : r'.defs.action id = r.defs.action id := by
    rw [h.kindred.defs]
    rfl
  rw [runAction, runAction, haction]
  cases hops : r.defs.action id with
  | error e => exact h
  | ok ops =>
      have hlocal := h.locale.of_action hops
      refine (h.fold (P := Pair f s s') (fun r r' op hop h ha => ⟨?_, ?_⟩) ha).1
      · exact h.operate ha htime (hlocal op hop)
      · exact ha.keep (operate_passage (spawnOn_passage event) ha.left op).keeps
          (operate_passage (spawnOn_passage event) ha.right op).keeps

theorem actions (h : Lockstep f index time sent sent' r r') (ha : Pair f s s' r r')
    (htime : event.nanos ≤ time) (actions : List String) :
    Lockstep f index time sent sent' (runActions (spawnOn event) s.id event actions r)
      (runActions (spawnOn event) s'.id event actions r') := by
  rw [runActions, runActions, ha.left.2.1, ha.right.2.1]
  refine (h.fold (P := Pair f s s') (fun r r' id _ h ha => ⟨?_, ?_⟩) ha).1
  · exact h.action ha htime id
  · exact ha.keep (action_passage (spawnOn_passage event) ha.left id).keeps
      (action_passage (spawnOn_passage event) ha.right id).keeps

end Lockstep

end Run

end TraceAutomata
