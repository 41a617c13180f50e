import TraceAutomata.Proofs.Run.Subject
import TraceAutomata.Proofs.Run.Tandem

/-!
How the acts of a run belong together. The writes of an operation on slots follow the operation,
the acts of a transition lie between the act in which the scenario notes the event and the act in
which it enters the next state, and acts on behalf of scenarios that are started are nested among
them. All acts of a run are put together in this way, so what holds of the parts holds of the
whole.
-/

namespace TraceAutomata

namespace Operation

def writesSlots : Operation → Bool
  | .saveScratch | .clearScratch => true
  | .stateChange _ _ | .synthetic _ _ | .spawn _ => false

end Operation

namespace Moment

def writesSlot (m : Moment) : Bool :=
  match m.act with
  | .save _ _ _ => true
  | _ => false

/-- The act neither is nor begins a write to slots, and no scenario notes the event. -/
def Plain (m : Moment) : Prop :=
  match m.act with
  | .receive _ _ | .save _ _ _ => False
  | .operate _ op => op.writesSlots = false
  | _ => True

theorem writesSlot_of_save {m : Moment} {scope : ActionScope} {slot : String} {value : Value}
    (h : m.act = .save scope slot value) : m.writesSlot = true := by
  rw [writesSlot, h]

theorem Plain.writesSlot {m : Moment} (h : m.Plain) : m.writesSlot = false := by
  rw [Moment.writesSlot]
  split
  · next hact =>
    rw [Plain, hact] at h
    exact h.elim
  · rfl

end Moment

namespace Run

def slotEntries (r : Run) (event : Event) : Operation → Option (List (String × Value))
  | .saveScratch => some (r.savedSlots event)
  | .clearScratch => some r.clearedSlots
  | .stateChange _ _ | .synthetic _ _ | .spawn _ => none

def resolution (r : Run) (f : FsmDefinition) (s : Scenario) (event : Event)
    (state : StateDefinition) : Resolution :=
  (r.receive f s event).defs.resolve state ((r.receive f s event).context s.name event)

/-- The way in which scenarios are started while another one handles an event: their acts are about
them, and leave those alone that there are. -/
structure Starter (event : Event) (spawn : Spawn) (spawned : Run → Nat → String → List Moment) :
    Prop where
  passage : ∀ r index parent, r.Numbered →
    Passage event none r (spawned r index parent) (spawn r index parent)
  tends : ∀ r index parent, r.Numbered → Tends none 0 r.created (spawned r index parent)

theorem launch_starter (event : Event) (budget : Run → Nat) :
    Starter event (fun r index parent => launch (budget r) (some parent) (some event) r index)
      fun r index parent =>
        launchMoments event (budget r) (some parent) (some event) r index where
  passage _ index parent hn := launch_passage (.inr rfl) _ (some parent) hn index
  tends _ index parent hn := launch_tends (.inr rfl) _ (some parent) hn index

/-- A scenario takes a transition on an event. -/
structure Taking (r : Run) (event : Event) (f : FsmDefinition) (s : Scenario) (index : Nat)
    (state : StateDefinition) (spawn : Spawn) (spawned : Run → Nat → String → List Moment) :
    Prop where
  numbered : r.Numbered
  found : r.scenario? s.id = some s
  live : s.isLive = true
  ofFsm : r.OfFsm s index f
  starter : Starter event spawn spawned
  current : f.state? s.state = some state
  matched : (r.resolution f s event state).matched = true

/-- The acts are put together from those of transitions and of operations. -/
inductive Composed : List Moment → Prop
  | nil : Composed []
  | append {ms ms' : List Moment} (h : Composed ms) (h' : Composed ms') : Composed (ms ++ ms')
  | plain {m : Moment} (h : m.Plain) : Composed [m]
  | slots {r : Run} {event : Event} {scope : ActionScope} {op : Operation}
      {entries : List (String × Value)} (h : r.slotEntries event op = some entries) :
      Composed (⟨r, some event, .operate scope op⟩ :: slotMoments event scope r entries)
  | rest {r : Run} {event : Event} {f : FsmDefinition} {s : Scenario}
      (h : ∀ state, f.state? s.state = some state →
        (r.resolution f s event state).matched = false) :
      Composed [⟨r, some event, .receive f s⟩]
  | step {r : Run} {event : Event} {f : FsmDefinition} {s : Scenario} {index : Nat}
      {state : StateDefinition} {spawn : Spawn} {spawned : Run → Nat → String → List Moment}
      (h : r.Taking event f s index state spawn spawned)
      (started : ∀ r index parent, r.Numbered → Composed (spawned r index parent))
      (inner : Composed (actionsMoments spawn spawned event s.id
        (r.resolution f s event state).actions (r.receive f s event))) :
      Composed (⟨r, some event, .receive f s⟩ ::
        (actionsMoments spawn spawned event s.id (r.resolution f s event state).actions
            (r.receive f s event) ++
          [⟨runActions spawn s.id event (r.resolution f s event state).actions
              (r.receive f s event), some event,
            .enter index f { s with lastEvent := some (r.receive f s event).received }
              (r.resolution f s event state).next⟩]))

namespace Composed

theorem cons {m : Moment} {ms : List Moment} (hm : m.Plain) (h : Composed ms) :
    Composed (m :: ms) :=
  append (plain hm) h

theorem fold {α : Type} {f : Run → α → Run} {moments : Run → α → List Moment} {I : Run → Prop}
    {list : List α} {r : Run}
    (step : ∀ r, ∀ a ∈ list, I r → Composed (moments r a) ∧ I (f r a)) (hr : I r) :
    Composed (foldMoments f moments r list) := by
  induction list generalizing r with
  | nil => exact nil
  | cons a rest ih =>
      obtain ⟨hfirst, hnext⟩ := step r a List.mem_cons_self hr
      exact hfirst.append (ih (fun r b hb => step r b (List.mem_cons_of_mem _ hb)) hnext)

end Composed

/-- At each act, what came before and what comes after are in a relation. -/
def Everywhere (P : List Moment → Moment → List Moment → Prop) (ms : List Moment) : Prop :=
  ∀ past m rest, ms = past ++ m :: rest → P past m rest

namespace Everywhere

variable {P : List Moment → Moment → List Moment → Prop} {ms ms' : List Moment}

theorem nil : Everywhere P [] :=
  fun _ _ _ h => (List.append_ne_nil_of_right_ne_nil _ (List.cons_ne_nil _ _) h.symm).elim

theorem cons {m : Moment} (hm : P [] m ms) (h : Everywhere (fun past => P (m :: past)) ms) :
    Everywhere P (m :: ms) := by
  intro past x rest hsplit
  cases past with
  | nil =>
      obtain ⟨rfl, rfl⟩ := List.cons.inj hsplit
      exact hm
  | cons first past =>
      obtain ⟨rfl, hrest⟩ := List.cons.inj hsplit
      exact h past x rest hrest

theorem append (before : ∀ past past' m rest, P past' m rest → P (past ++ past') m rest)
    (after : ∀ past m rest rest', P past m rest → P past m (rest ++ rest'))
    (h : Everywhere P ms) (h' : Everywhere P ms') : Everywhere P (ms ++ ms') := by
  intro past m rest hsplit
  rcases List.append_eq_append_iff.mp hsplit with ⟨mid, rfl, hrest⟩ | ⟨mid, hms, hrest⟩
  · exact before _ _ _ _ (h' mid m rest hrest)
  · cases mid with
    | nil =>
        rw [List.append_nil] at hms
        have hfirst := before ms [] m rest (h' [] m rest hrest.symm)
        rw [List.append_nil, hms] at hfirst
        exact hfirst
    | cons first mid =>
        obtain ⟨rfl, rfl⟩ := List.cons.inj hrest
        exact after _ _ _ _ (h past m mid hms)

end Everywhere

/-- Each write to a slot follows an operation on slots of the same scenario, with nothing but such
writes in between. -/
def Owned : List Moment → Prop :=
  Everywhere fun past m _ => ∀ scope slot value, m.act = .save scope slot value →
    ∃ before q op writes, past = before ++ ⟨q, m.event, .operate scope op⟩ :: writes ∧
      op.writesSlots = true ∧ ∀ w ∈ writes, w.writesSlot = true

def Fulfilled : List Moment → Prop :=
  Everywhere fun _ m rest => ∀ r event scope op entries,
    m = ⟨r, some event, .operate scope op⟩ → r.slotEntries event op = some entries →
      ∃ after, rest = slotMoments event scope r entries ++ after

/-- Where a scenario has noted an event on which it takes a transition, the acts of that follow. -/
def Followed : List Moment → Prop :=
  Everywhere fun _ m rest => ∀ r event f s state, m = ⟨r, some event, .receive f s⟩ →
    f.state? s.state = some state → (r.resolution f s event state).matched = true →
      ∃ index spawn spawned after, r.Taking event f s index state spawn spawned ∧
        (∀ r index parent, r.Numbered → Composed (spawned r index parent)) ∧
        rest = actionsMoments spawn spawned event s.id (r.resolution f s event state).actions
            (r.receive f s event) ++
          ⟨runActions spawn s.id event (r.resolution f s event state).actions
              (r.receive f s event), some event,
            .enter index f { s with lastEvent := some (r.receive f s event).received }
              (r.resolution f s event state).next⟩ :: after

theorem mem_slotMoments {event : Event} {scope : ActionScope} {r : Run}
    {entries : List (String × Value)} {m : Moment} (h : m ∈ slotMoments event scope r entries) :
    m.event = some event ∧ ∃ slot value, m.act = .save scope slot value := by
  rw [slotMoments] at h
  induction entries generalizing r with
  | nil => cases h
  | cons entry rest ih =>
      rcases List.mem_cons.mp h with rfl | h
      · exact ⟨rfl, _, _, rfl⟩
      · exact ih h

theorem filterMap_slotMoments {α : Type} {g : Moment → Option α} {event : Event}
    {scope : ActionScope} {r : Run} {entries : List (String × Value)}
    (hnone : ∀ m slot value, m.act = .save scope slot value → g m = none) :
    (slotMoments event scope r entries).filterMap g = [] := by
  rw [List.filterMap_eq_nil_iff]
  intro m hm
  obtain ⟨-, slot, value, hact⟩ := mem_slotMoments hm
  exact hnone m slot value hact

namespace Owned

variable {ms ms' : List Moment}

theorem append (h : Owned ms) (h' : Owned ms') : Owned (ms ++ ms') := by
  refine Everywhere.append (fun past past' m rest hown scope slot value hact => ?_)
    (fun past m rest rest' hown => hown) h h'
  obtain ⟨before, q, op, writes, rfl, hop, hwrites⟩ := hown scope slot value hact
  exact ⟨past ++ before, q, op, writes, (List.append_assoc ..).symm, hop, hwrites⟩

theorem single {m : Moment} (h : m.writesSlot = false) : Owned [m] := by
  refine .cons (fun scope slot value hact => ?_) .nil
  rw [Moment.writesSlot_of_save hact] at h
  cases h

theorem slots {r : Run} {event : Event} {scope : ActionScope} {op : Operation}
    {entries : List (String × Value)} (h : r.slotEntries event op = some entries) :
    Owned (⟨r, some event, .operate scope op⟩ :: slotMoments event scope r entries) := by
  have hop : op.writesSlots = true := by
    cases op <;> first | rfl | cases h
  refine .cons (fun _ _ _ hact => by cases hact) fun past m rest hsplit scope' slot value hact => ?_
  have hall : ∀ w ∈ past ++ m :: rest, w.event = some event ∧
      ∃ slot value, w.act = .save scope slot value := fun w hw =>
    mem_slotMoments (hsplit ▸ hw)
  obtain ⟨hevent, slot', value', hact'⟩ := hall m (List.mem_append_right _ List.mem_cons_self)
  obtain ⟨rfl, -, -⟩ := Act.save.inj (hact'.symm.trans hact)
  refine ⟨[], r, op, past, hevent ▸ rfl, hop, fun w hw => ?_⟩
  obtain ⟨-, slot, value, hsave⟩ := hall w (List.mem_append_left _ hw)
  exact Moment.writesSlot_of_save hsave

end Owned

namespace Fulfilled

variable {ms ms' : List Moment}

theorem append (h : Fulfilled ms) (h' : Fulfilled ms') : Fulfilled (ms ++ ms') := by
  refine Everywhere.append (fun past past' m rest hfulfilled => hfulfilled) ?_ h h'
  intro past m rest rest' hfulfilled r event scope op entries hm hentries
  obtain ⟨after, rfl⟩ := hfulfilled r event scope op entries hm hentries
  exact ⟨after ++ rest', List.append_assoc ..⟩

theorem of_not_operate {ms : List Moment} (h : ∀ m ∈ ms, ∀ scope op, m.act ≠ .operate scope op) :
    Fulfilled ms := by
  rintro past m rest rfl r event scope op entries rfl
  exact (h _ (List.mem_append_right _ List.mem_cons_self) scope op rfl).elim

theorem single {m : Moment} (h : ∀ scope op, m.act ≠ .operate scope op) : Fulfilled [m] :=
  of_not_operate fun _ hx => List.mem_singleton.mp hx ▸ h

theorem plain {m : Moment} (h : m.Plain) : Fulfilled [m] := by
  refine .cons (fun r event scope op entries heq hentries => ?_) .nil
  cases heq
  cases op with
  | saveScratch => cases h
  | clearScratch => cases h
  | _ => cases hentries

theorem slots {r : Run} {event : Event} {scope : ActionScope} {op : Operation}
    {entries : List (String × Value)} (h : r.slotEntries event op = some entries) :
    Fulfilled (⟨r, some event, .operate scope op⟩ :: slotMoments event scope r entries) := by
  refine .cons (fun r' event' scope' op' entries' heq hentries => ?_)
    (of_not_operate fun m hm scope' op' hact => ?_)
  · cases heq
    obtain rfl := Option.some.inj (h.symm.trans hentries)
    exact ⟨[], (List.append_nil _).symm⟩
  · obtain ⟨-, slot, value, hsave⟩ := mem_slotMoments hm
    rw [hsave] at hact
    cases hact

end Fulfilled

theorem Followed.append {ms ms' : List Moment} (h : Followed ms) (h' : Followed ms') :
    Followed (ms ++ ms') := by
  refine Everywhere.append (fun past past' m rest hfollow => hfollow) ?_ h h'
  intro past m rest rest' hfollow r event f s state hm hstate hmatched
  obtain ⟨index, spawn, spawned, after, htaking, hstarted, rfl⟩ :=
    hfollow r event f s state hm hstate hmatched
  exact ⟨index, spawn, spawned, after ++ rest', htaking, hstarted, by
    rw [List.append_assoc, List.cons_append]⟩

theorem Followed.of_not_receive {ms : List Moment}
    (h : ∀ m ∈ ms, ∀ f s, m.act ≠ .receive f s) : Followed ms := by
  rintro past m rest rfl r event f s state rfl
  exact (h _ (List.mem_append_right _ List.mem_cons_self) f s rfl).elim

namespace Composed

variable {ms : List Moment}

theorem owned (h : Composed ms) : Owned ms := by
  induction h with
  | nil => exact .nil
  | append _ _ ih ih' => exact ih.append ih'
  | plain hplain => exact .single hplain.writesSlot
  | slots hentries => exact .slots hentries
  | rest _ => exact .single rfl
  | step _ _ _ _ ih => exact (Owned.single rfl).append (ih.append (.single rfl))

theorem fulfilled (h : Composed ms) : Fulfilled ms := by
  induction h with
  | nil => exact .nil
  | append _ _ ih ih' => exact ih.append ih'
  | plain hplain => exact .plain hplain
  | slots hentries => exact .slots hentries
  | rest _ => exact .single fun _ _ hact => by cases hact
  | step _ _ _ _ ih =>
      refine (Fulfilled.single ?_).append (ih.append (.single ?_))
      all_goals
        intro _ _ hact
        cases hact

theorem followed (h : Composed ms) : Followed ms := by
  induction h with
  | nil => exact .nil
  | append _ _ ih ih' => exact ih.append ih'
  | @plain m hplain =>
      refine .of_not_receive fun x hx f s hact => ?_
      rw [List.mem_singleton.mp hx] at hact
      rw [Moment.Plain, hact] at hplain
      exact hplain
  | slots _ =>
      refine .of_not_receive
        (List.forall_mem_cons.mpr ⟨fun f s hact => ?_, fun m hm f s hact => ?_⟩)
      · cases hact
      · obtain ⟨-, slot, value, hact'⟩ := mem_slotMoments hm
        rw [hact'] at hact
        cases hact
  | rest hrest =>
      refine .cons (fun r event f s state heq hstate hmatched => ?_) .nil
      cases heq
      rw [hrest state hstate] at hmatched
      cases hmatched
  | @step r event f s index state spawn spawned htaking hstarted _ _ ih =>
      refine .cons (fun r' event' f' s' state' heq hstate' _ => ?_)
        (ih.append (.of_not_receive fun m hm f s hact => ?_))
      · cases heq
        obtain rfl := Option.some.inj (htaking.current.symm.trans hstate')
        exact ⟨index, spawn, spawned, [], htaking, hstarted, rfl⟩
      · rw [List.mem_singleton.mp hm] at hact
        cases hact

end Composed

section Handling

variable {spawn : Spawn} {spawned : Run → Nat → String → List Moment} {event : Event}
  (starter : Starter event spawn spawned)
  (hspawned : ∀ r index parent, r.Numbered → Composed (spawned r index parent))

include starter hspawned

theorem spawnAll_composed {r : Run} (hn : r.Numbered) (parent : String) (fsms : List String) :
    Composed (spawnAllMoments spawn spawned parent fsms r) := by
  induction fsms generalizing r with
  | nil => exact .nil
  | cons fsm rest ih =>
      rw [spawnAllMoments]
      cases r.defs.fsmIndex? fsm with
      | none => exact .nil
      | some index =>
          have hkeeps := (starter.passage r index parent hn).keeps
          exact (hspawned r index parent hn).append (ih (hkeeps.numbered hn))

theorem operate_composed {s : Scenario} {r : Run} (hs : Busy s r) (op : Operation) :
    Composed (operateMoments spawn spawned event s.scope r op) := by
  unfold operateMoments
  cases op with
  | stateChange path value =>
      refine .cons rfl ?_
      simp only
      split
      · exact .plain trivial
      · exact .nil
  | saveScratch => exact .slots rfl
  | clearScratch => exact .slots rfl
  | synthetic name fields =>
      refine .cons rfl ?_
      simp only
      split
      · exact .plain trivial
      · exact .nil
  | spawn fsms => exact .cons rfl (spawnAll_composed starter hspawned hs.1 s.scope.fsm fsms)

theorem action_composed {s : Scenario} {r : Run} (hs : Busy s r) (id : String) :
    Composed (actionMoments spawn spawned event s.scope r id) := by
  rw [actionMoments]
  cases r.defs.action id with
  | error e => exact .nil
  | ok ops =>
      refine .fold (I := Busy s) (fun r op _ hs => ?_) hs
      exact ⟨operate_composed starter hspawned hs op,
        Busy.keep (operate_passage starter.passage hs op).keeps hs⟩

theorem actions_composed {s : Scenario} {r : Run} (hs : Busy s r) (actions : List String) :
    Composed (actionsMoments spawn spawned event s.id actions r) := by
  rw [actionsMoments, hs.2.1]
  refine .fold (I := Busy s) (fun r id _ hs => ?_) hs
  exact ⟨action_composed starter hspawned hs id,
    Busy.keep (action_passage starter.passage hs id).keeps hs⟩

theorem step_composed {r : Run} (hn : r.Numbered) (id : ScenarioId) :
    Composed (stepMoments spawn spawned event id r) := by
  rw [stepMoments]
  cases hfound : (r.scenario? id).filter Scenario.isLive with
  | none => exact .nil
  | some s =>
      obtain ⟨rfl, hs, hlive⟩ := scenario?_of_filter hfound
      simp only
      split
      · next index f hindex hf =>
        split
        · next hnone =>
          exact .rest fun state hstate => (Option.some_ne_none _ (hstate.symm.trans hnone)).elim
        · next state hstate =>
          split
          · next hmatched =>
            exact .step ⟨hn, hs, hlive, ⟨hindex, hf⟩, starter, hstate, hmatched⟩ hspawned
              (actions_composed starter hspawned (busy_receive hn (f := f) hs hlive event) _)
          · next hunmatched =>
            refine .rest fun state' hstate' => ?_
            obtain rfl := Option.some.inj (hstate.symm.trans hstate')
            exact eq_false_of_ne_true hunmatched
      · exact .nil

theorem chain_composed {r : Run} (hn : r.Numbered) (id : ScenarioId) (allowed : Nat) :
    Composed (chainMoments spawn spawned event id allowed r) := by
  induction allowed generalizing r with
  | zero => exact step_composed starter hspawned hn id
  | succ allowed ih =>
      have hkeeps := (step_passage starter.passage hn id).keeps
      rw [chainMoments]
      refine (step_composed starter hspawned hn id).append ?_
      rcases hres : r.step spawn event id with ⟨next, outcome⟩
      rw [hres] at hkeeps
      cases outcome with
      | again => exact ih (hkeeps.numbered hn)
      | settled => exact .nil
      | failed fault => exact .nil

theorem handle_composed {r : Run} (hn : r.Numbered) (id : ScenarioId) :
    Composed (handleMoments spawn spawned event id r) :=
  .cons trivial (chain_composed starter hspawned hn id _)

end Handling

theorem launch_composed {event : Event} {trigger : Option Event}
    (htrigger : trigger = none ∨ trigger = some event) (budget : Nat) (parent : Option String)
    {r : Run} (hn : r.Numbered) (index : Nat) :
    Composed (launchMoments event budget parent trigger r index) := by
  induction budget generalizing parent trigger r index with
  | zero => exact .plain trivial
  | succ budget ih =>
      rw [launchMoments]
      refine .cons trivial ?_
      cases hf : r.defs.fsms[index]? with
      | none => exact .nil
      | some f =>
          cases hc : r.fsms[index]? with
          | none => exact .nil
          | some c =>
              simp only
              split
              · split
                · exact .plain trivial
                · next subtree st hopen =>
                  refine .cons trivial ?_
                  rcases htrigger with rfl | rfl
                  · exact .nil
                  · have hkeeps := keeps_admitted (r := r) index f c parent event.nanos subtree st
                    exact handle_composed (launch_starter event fun _ => budget)
                      (fun r index parent hn => ih (.inr rfl) (some parent) hn index)
                      (hkeeps.numbered hn) _
              · exact .nil

section Calls

variable {r : Run} (hn : r.Numbered) (event : Event)

include hn

theorem begin_composed : Composed (beginMoments event r) := by
  have hnumbered : ({ r with begun := true } : Run).Numbered := ⟨hn.1, hn.2⟩
  refine .cons trivial (.fold (I := Numbered) (fun r id _ hn => ?_) hnumbered)
  split
  · next index hindex =>
    have happointed := numbered_modifyFsm hn index fun c => { c with isRoot := true }
    exact ⟨.cons trivial (launch_composed (.inl rfl) _ none happointed index),
      (launchRoot_path happointed event index).follows.numbered happointed⟩
  · exact ⟨.nil, hn⟩

theorem startDue_composed (index : Nat) : Composed (startDueMoments event r index) := by
  rw [startDueMoments]
  split
  · split
    · exact .cons trivial (launch_composed (.inl rfl) _ none (numbered_modifyFsm hn _ _) index)
    · exact .nil
  · exact .nil

theorem offer_composed (f : FsmDefinition) (id : ScenarioId) :
    Composed (offerMoments f event r id) := by
  rw [offerMoments]
  split
  · split
    · exact handle_composed (launch_starter event fun r => r.settings.spawnLimit)
        (fun r index parent hn => launch_composed (.inr rfl) _ (some parent) hn index) hn id
    · exact .nil
  · exact .nil

theorem visit_composed (index : Nat) : Composed (visitMoments event r index) := by
  refine .cons trivial (.cons trivial ?_)
  rw [List.append_eq, List.nil_append]
  have hretired := (follows_retire (r.modifyFsm index FsmSchedule.mergePending) index).numbered
    (numbered_modifyFsm hn _ _)
  split
  · refine .fold (I := Numbered) (fun r id _ hn => ?_) hretired
    exact ⟨offer_composed hn event _ id, (offer_path hn event _ id).follows.numbered hn⟩
  · exact .nil

theorem onEvent_composed : Composed (r.onEventMoments event) := by
  rw [onEventMoments]
  split
  · exact .nil
  · have harrived : (r.arrived event).Numbered := ⟨hn.1, hn.2⟩
    have hopened := (opened_path harrived event).follows.numbered harrived
    have hdue : ∀ r index, Numbered r → Composed (startDueMoments event r index) ∧
        (r.startDue index).Numbered := fun r index hn =>
      ⟨startDue_composed hn event index, (startDue_path hn event index).follows.numbered hn⟩
    refine .append (.cons trivial (.append ?_ (.fold (fun r index _ hn => hdue r index hn)
      hopened))) ?_
    · split
      · exact .nil
      · exact begin_composed harrived event
    · split
      · have hready := Path.fold (List.range (r.arrived event).opened.fsms.length)
          (fun r' index _ hr' _ => startDue_path hr' event index) hopened
        refine .fold (I := Numbered) (fun r index _ hn => ?_) (hready.follows.numbered hopened)
        exact ⟨visit_composed hn event index, (visit_path hn event index).follows.numbered hn⟩
      · exact .nil

omit hn in
theorem cancel_composed (id : ScenarioId) : Composed (r.cancelMoments id) := by
  rw [cancelMoments]
  split
  · exact .plain trivial
  · exact .nil

omit hn in
theorem dispose_composed : Composed r.disposeMoments := by
  rw [disposeMoments]
  split
  · exact .nil
  · refine .append (.fold (I := fun _ => True) (fun r id _ _ => ⟨cancel_composed id, trivial⟩)
      trivial) (.plain trivial)

theorem moments_composed (calls : List Call) : Composed (r.moments calls) := by
  refine .fold (I := Numbered) (fun r call _ hn => ⟨?_, (perform_path hn call).follows.numbered hn⟩)
    hn
  cases call with
  | event e => exact onEvent_composed hn e
  | cancel id => exact cancel_composed id
  | dispose => exact dispose_composed

end Calls

end Run

end TraceAutomata
