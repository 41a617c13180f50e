import TraceAutomata.Proofs.Run.Chronicle
import TraceAutomata.Proofs.Run.Faithful
import TraceAutomata.Proofs.Run.Twin
import TraceAutomata.Proofs.Store.InForce
import TraceAutomata.Proofs.Store.Stamped

namespace TraceAutomata

namespace Layout

/-- Whether names lead to the scratch slots. -/
def isScratch (names : List String) : Bool :=
  names.head? == some scratch

theorem ne_slotPath_of_not_isScratch {names : List String} (h : isScratch names = false)
    (slot : String) : names ≠ slotPath slot := by
  rintro rfl
  simp [isScratch, slotPath] at h

theorem slotPath_injective {slot slot' : String} (h : slotPath slot = slotPath slot') :
    slot = slot' := by
  simpa [slotPath] using h

theorem singleton_ne_slotPath (name slot : String) : [name] ≠ slotPath slot := by
  simp [slotPath]

theorem statePath_ne_slotPath (state slot : String) : statePath state ≠ slotPath slot := by
  simp [statePath, slotPath]

end Layout

theorem Interval.Shows.agrees {log writes : List Interval} (h : Shows log writes) :
    (ongoing log).Agrees (ongoing writes) := by
  change (valueOf log.getLast?).Agrees _
  have hbrought := h.brought
  generalize log.getLast? = source at hbrought ⊢
  cases hbrought with
  | nothing hnull =>
      rw [ongoing]
      cases hlast : writes.getLast? with
      | none => exact .inl rfl
      | some w => exact .inl (hnull w (List.mem_of_getLast? hlast)).symm
  | @change before repeats i _ hrepeated =>
      rw [ongoing, List.getLast?_append, List.getLast?_cons]
      cases hlast : repeats.getLast? with
      | none => exact .inl rfl
      | some w => exact Value.agrees_of_coincides (hrepeated w (List.mem_of_getLast? hlast))

theorem Interval.Shows.mem_of_getLast? {log writes : List Interval} (h : Shows log writes)
    {i : Interval} (hi : log.getLast? = some i) : i ∈ writes := by
  have hbrought := h.brought
  rw [hi] at hbrought
  cases hbrought
  exact List.mem_append_right _ List.mem_cons_self

namespace Moment

/-- What the act writes to a slot of a scenario, at the time of the event. -/
def slotWrite? (name slot : String) (m : Moment) : Option Interval :=
  match m.act with
  | .save scope slot' value =>
      if scope.scenario = name ∧ slot' = slot then m.event.map fun e => ⟨e.nanos, value⟩ else none
  | _ => none

theorem slotWrite?_eq_some {name slot : String} {m : Moment} {w : Interval}
    (h : m.slotWrite? name slot = some w) :
    ∃ e scope, m.event = some e ∧ scope.scenario = name ∧ m.act = .save scope slot w.value ∧
      w.start = e.nanos := by
  rw [slotWrite?] at h
  split at h
  · next scope slot' value hact =>
    split at h
    · next hplace =>
      obtain ⟨e, he, rfl⟩ := Option.map_eq_some_iff.mp h
      obtain ⟨hname, rfl⟩ := hplace
      exact ⟨e, scope, he, hname, hact, rfl⟩
    · cases h
  · cases h

end Moment

namespace Run

def slotLog (r : Run) (name slot : String) : List Interval :=
  (r.store.below (r.pathOf name)).intervalsAt (Layout.slotPath slot)

/-- What a slot of a scenario holds, null where there is no such slot. -/
def slotValue (r : Run) (name slot : String) : Value :=
  ((r.store.resolve r.root (Layout.scenarioPath name ++ Layout.slotPath slot)).toOption.bind
    fun q => (r.store.ongoing q).toOption).getD .null

def slotWrites (name slot : String) (ms : List Moment) : List Interval :=
  ms.filterMap (Moment.slotWrite? name slot)

theorem slotValue_eq_resolve (r : Run) (name slot : String) (event : Event) :
    r.slotValue name slot =
      ((ValueSource.scratch slot).resolve (r.context name event)).toOption.getD .null := by
  rw [ValueSource.resolve, GuardContext.query, toOption_ofStore, Except.toOption_bind]
  rfl

theorem slotValue_eq {r : Run} (h : r.Anchored) (name slot : String) :
    r.slotValue name slot = Interval.ongoing (r.slotLog name slot) := by
  rw [slotValue_eq_resolve r name slot ⟨.ofNanos 0, "", ∅, none⟩, ValueSource.resolve]
  change (((r.context name _).query (Layout.scenarioPath name ++ _)).toOption).getD .null = _
  rw [query_eq h, slotLog, View.intervalsAt]
  cases r.store.below (r.pathOf name) (Layout.slotPath slot) <;> rfl

section Acts

variable {m : Moment} {r' : Run} {name slot : String}

theorem ne_slotPath_of_alters {s s' : Scenario} {groups : List (List Write)}
    (h : Alters m s s' groups) (hspares : m.Spares Layout.isScratch)
    (hnone : m.slotWrite? s.name slot = none) :
    ∀ writes ∈ groups, ∀ w ∈ writes, w.path ≠ Layout.slotPath slot := by
  have hstate : ∀ {time : Int64} {state : String} {status : ScenarioStatus},
      ∀ w ∈ stateWrites time state status, w.path ≠ Layout.slotPath slot := by
    intro time state status w hw
    rcases List.mem_pair.mp hw with rfl | rfl <;> exact Layout.singleton_ne_slotPath _ slot
  intro writes hwrites w hw
  cases h with
  | receive _ =>
      rw [receiveGroups] at hwrites
      split at hwrites
      · rcases List.mem_pair.mp hwrites with rfl | rfl
        · exact hstate w hw
        · rw [List.mem_singleton.mp hw]
          exact Layout.statePath_ne_slotPath _ slot
      · cases hwrites
  | change _ =>
      rw [List.mem_singleton.mp hwrites] at hw
      rw [List.mem_singleton.mp hw]
      exact Layout.ne_slotPath_of_not_isScratch (hspares _ _ _ rfl) slot
  | @save r e s slot' value _ =>
      rw [List.mem_singleton.mp hwrites] at hw
      rw [List.mem_singleton.mp hw]
      intro heq
      obtain rfl := Layout.slotPath_injective heq
      simp [Moment.slotWrite?, Scenario.scope] at hnone
  | enter _ _ _ _ =>
      rcases path_of_moveGroups hwrites hw with ⟨-, h⟩ | ⟨-, h⟩ | ⟨-, h⟩ | h | h <;> rw [h]
      · exact Layout.singleton_ne_slotPath _ slot
      · exact Layout.statePath_ne_slotPath _ slot
      · exact Layout.singleton_ne_slotPath _ slot
      · exact Layout.singleton_ne_slotPath _ slot
      · exact Layout.singleton_ne_slotPath _ slot
  | cancel =>
      rcases List.mem_pair.mp hwrites with rfl | rfl
      · rw [List.mem_singleton.mp hw]
        exact Layout.singleton_ne_slotPath _ slot
      · exact hstate w hw

/-- An act that does not write to a slot of a scenario leaves what is recorded of it, and nothing is
recorded of the slots of a new scenario. -/
theorem slotLog_of_move (hground : m.run.Grounded) (hspares : m.Spares Layout.isScratch)
    (move : Move m r') (hnone : m.slotWrite? name slot = none) :
    r'.slotLog name slot = m.run.slotLog name slot := by
  have hanchored := hground.anchored
  have hpath : r'.pathOf name = m.run.pathOf name := by
    rw [pathOf, move.follows.defs, pathOf]
  rw [slotLog, slotLog, hpath]
  cases Effect.of_move hground.numbered move with
  | quiet _ _ _ _ store =>
      rcases store with heq | ⟨-, time, heq⟩
      · rw [heq]
      · rw [heq, View.intervalsAt, Store.below, Store.historyAt?_extendTo, ← Store.below,
          ← View.intervalsAt]
  | alters s s' groups hs _ halters _ _ _ store =>
      obtain ⟨hrec, -⟩ := History.recordAll_spec hanchored.tree hanchored.unlocked
        (hanchored.subtree s (mem_of_scenario? hs)) groups
      rw [← store] at hrec
      rcases eq_or_ne name s.name with rfl | hne
      · rw [hrec.below]
        exact View.intervalsAt_record_of_ne (ne_slotPath_of_alters halters hspares hnone)
      · rw [below_eq_of_recorded hrec hne]
  | admits index f c parent trigger subtree st _ _ hf hc hopen heq =>
      have hnew := not_started_next hground.nodup_ids hf hc
      obtain ⟨hopened, -⟩ := hanchored.opened hnew hopen
        ((trigger.map Event.nanos).getD m.run.store.endTime) f.id parent
      rw [heq, admitted_eq]
      rcases eq_or_ne name (Scenario.nameOf f.id (c.created + 1)) with rfl | hne
      · have hidentity : Layout.slotPath slot ∉ Layout.identityPaths := by
          simp [Layout.slotPath, Layout.identityPaths]
        rw [hopened.below, intervalsAt_identity _ f.id parent hidentity, View.intervalsAt,
          Store.below, below_of_not_started hanchored hnew]
        rfl
      · rw [hopened.below_eq hne]
  | aborts _ name error st _ hopen _ =>
      exact (hanchored.openScenario_ne_error name error st hopen).elim

/-- A write to a slot is recorded, unless something was recorded there at a later time. -/
theorem slotLog_of_save {w : Interval} (hground : m.run.Grounded) (move : Move m r')
    (hwrite : m.slotWrite? name slot = some w)
    (huntil : Interval.Until (m.run.slotLog name slot) w.start) :
    Interval.extend? (m.run.slotLog name slot) w.start w.value = some (r'.slotLog name slot) := by
  obtain ⟨e, scope, he, rfl, hact, hstart⟩ := Moment.slotWrite?_eq_some hwrite
  have hanchored := hground.anchored
  have hpath : r'.pathOf scope.scenario = m.run.pathOf scope.scenario := by
    rw [pathOf, move.follows.defs, pathOf]
  rw [hstart] at huntil ⊢
  cases move with
  | @save r e' s slot' value hs =>
      cases hact
      cases he
      obtain ⟨hrec, -⟩ := History.writeAll_spec hanchored.tree hanchored.unlocked
        (hanchored.subtree s (mem_of_scenario? hs.1)) [⟨Layout.slotPath slot, e.nanos, w.value⟩]
      rw [← History.write_eq_writeAll, ← History.saveSlot] at hrec
      obtain ⟨log, hlog, -⟩ := huntil.extend w.value
      have hintervals : Interval.extend?
          ((r.store.below (r.pathOf s.name)).intervalsAt (Layout.slotPath slot)) e.nanos w.value =
            some log := hlog
      have hview : (r.store.below (r.pathOf s.name)).writeAll
          [⟨Layout.slotPath slot, e.nanos, w.value⟩] =
            ((r.store.below (r.pathOf s.name)).set (Layout.slotPath slot) log, true) := by
        simp only [View.writeAll, View.write, hintervals]
      have hbelow := hrec.below
      rw [hview] at hbelow
      rw [hlog, slotLog, hpath, record_eq]
      change _ = some (((History.saveSlot s.subtree e.nanos slot w.value).after r.store).below
        (r.pathOf s.name) |>.intervalsAt (Layout.slotPath slot))
      rw [hbelow, View.intervalsAt_set, if_pos rfl]
  | _ => cases hact

end Acts

section Runs

variable {r q : Run} {ms : List Moment}

/-- In what is recorded of the slots, all writes to them are shown. -/
def SlotsShown (ms : List Moment) (r : Run) : Prop :=
  ∀ name slot, Interval.Shows (r.slotLog name slot) (slotWrites name slot ms)

theorem SlotsShown.move {m : Moment} (h : SlotsShown ms m.run) (hground : m.run.Grounded)
    (hspares : m.Spares Layout.isScratch)
    (hordered : ∀ m' ∈ ms, ∀ e' e, m'.event = some e' → m.event = some e → e'.nanos ≤ e.nanos)
    (move : Move m q) : SlotsShown (ms ++ [m]) q := by
  intro name slot
  have hshows := h name slot
  rw [slotWrites, List.filterMap_append, ← slotWrites]
  cases hwrite : m.slotWrite? name slot with
  | none =>
      rw [slotLog_of_move hground hspares move hwrite, List.filterMap_cons_none hwrite,
        List.filterMap_nil, List.append_nil]
      exact hshows
  | some w =>
      have huntil : Interval.Until (m.run.slotLog name slot) w.start := by
        intro i hi
        obtain ⟨m', hm', hi'⟩ := List.mem_filterMap.mp (hshows.mem_of_getLast? hi)
        obtain ⟨e', -, he', -, -, hstart'⟩ := Moment.slotWrite?_eq_some hi'
        obtain ⟨e, -, he, -, -, hstart⟩ := Moment.slotWrite?_eq_some hwrite
        rw [hstart', hstart]
        exact hordered m' hm' e' e he' he
      rw [List.filterMap_cons_some hwrite, List.filterMap_nil]
      exact hshows.write (slotLog_of_save hground move hwrite huntil)

theorem SlotsShown.trace (h : SlotsShown [] r) (hground : r.Grounded) (htrace : Trace r ms q)
    (hspares : ∀ m ∈ ms, m.Spares Layout.isScratch)
    (hordered : ms.Pairwise fun m m' => ∀ e e', m.event = some e → m'.event = some e' →
      e.nanos ≤ e'.nanos) : SlotsShown ms q := by
  refine (htrace.invariant_past (I := fun ms q => q.Grounded ∧ SlotsShown ms q) ?_ ⟨hground, h⟩).2
  rintro past m rest r' rfl move ⟨hground, h⟩
  have hbefore := (List.pairwise_append.mp hordered).2.2
  exact ⟨hground.move move, h.move hground (hspares m (List.mem_append_right _ List.mem_cons_self))
    (fun m' hm' => hbefore m' hm' m List.mem_cons_self) move⟩

theorem Fresh.slotsShown {d : DefinitionSet} {settings : RunSettings} {time : Int64}
    (h : r.Fresh d settings time) : SlotsShown [] r := by
  intro name slot
  have hnone : r.slotLog name slot = [] := by
    rw [slotLog, View.intervalsAt, Store.below, h.historyAt?, pathOf]
    simp [Layout.scenarioPath]
  rw [hnone]
  exact Interval.shows_nil

/-- A slot holds the value that was written to it last, up to the sign of a zero. -/
theorem slotValue_agrees (h : SlotsShown ms q) (hground : q.Grounded) (name slot : String) :
    (q.slotValue name slot).Agrees (Interval.ongoing (slotWrites name slot ms)) := by
  rw [slotValue_eq hground.anchored]
  exact (h name slot).agrees

theorem slotValue_of_trace (hground : r.Grounded) (htrace : Trace r ms q)
    (hspares : ∀ m ∈ ms, m.Spares Layout.isScratch) {name slot : String}
    (hnone : slotWrites name slot ms = []) : q.slotValue name slot = r.slotValue name slot := by
  have hkept := htrace.invariant
    (I := fun x => x.Grounded ∧ x.slotLog name slot = r.slotLog name slot)
    (fun m hm r' move hx => ⟨hx.1.move move, (slotLog_of_move hx.1 (hspares m hm) move
      (List.filterMap_eq_nil_iff.mp hnone m hm)).trans hx.2⟩) ⟨hground, rfl⟩
  rw [slotValue_eq hkept.1.1.anchored, slotValue_eq hground.anchored, hkept.1.2]

end Runs

end Run

end TraceAutomata
