import Mathlib.Data.List.Sort
import TraceAutomata.Proofs.Run.Bystander

namespace TraceAutomata

namespace Run

def Ordered (r : Run) : Prop :=
  ∀ c ∈ r.fsms, c.tracked.Pairwise (· < ·)

/-- Every line of the later run is part of a line of the earlier one. -/
def Shrinks (r r' : Run) : Prop :=
  ∀ c' ∈ r'.fsms, ∃ c ∈ r.fsms, c'.tracked.Sublist c.tracked

section Shrinking

variable {r r' r'' : Run} {index : Nat}

theorem Shrinks.of_eq (h : r'.fsms = r.fsms) : Shrinks r r' := by
  intro c hc
  exact ⟨c, h ▸ hc, .refl _⟩

theorem Shrinks.trans (h : Shrinks r r') (h' : Shrinks r' r'') : Shrinks r r'' := by
  intro c'' hc''
  obtain ⟨c', hc', hsub'⟩ := h' c'' hc''
  obtain ⟨c, hc, hsub⟩ := h c' hc'
  exact ⟨c, hc, hsub'.trans hsub⟩

theorem Shrinks.ordered (h : Shrinks r r') (hr : r.Ordered) : r'.Ordered := by
  intro c' hc'
  obtain ⟨c, hc, hsub⟩ := h c' hc'
  exact (hr c hc).sublist hsub

theorem mem_modifyFsm {g : FsmSchedule → FsmSchedule} {c' : FsmSchedule}
    (h : c' ∈ (r.modifyFsm index g).fsms) :
    c' ∈ r.fsms ∨ ∃ c, r.fsms[index]? = some c ∧ c' = g c := by
  obtain ⟨i, hi⟩ := List.getElem?_of_mem h
  rw [modifyFsm, List.getElem?_modify] at hi
  cases hc : r.fsms[i]? with
  | none => simp [hc] at hi
  | some c =>
      rw [hc, Option.map_eq_map, Option.map_some, Option.some.injEq] at hi
      by_cases heq : index = i
      · rw [if_pos heq] at hi
        exact .inr ⟨c, heq ▸ hc, hi.symm⟩
      · rw [if_neg heq] at hi
        exact .inl (List.mem_of_getElem? (hi ▸ hc))

theorem shrinks_modifyFsm (r : Run) (index : Nat) {g : FsmSchedule → FsmSchedule}
    (hg : ∀ c, (g c).tracked.Sublist c.tracked) : Shrinks r (r.modifyFsm index g) := by
  intro c' hc'
  rcases mem_modifyFsm hc' with hc | ⟨c, hc, rfl⟩
  · exact ⟨c', hc, .refl _⟩
  · exact ⟨c, List.mem_of_getElem? hc, hg c⟩

theorem shrinks_restartIfIdle (r : Run) (index : Nat) : Shrinks r (r.restartIfIdle index) := by
  rw [restartIfIdle]
  split
  · apply shrinks_modifyFsm
    intro c
    split <;> exact .refl _
  · exact .of_eq rfl

theorem shrinks_enter {s : Scenario} (hs : r.scenario? s.id = some s) (index : Nat)
    (f : FsmDefinition) (current next : String) (time : Int64) :
    Shrinks r (r.enter index f s.id current next time).1 := by
  rw [enter_altered hs]
  have haltered : ∀ after groups left status, Shrinks r
      ((r.altered s after groups).modifyFsm index (counted f left status)) := by
    intro after groups left status
    refine .trans (.of_eq rfl) (shrinks_modifyFsm _ index fun c => ?_)
    rw [tracked_counted]
  simp only
  split
  · exact (haltered _ _ _ _).trans (shrinks_restartIfIdle _ index)
  · split <;> exact haltered _ _ _ _

theorem shrinks_cancelLive (hn : r.Numbered) {s : Scenario} (hs : r.scenario? s.id = some s) :
    Shrinks r (r.cancelLive s) := by
  rw [cancelLive_altered hn hs]
  simp only
  split
  · refine .trans (.trans (.of_eq rfl) (shrinks_modifyFsm _ _ fun c => ?_))
      (shrinks_restartIfIdle _ _)
    exact .refl _
  · exact .of_eq rfl

theorem shrinks_retire (r : Run) (index : Nat) : Shrinks r (r.retire index) := by
  cases hc : r.fsms[index]? with
  | none =>
      rw [retire, hc]
      exact .of_eq rfl
  | some c =>
      rw [retire_eq hc]
      refine .trans (.of_eq rfl) (shrinks_modifyFsm _ index fun c' => ?_)
      exact List.filter_sublist.append_right c'.pending

theorem Ordered.admitted (h : r.Ordered) (hstaffed : r.Staffed) {f : FsmDefinition}
    {c : FsmSchedule} (hf : r.defs.fsms[index]? = some f) (hc : r.fsms[index]? = some c)
    (parent : Option String) (time : Int64) (subtree : Quark) (st : Store) :
    (r.admitted index f c parent time subtree st).Ordered := by
  intro c' hc'
  rw [admitted_eq] at hc'
  have hmodify : c' ∈ (r.modifyFsm index fun c' =>
      { c' with
        created := c.created + 1, pending := c'.pending ++ [r.created + 1]
        waiting := c'.waiting + 1 }).fsms := hc'
  rcases mem_modifyFsm hmodify with hmem | ⟨x, hx, rfl⟩
  · exact h c' hmem
  · obtain rfl : c = x := Option.some.inj (hc.symm.trans hx)
    have hle : ∀ id ∈ c.tracked, id ≤ r.created := fun id =>
      (hstaffed.scheduled.sound index f c hf hc).le_created hstaffed.numbered
    have htracked : ({ c with
        created := c.created + 1, pending := c.pending ++ [r.created + 1]
        waiting := c.waiting + 1 } : FsmSchedule).tracked = c.tracked ++ [r.created + 1] :=
      (List.append_assoc ..).symm
    rw [htracked]
    refine List.pairwise_append.mpr
      ⟨h c (List.mem_of_getElem? hc), List.pairwise_singleton _ _, ?_⟩
    intro id hid new hnew
    obtain rfl := List.mem_singleton.mp hnew
    exact Nat.lt_succ_of_le (hle id hid)

theorem Ordered.move {m : Moment} (move : Move m r') (hstaffed : m.run.Staffed)
    (h : m.run.Ordered) : r'.Ordered := by
  cases move with
  | arrive _ => exact h
  | begin _ => exact h
  | appoint _ _ =>
      refine (shrinks_modifyFsm _ _ fun c => ?_).ordered h
      exact .refl c.tracked
  | takeDue _ _ =>
      refine (shrinks_modifyFsm _ _ fun c => ?_).ordered h
      exact .refl c.tracked
  | decide => exact h
  | abort _ => exact h
  | enroll _ hf hc _ _ => exact h.admitted hstaffed hf hc _ _ _ _
  | handle => exact h
  | receive hs _ _ =>
      rw [receive_altered hstaffed.numbered hs]
      exact h
  | operate _ => exact h
  | change _ => exact (Shrinks.of_eq (record_fsms _ _)).ordered h
  | save _ => exact (Shrinks.of_eq (record_fsms _ _)).ordered h
  | emit _ _ => exact h
  | enter hs _ _ _ => exact (shrinks_enter hs.1 _ _ _ _ _).ordered h
  | merge =>
      refine (shrinks_modifyFsm _ _ fun c => ?_).ordered h
      simp [FsmSchedule.mergePending, FsmSchedule.tracked]
  | retire => exact (shrinks_retire _ _).ordered h
  | cancel hs _ => exact (shrinks_cancelLive hstaffed.numbered hs).ordered h
  | dispose => exact h

end Shrinking

/-- No scenario has noted an event that has not been received yet. -/
def Noted (r : Run) : Prop :=
  ∀ s ∈ r.scenarios, ∀ n, s.lastEvent = some n → n ≤ r.received

theorem lastEvent_moved (f : FsmDefinition) (current next : String) (time : Int64)
    (s : Scenario) : (moved f current next time s).lastEvent = s.lastEvent := by
  rw [moved_eq]

theorem Alters.lastEvent_eq {m : Moment} {s s' : Scenario} {groups : List (List Write)}
    (h : Alters m s s' groups) :
    s'.lastEvent = s.lastEvent ∨
      (∃ f, m.act = .receive f s) ∧ s'.lastEvent = some m.run.received := by
  cases h with
  | receive _ => exact .inr ⟨⟨_, rfl⟩, rfl⟩
  | change _ => exact .inl rfl
  | save _ => exact .inl rfl
  | enter _ _ _ _ => exact .inl (lastEvent_moved _ _ _ _ s)
  | cancel =>
      rw [advance_eq]
      exact .inl rfl

theorem Noted.move {m : Moment} {r' : Run} (move : Move m r') (hn : m.run.Numbered)
    (h : m.run.Noted) : r'.Noted := by
  have hle := move.follows.received_le
  apply (Effect.of_move hn move).forall_scenarios
    (P := fun s => ∀ n, s.lastEvent = some n → n ≤ r'.received)
  · intro f _ sequence parent subtree n hlast
    cases hlast
  · intro s s' groups _ halters hs n hlast
    rcases halters.lastEvent_eq with heq | ⟨-, heq⟩
    · exact hs n (heq ▸ hlast)
    · rw [heq, Option.some.injEq] at hlast
      exact hlast ▸ hle
  · intro s hs n hlast
    exact Nat.le_trans (h s hs n hlast) hle

/-- A run with sound schedules in whose lines the numbers increase. -/
structure InLine (r : Run) : Prop where
  staffed : r.Staffed
  ordered : r.Ordered
  noted : r.Noted

theorem InLine.move {m : Moment} {r' : Run} (move : Move m r') (h : m.run.InLine) : r'.InLine :=
  ⟨h.staffed.move move, h.ordered.move move h.staffed, h.noted.move move h.staffed.numbered⟩

theorem InLine.of_path {event : Option Event} {r r' : Run} {ms : List Moment}
    (h : Path event r ms r') (hr : r.InLine) : r'.InLine :=
  (h.trace.invariant (fun _ _ _ move => InLine.move move) hr).1

theorem Staffed.inLine {r : Run} (h : r.Staffed)
    (fsms : r.fsms = r.defs.fsms.map fun f => { id := f.id }) (scenarios : r.scenarios = []) :
    r.InLine := by
  refine ⟨h, ?_, ?_⟩
  · intro c hc
    rw [fsms] at hc
    obtain ⟨f, -, rfl⟩ := List.mem_map.mp hc
    exact .nil
  · intro s hs
    rw [scenarios] at hs
    cases hs

theorem Fresh.inLine {r : Run} {d : DefinitionSet} {settings : RunSettings} {time : Int64}
    (h : r.Fresh d settings time) (hground : r.Grounded) : r.InLine :=
  hground.staffed.inLine (by rw [h.fsms, h.defs]) h.scenarios

theorem start_inLine {d : DefinitionDocument} {defs : DefinitionSet} (h : d.compile = .ok defs)
    {store : Store} {settings : RunSettings} {r : Run}
    (hstart : Run.start defs store settings = .ok r) : r.InLine := by
  have hstaffed := start_staffed h hstart
  obtain ⟨st, root, -, rfl⟩ := start_eq_ok_iff.mp hstart
  exact hstaffed.inLine rfl rfl

/-- The live scenarios of an fsm, in the order in which they were started. -/
def line (r : Run) (f : FsmDefinition) : List Scenario :=
  r.scenarios.filter fun s => s.fsm == f.id && s.isLive

theorem mem_line {r : Run} {f : FsmDefinition} {s : Scenario} :
    s ∈ r.line f ↔ s ∈ r.scenarios ∧ s.fsm = f.id ∧ s.isLive = true := by
  simp [line]

theorem pairwise_line {r : Run} (hn : r.Numbered) (f : FsmDefinition) :
    (r.line f).Pairwise fun s s' => s.id < s'.id :=
  hn.increasing.sublist List.filter_sublist

theorem Numbered.isLive_of_mem {r : Run} (hn : r.Numbered) {s : Scenario}
    (hs : s ∈ r.scenarios) : r.isLive s.id = s.isLive := by
  rw [isLive, hn.scenario?_of_mem hs, Option.any_some]

theorem InLine.line_eq {r : Run} (h : r.InLine) {index : Nat} {f : FsmDefinition}
    {c : FsmSchedule} (hf : r.defs.fsms[index]? = some f) (hc : r.fsms[index]? = some c) :
    c.tracked.filter r.isLive = (r.line f).map (·.id) := by
  have hn := h.staffed.numbered
  have hsound := h.staffed.scheduled.sound index f c hf hc
  have htracked : (c.tracked.filter r.isLive).Pairwise (· < ·) :=
    (h.ordered c (List.mem_of_getElem? hc)).sublist List.filter_sublist
  have hline : ((r.line f).map (·.id)).Pairwise (· < ·) :=
    List.pairwise_map.mpr (pairwise_line hn f)
  apply htracked.eq_of_mem_iff hline
  intro id
  rw [List.mem_filter, hsound.mem_tracked, List.mem_map]
  constructor
  · rintro ⟨⟨s, hs, rfl, hfsm⟩, hlive⟩
    exact ⟨s, mem_line.mpr ⟨hs, hfsm, hn.isLive_of_mem hs ▸ hlive⟩, rfl⟩
  · rintro ⟨s, hs, rfl⟩
    obtain ⟨hs, hfsm, hlive⟩ := mem_line.mp hs
    exact ⟨⟨s, hs, rfl, hfsm⟩, (hn.isLive_of_mem hs).trans hlive⟩

end Run

end TraceAutomata
