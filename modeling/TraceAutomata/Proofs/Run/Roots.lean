import TraceAutomata.Proofs.Run.Endure
import TraceAutomata.Proofs.Run.Faithful

namespace TraceAutomata

namespace Run

/-- Whether a scenario of an fsm is remembered that has a property. -/
def hasScenario (r : Run) (fsm : String) (p : Scenario → Bool) : Bool :=
  r.scenarios.any fun s => s.fsm == fsm && p s

/-- Whether a scenario of an fsm is to start with the next event. -/
def isDue (r : Run) (fsm : String) : Bool :=
  ((r.defs.fsmIndex? fsm).bind fun i => r.fsms[i]?).any (·.startNext)

/-- Whether the cancellation of a scenario takes from an fsm the one that waits, while another one goes
on and no start is due. -/
def depletes (r : Run) (fsm : String) (id : ScenarioId) : Bool :=
  (r.scenario? id).any (fun s => s.fsm == fsm && s.isWaiting) &&
    r.hasScenario fsm (fun s => s.isLive && s.id != id) && !r.isDue fsm

section Counts

variable {r : Run} {f : FsmDefinition} {c : FsmSchedule} {i : Nat}

theorem hasScenario_iff {fsm : String} {p : Scenario → Bool} :
    r.hasScenario fsm p = true ↔ ∃ s ∈ r.scenarios, s.fsm = fsm ∧ p s = true := by
  simp [hasScenario]

theorem Sound.countP_pos_iff (h : r.Sound f c) (hn : r.Numbered) (p : Scenario → Bool) :
    0 < c.tracked.countP (r.holds p) ↔ r.hasScenario f.id p = true := by
  rw [List.countP_pos_iff, hasScenario_iff]
  constructor
  · rintro ⟨id, hid, hholds⟩
    obtain ⟨s, hs, rfl, hfsm⟩ := (h.mem_tracked id).mp hid
    rw [holds_of_scenario? (hn.scenario?_of_mem hs)] at hholds
    exact ⟨s, hs, hfsm, hholds⟩
  · rintro ⟨s, hs, hfsm, hp⟩
    exact ⟨s.id, (h.mem_tracked s.id).mpr ⟨s, hs, rfl, hfsm⟩,
      (holds_of_scenario? (hn.scenario?_of_mem hs) p).trans hp⟩

theorem Sound.live_pos_iff (h : r.Sound f c) (hn : r.Numbered) :
    0 < c.live ↔ r.hasScenario f.id Scenario.isLive = true := by
  rw [← h.live_eq]
  exact h.countP_pos_iff hn _

theorem Sound.waiting_pos_iff (h : r.Sound f c) (hn : r.Numbered) :
    0 < c.waiting ↔ r.hasScenario f.id Scenario.isWaiting = true := by
  rw [h.waiting]
  exact h.countP_pos_iff hn _

theorem Sound.live_le_one (h : r.Sound f c) (hn : r.Numbered) {id : ScenarioId}
    (hother : r.hasScenario f.id (fun s => s.isLive && s.id != id) = false) : c.live ≤ 1 := by
  rw [← h.live_eq]
  calc c.tracked.countP (r.holds Scenario.isLive)
      ≤ c.tracked.countP (· == id) := List.countP_mono_left fun x hx hlive => by
        obtain ⟨s, hs, rfl, hfsm⟩ := (h.mem_tracked x).mp hx
        rw [holds_of_scenario? (hn.scenario?_of_mem hs)] at hlive
        by_contra hne
        have hmem : ∃ s ∈ r.scenarios, s.fsm = f.id ∧ (s.isLive && s.id != id) = true :=
          ⟨s, hs, hfsm, by simpa [hlive] using hne⟩
        rw [← hasScenario_iff, hother] at hmem
        cases hmem
    _ ≤ 1 := List.nodup_iff_count_le_one.mp h.nodup id

theorem isDue_eq (hnodup : (r.defs.fsms.map (·.id)).Nodup) (hf : r.defs.fsms[i]? = some f)
    (hc : r.fsms[i]? = some c) : r.isDue f.id = c.startNext := by
  have hindex : r.defs.fsmIndex? f.id = some i :=
    DefinitionSet.fsmIndex?_of_getElem? hnodup hf
  rw [isDue, hindex, Option.bind_some, hc, Option.any_some]

end Counts

section Roots

variable {r : Run} {f : FsmDefinition} {i : Nat}

theorem Supplied.isLive (h : r.Supplied i FsmSchedule.live) (hground : r.Grounded)
    (hf : r.defs.fsms[i]? = some f) :
    r.hasScenario f.id Scenario.isLive = true ∨ r.isDue f.id = true := by
  obtain ⟨c, hc, -, hs⟩ := h
  rw [isDue_eq hground.nodup_ids hf hc,
    ← (hground.scheduled.sound i f c hf hc).live_pos_iff hground.numbered]
  exact hs

theorem Supplied.isWaiting (h : r.Supplied i FsmSchedule.waiting) (hground : r.Grounded)
    (hf : r.defs.fsms[i]? = some f) :
    r.hasScenario f.id Scenario.isWaiting = true ∨ r.isDue f.id = true := by
  obtain ⟨c, hc, -, hs⟩ := h
  rw [isDue_eq hground.nodup_ids hf hc,
    ← (hground.scheduled.sound i f c hf hc).waiting_pos_iff hground.numbered]
  exact hs

theorem cancel_shift (hground : r.Grounded) {c : FsmSchedule} (hf : r.defs.fsms[i]? = some f)
    (hc : r.fsms[i]? = some c) (id : ScenarioId) :
    (r.cancel id).1 = r ∨ ∃ s c', r.scenario? id = some s ∧
      (r.cancel id).1.fsms[i]? = some c' ∧ Shift (.cancel s) i f c c' := by
  rw [cancel]
  cases hfound : (r.scenario? id).filter Scenario.isLive with
  | none => exact .inl rfl
  | some s =>
      obtain ⟨hid, hs, hlive⟩ := scenario?_of_filter hfound
      have move : Move ⟨r, none, .cancel s⟩ (r.cancelLive s) := .cancel hs hlive
      obtain ⟨c', hc', hshift⟩ := move.shift hground hf hc
      exact .inr ⟨s, c', hid ▸ hs, hc', hshift⟩

theorem Supplied.cancel_live (h : r.Supplied i FsmSchedule.live) (hground : r.Grounded)
    (hf : r.defs.fsms[i]? = some f) (id : ScenarioId) :
    (r.cancel id).1.Supplied i FsmSchedule.live := by
  obtain ⟨c, hc, hroot, hs⟩ := h
  rcases cancel_shift hground hf hc id with heq | ⟨s, c', -, hc', hshift⟩
  · rw [heq]
    exact ⟨c, hc, hroot, hs⟩
  · have hle := (hground.scheduled.sound i f c hf hc).ended_le
    exact ⟨c', hc', hshift.isRoot hroot, hshift.live nofun hle hroot hs⟩

theorem Supplied.cancel_waiting (h : r.Supplied i FsmSchedule.waiting) (hground : r.Grounded)
    (hf : r.defs.fsms[i]? = some f) (hconc : f.concurrent = true) {id : ScenarioId}
    (hkept : r.depletes f.id id = false) : (r.cancel id).1.Supplied i FsmSchedule.waiting := by
  obtain ⟨c, hc, hroot, hs⟩ := h
  rcases cancel_shift hground hf hc id with heq | ⟨s, c', hfound, hc', hshift⟩
  · rw [heq]
    exact ⟨c, hc, hroot, hs⟩
  · refine ⟨c', hc', hshift.isRoot hroot, hshift.waiting nofun hconc hroot ?_ hs⟩
    intro x hx hfsm hwaiting
    obtain rfl := Act.cancel.inj hx
    rw [depletes, hfound, Option.any_some, hfsm, hwaiting, beq_self_eq_true, Bool.and_self,
      Bool.true_and, isDue_eq hground.nodup_ids hf hc, Bool.and_eq_false_iff,
      Bool.not_eq_false'] at hkept
    exact hkept.imp_left
      ((hground.scheduled.sound i f c hf hc).live_le_one hground.numbered)

/-- A cancellation that depletes an fsm leaves it without a start. -/
theorem cancel_of_depletes (hground : r.Grounded) (hf : r.defs.fsms[i]? = some f)
    {id : ScenarioId} (h : r.depletes f.id id = true) :
    (r.cancel id).1.hasScenario f.id Scenario.isWaiting = false ∧
      (r.cancel id).1.isDue f.id = false := by
  obtain ⟨c, hc⟩ := hground.scheduled.exists_schedule hf
  rw [depletes, Bool.and_eq_true, Bool.and_eq_true, Option.any_eq_true, Bool.not_eq_true',
    isDue_eq hground.nodup_ids hf hc] at h
  obtain ⟨⟨⟨s, hs, hwaits⟩, hother⟩, hdue⟩ := h
  obtain rfl := id_of_scenario? hs
  rw [Bool.and_eq_true, beq_iff_eq] at hwaits
  obtain ⟨hfsm, hwaits⟩ := hwaits
  have hlive := isLive_of_isWaiting s hwaits
  have hcancel : (r.cancel s.id).1 = r.cancelLive s := by
    rw [cancel, hs, Option.filter_some, if_pos hlive]
  have hground' : (r.cancelLive s).Grounded := hground.move (Move.cancel hs hlive)
  have hindex : r.defs.fsmIndex? s.fsm = some i :=
    (DefinitionSet.fsmIndex?_eq_some_iff hground.nodup_ids).mpr ⟨f, hf, hfsm.symm⟩
  have hc' := getElem?_cancelLive hground.numbered hs hindex hf hc hground'.scheduled
  have hle := (hground.scheduled.sound i f c hf hc).waiting_le
  have hkeeps := keeps_cancelLive r s
  rw [← hkeeps.defs] at hf
  have hsound' := hground'.scheduled.sound i f _ hf hc'
  have hgoes : (r.cancelLive s).hasScenario f.id Scenario.isLive = true := by
    obtain ⟨x, hx, hxfsm, hxlive⟩ := hasScenario_iff.mp hother
    simp only [Bool.and_eq_true, bne_iff_ne] at hxlive
    have hkept : (r.cancelLive s).scenario? x.id = some x := by
      rw [hkeeps.scenario? x.id (hground.numbered.le_created x hx)
        fun heq => hxlive.2 (Option.some.inj heq)]
      exact hground.numbered.scenario?_of_mem hx
    exact hasScenario_iff.mpr ⟨x, mem_of_scenario? hkept, hxfsm, hxlive.1⟩
  have hlive' := (hsound'.live_pos_iff hground'.numbered).mpr hgoes
  rw [hcancel, isDue_eq hground'.nodup_ids hf hc']
  constructor
  · rw [← Bool.not_eq_true, ← hsound'.waiting_pos_iff hground'.numbered,
      FsmSchedule.waiting_rearmed, if_pos hwaits, Nat.not_lt]
    exact Nat.le_of_eq (Nat.sub_eq_zero_of_le hle)
  · rw [FsmSchedule.startNext_rearmed_of_live _ hlive']
    exact hdue

end Roots

theorem performAll_stocked {r : Run} {d : DefinitionSet} {settings : RunSettings} {time : Int64}
    (hfresh : r.Fresh d settings time) (hground : r.Grounded) {f : FsmDefinition} {i : Nat}
    {stock : FsmSchedule → Nat} (hg : Gauge f stock) (hf : r.defs.fsms[i]? = some f)
    (hinitial : f.id ∈ r.defs.initial) {calls : List Call} (hcalls : Call.dispose ∉ calls)
    (hcancel : ∀ before id after, calls = before ++ Call.cancel id :: after →
      (r.performAll before).Supplied i stock → ((r.performAll before).cancel id).1.Supplied i stock) :
    ((∃ event, Call.event event ∈ calls) → (r.performAll calls).Supplied i stock) ∧
      ∀ event, ∃ c, ((r.performAll calls).readied event).Sound f c ∧
        ((r.performAll calls).readied event).Numbered ∧ 0 < stock c := by
  obtain ⟨hopen, hagain, hsupplied⟩ := performAll_supplied hg hground hf hinitial
    hfresh.begun hfresh.disposed calls hcalls hcancel
  refine ⟨hsupplied, fun event => ?_⟩
  obtain ⟨hground', hdefs⟩ := hground.performAll calls
  rw [← hdefs] at hf hinitial
  obtain ⟨hready, hdefs', c, hc, -, hpos⟩ :=
    readied_stocked hg hground' hopen event hf hinitial hagain
  exact ⟨c, hready.scheduled.sound i f c (hdefs' ▸ hf) hc, hready.numbered, hpos⟩

/-- In every run of an accepted document, after the first event and before the end, each initial fsm
has a live scenario or one is to start with the next event; and when an event is dispatched, each of
them has a live scenario. -/
theorem roots_endure {d : DefinitionDocument} {defs : DefinitionSet}
    (h : d.compile = .ok defs) (settings : RunSettings) (time : Int64) :
    ∃ r, Run.start defs (Store.empty time) settings = .ok r ∧
      ∀ calls, Call.dispose ∉ calls → ∀ fsm ∈ defs.initial,
        ((∃ event, Call.event event ∈ calls) →
          (r.performAll calls).hasScenario fsm Scenario.isLive = true ∨
            (r.performAll calls).isDue fsm = true) ∧
        ∀ event, ((r.performAll calls).readied event).hasScenario fsm Scenario.isLive = true := by
  obtain ⟨r, hstart, hfresh, hground⟩ := exists_grounded h settings time
  refine ⟨r, hstart, fun calls hcalls fsm hfsm => ?_⟩
  have hknown := ((DefinitionDocument.compile_eq_ok_iff d defs).mp h).known_initial fsm hfsm
  obtain ⟨f, hf, rfl⟩ : ∃ f ∈ defs.fsms, f.id = fsm := by simpa using hknown
  obtain ⟨i, hi⟩ := List.getElem?_of_mem hf
  rw [← hfresh.defs] at hi hfsm
  obtain ⟨hsupplied, hready⟩ := performAll_stocked hfresh hground (gauge_live f) hi hfsm hcalls
    fun before id after _ hs => by
      obtain ⟨hground', hdefs⟩ := hground.performAll before
      exact hs.cancel_live hground' (hdefs ▸ hi) id
  obtain ⟨hground', hdefs⟩ := hground.performAll calls
  refine ⟨fun hevent => (hsupplied hevent).isLive hground' (hdefs ▸ hi), fun event => ?_⟩
  obtain ⟨c, hsound, hn, hpos⟩ := hready event
  exact (hsound.live_pos_iff hn).mp hpos

theorem roots_endure_sample :
    ∃ defs r, DefinitionDocument.sample.compile = .ok defs ∧
      Run.start defs (Store.empty 0) {} = .ok r ∧ Call.dispose ∉ sampleCalls.dropLast ∧
      "task" ∈ defs.initial ∧ (∃ event, Call.event event ∈ sampleCalls.dropLast) ∧
      ((r.performAll sampleCalls.dropLast).hasScenario "task" Scenario.isLive = true ∨
        (r.performAll sampleCalls.dropLast).isDue "task" = true) := by
  obtain ⟨defs, hcompile⟩ := DefinitionDocument.exists_compile_sample
  obtain ⟨r, hstart, hendure⟩ := roots_endure hcompile {} 0
  have hinitial : "task" ∈ defs.initial := by
    rw [((DefinitionDocument.compile_eq_ok_iff _ _).mp hcompile).initial]
    decide +kernel
  have hcalls : Call.dispose ∉ sampleCalls.dropLast := by simp [sampleCalls]
  have hevent : ∃ event, Call.event event ∈ sampleCalls.dropLast := by simp [sampleCalls]
  exact ⟨defs, r, hcompile, hstart, hcalls, hinitial, hevent,
    (hendure _ hcalls _ hinitial).1 hevent⟩

/-- In every run of an accepted document, after the first event and before the end, each concurrent
initial fsm has a waiting scenario or one is to start with the next event, and when an event is
dispatched one waits, provided that no cancellation has depleted the fsm. One that does leaves the fsm
with neither. -/
theorem concurrent_roots_wait {d : DefinitionDocument} {defs : DefinitionSet}
    (h : d.compile = .ok defs) (settings : RunSettings) (time : Int64) :
    ∃ r, Run.start defs (Store.empty time) settings = .ok r ∧
      ∀ calls, Call.dispose ∉ calls →
        ∀ f ∈ defs.fsms, f.id ∈ defs.initial → f.concurrent = true →
          ((∀ before id after, calls = before ++ Call.cancel id :: after →
              (r.performAll before).depletes f.id id = false) →
            ((∃ event, Call.event event ∈ calls) →
              (r.performAll calls).hasScenario f.id Scenario.isWaiting = true ∨
                (r.performAll calls).isDue f.id = true) ∧
            ∀ event,
              ((r.performAll calls).readied event).hasScenario f.id Scenario.isWaiting = true) ∧
          ∀ id, (r.performAll calls).depletes f.id id = true →
            ((r.performAll calls).cancel id).1.hasScenario f.id Scenario.isWaiting = false ∧
              ((r.performAll calls).cancel id).1.isDue f.id = false := by
  obtain ⟨r, hstart, hfresh, hground⟩ := exists_grounded h settings time
  refine ⟨r, hstart, fun calls hcalls f hf hinitial hconc => ?_⟩
  obtain ⟨i, hi⟩ := List.getElem?_of_mem hf
  rw [← hfresh.defs] at hi hinitial
  obtain ⟨hground', hdefs⟩ := hground.performAll calls
  refine ⟨fun hkept => ?_, fun id hid => cancel_of_depletes hground' (hdefs ▸ hi) hid⟩
  obtain ⟨hsupplied, hready⟩ := performAll_stocked hfresh hground (gauge_waiting hconc) hi hinitial
    hcalls fun before id after heq hs => by
      obtain ⟨hground', hdefs⟩ := hground.performAll before
      exact hs.cancel_waiting hground' (hdefs ▸ hi) hconc (hkept before id after heq)
  refine ⟨fun hevent => (hsupplied hevent).isWaiting hground' (hdefs ▸ hi), fun event => ?_⟩
  obtain ⟨c, hsound, hn, hpos⟩ := hready event
  exact (hsound.waiting_pos_iff hn).mp hpos

/-- A pattern of one concurrent fsm, whose scenarios start with `A` and end with `B`. -/
def pairing : DefinitionDocument where
  id := "pattern"
  initial := ["pair"]
  preconditions := []
  scratchFields := ∅
  tests := .ofList [("a", .event { names := ["A"] }), ("b", .event { names := ["B"] })]
  actions := ∅
  fsms :=
    [{ id := "pair", initial := "S0", finalState := some "S_end", concurrent := true,
       states :=
        [{ name := "S0", transitions := [{ inputs := ["a"], target := "S1" }] },
          { name := "S1", transitions := [{ inputs := ["b"], target := "S_end" }] }] }]

/-- The second scenario is started with the second event, and is cancelled while the first one goes
on. -/
def pairingCalls : List Call :=
  [.event ⟨⟨10, 0⟩, "A", ∅, none⟩, .event ⟨⟨20, 0⟩, "C", ∅, none⟩, .cancel 2]

theorem exists_compile_pairing :
    ∃ defs f, pairing.compile = .ok defs ∧ f ∈ defs.fsms ∧ f.id = "pair" ∧ f.id ∈ defs.initial ∧
      f.concurrent = true := by
  obtain ⟨defs, -, hcompile, -, hcheck⟩ := pairing.exists_of_checks {} 0
    (fun defs _ => decide (∃ f ∈ defs.fsms, f.id = "pair" ∧ f.id ∈ defs.initial ∧
      f.concurrent = true))
    (by decide +kernel)
  obtain ⟨f, hf, hpair⟩ := of_decide_eq_true hcheck
  exact ⟨defs, f, hcompile, hf, hpair⟩

theorem concurrent_roots_wait_sample :
    ∃ defs r, pairing.compile = .ok defs ∧ Run.start defs (Store.empty 0) {} = .ok r ∧
      (∃ event, Call.event event ∈ pairingCalls.dropLast) ∧
      ((r.performAll pairingCalls.dropLast).hasScenario "pair" Scenario.isWaiting = true ∨
        (r.performAll pairingCalls.dropLast).isDue "pair" = true) := by
  obtain ⟨defs, f, hcompile, hf, hid, hinitial, hconc⟩ := exists_compile_pairing
  obtain ⟨r, hstart, hwait⟩ := concurrent_roots_wait hcompile {} 0
  have hcalls : Call.dispose ∉ pairingCalls.dropLast := by simp [pairingCalls]
  have hevent : ∃ event, Call.event event ∈ pairingCalls.dropLast := by simp [pairingCalls]
  have hkept : ∀ before id after, pairingCalls.dropLast = before ++ Call.cancel id :: after →
      (r.performAll before).depletes f.id id = false := by
    intro before id after heq
    have hmem : Call.cancel id ∈ pairingCalls.dropLast := by simp [heq]
    simp [pairingCalls] at hmem
  have hwaits := ((hwait _ hcalls f hf hinitial hconc).1 hkept).1 hevent
  exact ⟨defs, r, hcompile, hstart, hevent, hid ▸ hwaits⟩

/-- Once the waiting scenario has been cancelled, the next event finds none, and none is to start. -/
theorem cancelled_scenario_not_replaced :
    ∃ defs r f, pairing.compile = .ok defs ∧ Run.start defs (Store.empty 0) {} = .ok r ∧
      f ∈ defs.fsms ∧ f.id ∈ defs.initial ∧ f.concurrent = true ∧
      (r.performAll pairingCalls).hasScenario f.id Scenario.isWaiting = false ∧
      (r.performAll pairingCalls).isDue f.id = false ∧
      ((r.performAll pairingCalls).readied ⟨⟨30, 0⟩, "C", ∅, none⟩).hasScenario f.id
        Scenario.isWaiting = false := by
  obtain ⟨defs, r, hcompile, hstart, hcheck⟩ := pairing.exists_of_checks {} 0
    (fun defs r => decide (∃ f ∈ defs.fsms, f.id ∈ defs.initial ∧ f.concurrent = true ∧
      (r.performAll pairingCalls).hasScenario f.id Scenario.isWaiting = false ∧
      (r.performAll pairingCalls).isDue f.id = false ∧
      ((r.performAll pairingCalls).readied ⟨⟨30, 0⟩, "C", ∅, none⟩).hasScenario f.id
        Scenario.isWaiting = false))
    (by decide +kernel)
  obtain ⟨f, hf, hleft⟩ := of_decide_eq_true hcheck
  exact ⟨defs, r, f, hcompile, hstart, hf, hleft⟩

end Run

end TraceAutomata
