import Mathlib.Data.Bool.Basic
import TraceAutomata.Proofs.Run.Effect
import TraceAutomata.Proofs.Run.Start

namespace TraceAutomata

theorem countP_congr_nodup {l : List Nat} {p q : Nat → Bool} {x : Nat} (hl : l.Nodup)
    (hx : x ∈ l) (h : ∀ y ∈ l, y ≠ x → p y = q y) :
    l.countP p + (q x).toNat = l.countP q + (p x).toNat := by
  induction l with
  | nil => cases hx
  | cons y rest ih =>
      obtain ⟨hy, hrest⟩ := List.nodup_cons.mp hl
      rcases List.mem_cons.mp hx with rfl | hx
      · have hsame : rest.countP p = rest.countP q := by
          apply List.countP_congr
          intro z hz
          rw [h z (List.mem_cons_of_mem _ hz) fun heq => hy (heq ▸ hz)]
        simp only [List.countP_cons, hsame]
        cases p x <;> cases q x <;> simp
      · have hyx : p y = q y := h y List.mem_cons_self fun heq => hy (heq ▸ hx)
        have hih := ih hrest hx fun z hz => h z (List.mem_cons_of_mem _ hz)
        simp only [List.countP_cons, hyx]
        omega

namespace Run

def holds (r : Run) (p : Scenario → Bool) (id : ScenarioId) : Bool :=
  (r.scenario? id).any p

/-- The counts and lists of one fsm agree with its scenarios. -/
structure Sound (r : Run) (f : FsmDefinition) (c : FsmSchedule) : Prop where
  waiting : c.waiting = c.tracked.countP (r.holds Scenario.isWaiting)
  waiting_le : c.waiting ≤ 1
  live_le : f.concurrent = false → c.tracked.countP (r.holds Scenario.isLive) ≤ 1
  created : c.created = c.tracked.countP (r.holds Scenario.isLive) + c.matched + c.abandoned
  nodup : c.tracked.Nodup
  mem_tracked : ∀ id, id ∈ c.tracked ↔ ∃ s ∈ r.scenarios, s.id = id ∧ s.fsm = f.id
  of_waiting : ∀ s ∈ r.scenarios, s.fsm = f.id → s.isWaiting = true → s.state = f.initial
  of_live : ∀ s ∈ r.scenarios, s.fsm = f.id → s.isLive = true →
    s.state ∉ f.terminals

/-- The counts and lists of all fsms agree with the scenarios, each of which has an fsm. -/
structure Scheduled (r : Run) : Prop where
  numbered : r.Numbered
  length : r.fsms.length = r.defs.fsms.length
  sound : ∀ (index : Nat) f c, r.defs.fsms[index]? = some f → r.fsms[index]? = some c → r.Sound f c
  fsm : ∀ s ∈ r.scenarios, ∃ f ∈ r.defs.fsms, f.id = s.fsm

theorem Sound.congr {r r' : Run} {f : FsmDefinition} {c c' : FsmSchedule} (h : r.Sound f c)
    (scenarios : r'.scenarios = r.scenarios) (tracked : c'.tracked = c.tracked)
    (waiting : c'.waiting = c.waiting) (created : c'.created = c.created)
    (matched : c'.matched = c.matched) (abandoned : c'.abandoned = c.abandoned) :
    r'.Sound f c' := by
  have hfind : ∀ id, r'.scenario? id = r.scenario? id := fun id => by
    rw [scenario?, scenarios, scenario?]
  have hholds : r'.holds = r.holds := by
    funext p id
    rw [holds, hfind, holds]
  constructor
  · rw [hholds, tracked, waiting]
    exact h.waiting
  · rw [waiting]
    exact h.waiting_le
  · rw [hholds, tracked]
    exact h.live_le
  · rw [hholds, tracked, created, matched, abandoned]
    exact h.created
  · rw [tracked]
    exact h.nodup
  · rw [tracked, scenarios]
    exact h.mem_tracked
  · rw [scenarios]
    exact h.of_waiting
  · rw [scenarios]
    exact h.of_live

theorem Scheduled.congr {r r' : Run} (h : r.Scheduled) (defs : r'.defs = r.defs)
    (fsms : r'.fsms = r.fsms) (scenarios : r'.scenarios = r.scenarios)
    (created : r'.created = r.created) : r'.Scheduled where
  numbered := by
    constructor
    · rw [scenarios]
      exact h.numbered.increasing
    · rw [scenarios, created]
      exact h.numbered.le_created
  length := by
    rw [fsms, defs]
    exact h.length
  sound index f c hf hc := by
    rw [defs] at hf
    rw [fsms] at hc
    exact (h.sound index f c hf hc).congr scenarios rfl rfl rfl rfl rfl
  fsm := by
    rw [scenarios, defs]
    exact h.fsm

theorem Scheduled.record {r : Run} (h : r.Scheduled) (m : StoreM Unit) :
    (r.record m).Scheduled :=
  h.congr (by simp) (by simp) (by simp) (by simp)

theorem Scheduled.recordAll {r : Run} (h : r.Scheduled) (changes : List (StoreM Unit)) :
    (r.recordAll changes).Scheduled := by
  rw [recordAll_eq]
  exact h.congr rfl rfl rfl rfl

theorem Scheduled.modifyFsm {r : Run} (h : r.Scheduled) {index : Nat}
    {g : FsmSchedule → FsmSchedule}
    (hg : ∀ f c, r.defs.fsms[index]? = some f → r.fsms[index]? = some c →
      r.Sound f c → r.Sound f (g c)) : (r.modifyFsm index g).Scheduled where
  numbered := numbered_modifyFsm h.numbered index g
  length := by
    rw [Run.modifyFsm, List.length_modify]
    exact h.length
  sound i f c hf hc := by
    rw [Run.modifyFsm, List.getElem?_modify] at hc
    obtain ⟨c₀, hc₀, rfl⟩ := Option.map_eq_some_iff.mp hc
    have hsound := h.sound i f c₀ hf hc₀
    split
    · next heq =>
      subst heq
      exact (hg f c₀ hf hc₀ hsound).congr rfl rfl rfl rfl rfl rfl
    · exact hsound.congr rfl rfl rfl rfl rfl rfl
  fsm := h.fsm

theorem Scheduled.restartIfIdle {r : Run} (h : r.Scheduled) (index : Nat) :
    (r.restartIfIdle index).Scheduled := by
  rw [Run.restartIfIdle]
  split
  · apply h.modifyFsm
    intro f c _ _ hsound
    split
    · exact hsound.congr rfl rfl rfl rfl rfl rfl
    · exact hsound
  · exact h

theorem Scheduled.merge {r : Run} (h : r.Scheduled) (index : Nat) :
    (r.modifyFsm index FsmSchedule.mergePending).Scheduled := by
  apply h.modifyFsm
  intro f c _ _ hsound
  exact hsound.congr rfl (List.append_nil _) rfl rfl rfl rfl

theorem holds_modifyScenario {r : Run} {s s' : Scenario} (hs : r.scenario? s.id = some s)
    (hid : s'.id = s.id) (p : Scenario → Bool) (id : ScenarioId) :
    (r.modifyScenario s.id fun _ => s').holds p id = if id = s.id then p s' else r.holds p id := by
  rw [holds, holds]
  split
  · next heq =>
    rw [heq, scenario?_modifyScenario_self r fun _ _ => hid, hs]
    rfl
  · next hne => rw [scenario?_modifyScenario_ne (fun _ _ => hid) hne]

theorem holds_of_scenario? {r : Run} {s : Scenario} (hs : r.scenario? s.id = some s)
    (p : Scenario → Bool) : r.holds p s.id = p s := by
  rw [holds, hs]
  rfl

/-- A change of a scenario with the change of the schedule of its fsm that goes with it. -/
structure Advances (f : FsmDefinition) (s s' : Scenario) (g : FsmSchedule → FsmSchedule) :
    Prop where
  id : s'.id = s.id
  fsm : s'.fsm = s.fsm
  isWaiting : s'.isWaiting = true → s.isWaiting = true
  isLive : s'.isLive = true → s.isLive = true
  of_waiting : s'.isWaiting = true → s'.state = f.initial
  of_live : s'.isLive = true → s'.state ∉ f.terminals
  tracked : ∀ c, (g c).tracked = c.tracked
  created : ∀ c, (g c).created = c.created
  waiting : ∀ c, s.isWaiting.toNat ≤ c.waiting →
    (g c).waiting + s.isWaiting.toNat = c.waiting + s'.isWaiting.toNat
  ended : ∀ c, (g c).matched + (g c).abandoned + s'.isLive.toNat =
    c.matched + c.abandoned + s.isLive.toNat

section Change

variable {r : Run} {s s' : Scenario} {f : FsmDefinition} {c : FsmSchedule}

theorem Sound.mem_of_fsm (h : r.Sound f c) (hs : r.scenario? s.id = some s)
    (hfsm : s.fsm = f.id) : s.id ∈ c.tracked :=
  (h.mem_tracked s.id).mpr ⟨s, mem_of_scenario? hs, rfl, hfsm⟩

theorem Sound.not_mem_of_fsm (h : r.Sound f c) (hn : r.Numbered)
    (hs : r.scenario? s.id = some s) (hfsm : s.fsm ≠ f.id) : s.id ∉ c.tracked := by
  intro hmem
  obtain ⟨x, hx, hid, hxf⟩ := (h.mem_tracked s.id).mp hmem
  obtain rfl := hn.eq_of_id hx (mem_of_scenario? hs) hid
  exact hfsm hxf

theorem Sound.mem_tracked_change (h : r.Sound f c) (hn : r.Numbered)
    (hs : r.scenario? s.id = some s)
    (hid : s'.id = s.id) (hfsm : s'.fsm = s.fsm) (id : ScenarioId) :
    id ∈ c.tracked ↔ ∃ x ∈ (r.modifyScenario s.id fun _ => s').scenarios,
      x.id = id ∧ x.fsm = f.id := by
  rw [h.mem_tracked]
  constructor
  · rintro ⟨x, hx, rfl, hxf⟩
    by_cases heq : x.id = s.id
    · obtain rfl := hn.eq_of_id hx (mem_of_scenario? hs) heq
      exact ⟨s', (mem_modifyScenario hs s').mpr (.inl rfl), hid, hfsm.trans hxf⟩
    · exact ⟨x, (mem_modifyScenario hs x).mpr (.inr ⟨hx, heq⟩), rfl, hxf⟩
  · rintro ⟨x, hx, rfl, hxf⟩
    rcases (mem_modifyScenario hs x).mp hx with rfl | ⟨hx, -⟩
    · exact ⟨s, mem_of_scenario? hs, hid.symm, hfsm.symm.trans hxf⟩
    · exact ⟨x, hx, rfl, hxf⟩

theorem Sound.change_other (h : r.Sound f c) (hn : r.Numbered)
    (hs : r.scenario? s.id = some s) (hid : s'.id = s.id) (hfsm : s'.fsm = s.fsm)
    (hother : s.fsm ≠ f.id) : (r.modifyScenario s.id fun _ => s').Sound f c := by
  have hnot := h.not_mem_of_fsm hn hs hother
  have hcount : ∀ p : Scenario → Bool,
      c.tracked.countP ((r.modifyScenario s.id fun _ => s').holds p) =
        c.tracked.countP (r.holds p) := by
    intro p
    apply List.countP_congr
    intro id hmem
    have hne : id ≠ s.id := fun heq => hnot (heq ▸ hmem)
    rw [holds_modifyScenario hs hid, if_neg hne]
  have hold : ∀ x ∈ (r.modifyScenario s.id fun _ => s').scenarios, x.fsm = f.id →
      x ∈ r.scenarios := by
    intro x hx hxf
    rcases (mem_modifyScenario hs x).mp hx with rfl | ⟨hx, -⟩
    · exact (hother (hfsm.symm.trans hxf)).elim
    · exact hx
  constructor
  · rw [hcount]
    exact h.waiting
  · exact h.waiting_le
  · rw [hcount]
    exact h.live_le
  · rw [hcount]
    exact h.created
  · exact h.nodup
  · exact h.mem_tracked_change hn hs hid hfsm
  · exact fun x hx hxf => h.of_waiting x (hold x hx hxf) hxf
  · exact fun x hx hxf => h.of_live x (hold x hx hxf) hxf

theorem Sound.change (h : r.Sound f c) (hn : r.Numbered) (hs : r.scenario? s.id = some s)
    (hfsm : s.fsm = f.id) {g : FsmSchedule → FsmSchedule} (ha : Advances f s s' g) :
    (r.modifyScenario s.id fun _ => s').Sound f (g c) := by
  have hmem := h.mem_of_fsm hs hfsm
  have hcount : ∀ p : Scenario → Bool,
      c.tracked.countP ((r.modifyScenario s.id fun _ => s').holds p) + (p s).toNat =
        c.tracked.countP (r.holds p) + (p s').toNat := by
    intro p
    have hrest := countP_congr_nodup (p := (r.modifyScenario s.id fun _ => s').holds p)
      (q := r.holds p) h.nodup hmem fun id _ hne => by
        rw [holds_modifyScenario hs ha.id, if_neg hne]
    rw [holds_modifyScenario hs ha.id, if_pos rfl, holds_of_scenario? hs] at hrest
    exact hrest
  have hwaits : s.isWaiting.toNat ≤ c.waiting := by
    rw [h.waiting]
    cases hw : s.isWaiting with
    | false => exact Nat.zero_le _
    | true =>
        have hholds := (holds_of_scenario? hs Scenario.isWaiting).trans hw
        exact List.countP_pos_iff.mpr ⟨s.id, hmem, hholds⟩
  have hwaiting := ha.waiting c hwaits
  have hended := ha.ended c
  have hw := hcount Scenario.isWaiting
  have hl := hcount Scenario.isLive
  have hwle : s'.isWaiting.toNat ≤ s.isWaiting.toNat := Bool.toNat_le_toNat ha.isWaiting
  have hlle : s'.isLive.toNat ≤ s.isLive.toNat := Bool.toNat_le_toNat ha.isLive
  constructor
  · have hold := h.waiting
    rw [ha.tracked]
    omega
  · have hold := h.waiting_le
    omega
  · intro hconc
    have hold := h.live_le hconc
    rw [ha.tracked]
    omega
  · have hold := h.created
    rw [ha.tracked, ha.created]
    omega
  · rw [ha.tracked]
    exact h.nodup
  · rw [ha.tracked]
    exact h.mem_tracked_change hn hs ha.id ha.fsm
  · intro x hx hxf hxw
    rcases (mem_modifyScenario hs x).mp hx with rfl | ⟨hx, -⟩
    · exact ha.of_waiting hxw
    · exact h.of_waiting x hx hxf hxw
  · intro x hx hxf hxl
    rcases (mem_modifyScenario hs x).mp hx with rfl | ⟨hx, -⟩
    · exact ha.of_live hxl
    · exact h.of_live x hx hxf hxl

theorem fsm_modifyScenario {d : DefinitionSet} (hs : r.scenario? s.id = some s)
    (hfsm : s'.fsm = s.fsm) (h : ∀ x ∈ r.scenarios, ∃ f ∈ d.fsms, f.id = x.fsm) :
    ∀ x ∈ (r.modifyScenario s.id fun _ => s').scenarios, ∃ f ∈ d.fsms, f.id = x.fsm := by
  intro x hx
  rcases (mem_modifyScenario hs x).mp hx with rfl | ⟨hx, -⟩
  · rw [hfsm]
    exact h s (mem_of_scenario? hs)
  · exact h x hx

theorem Scheduled.change (h : r.Scheduled) (hnodup : (r.defs.fsms.map (·.id)).Nodup)
    (hs : r.scenario? s.id = some s) {index : Nat} (hf : r.defs.fsms[index]? = some f)
    (hfsm : s.fsm = f.id) {g : FsmSchedule → FsmSchedule} (ha : Advances f s s' g) :
    ((r.modifyScenario s.id fun _ => s').modifyFsm index g).Scheduled where
  numbered := by
    have hkeeps : Keeps (some s.id) r (r.modifyScenario s.id fun _ => s') :=
      keeps_modifyScenario r s.id fun _ _ => ha.id
    exact numbered_modifyFsm (hkeeps.numbered h.numbered) index g
  length := by
    rw [Run.modifyFsm, List.length_modify]
    exact h.length
  sound i f' c hf' hc := by
    rw [Run.modifyFsm, List.getElem?_modify] at hc
    obtain ⟨c₀, hc₀, rfl⟩ := Option.map_eq_some_iff.mp hc
    have hsound := h.sound i f' c₀ hf' hc₀
    by_cases hi : index = i
    · subst hi
      obtain rfl : f = f' := Option.some.inj (hf.symm.trans hf')
      rw [if_pos rfl]
      exact (hsound.change h.numbered hs hfsm ha).congr rfl rfl rfl rfl rfl rfl
    · have hother : s.fsm ≠ f'.id := fun heq =>
        hi (DefinitionSet.index_inj hnodup hf hf' (hfsm.symm.trans heq))
      rw [if_neg hi]
      exact (hsound.change_other h.numbered hs ha.id ha.fsm hother).congr rfl rfl rfl rfl rfl rfl
  fsm := fsm_modifyScenario hs ha.fsm h.fsm

end Change

theorem modifyFsm_id (r : Run) (index : Nat) : (r.modifyFsm index fun c => c) = r := by
  have hid := List.modify_id index r.fsms
  exact congrArg (fun fsms => { r with fsms }) hid

theorem Scheduled.exists_schedule {r : Run} (h : r.Scheduled) {index : Nat}
    {f : FsmDefinition} (hf : r.defs.fsms[index]? = some f) : ∃ c, r.fsms[index]? = some c := by
  have hlt := (List.getElem?_eq_some_iff.mp hf).1
  rw [← h.length] at hlt
  exact ⟨_, List.getElem?_eq_getElem hlt⟩

theorem Scheduled.exists_fsm {r : Run} (h : r.Scheduled) {index : Nat} {c : FsmSchedule}
    (hc : r.fsms[index]? = some c) : ∃ f, r.defs.fsms[index]? = some f := by
  have hlt := (List.getElem?_eq_some_iff.mp hc).1
  rw [h.length] at hlt
  exact ⟨_, List.getElem?_eq_getElem hlt⟩

theorem OfFsm.spec {r : Run} {s : Scenario} {index : Nat} {f : FsmDefinition}
    (h : r.OfFsm s index f) (hnodup : (r.defs.fsms.map (·.id)).Nodup) :
    r.defs.fsms[index]? = some f ∧ s.fsm = f.id := by
  obtain ⟨g, hg, hgid⟩ := (DefinitionSet.fsmIndex?_eq_some_iff hnodup).mp h.1
  obtain ⟨hf, hfid⟩ := (DefinitionSet.fsm?_eq_some_iff hnodup).mp h.2
  have hgf : g = f := List.inj_on_of_nodup_map hnodup (List.mem_of_getElem? hg) hf
    (hgid.trans hfid.symm)
  exact ⟨hgf ▸ hg, hfid.symm⟩

theorem OfFsm.of_getElem? {r : Run} {s : Scenario} {index : Nat} {f : FsmDefinition}
    (hnodup : (r.defs.fsms.map (·.id)).Nodup) (hf : r.defs.fsms[index]? = some f)
    (hfsm : s.fsm = f.id) : r.OfFsm s index f := by
  rw [OfFsm, hfsm]
  exact ⟨DefinitionSet.fsmIndex?_of_getElem? hnodup hf,
    DefinitionSet.fsm?_of_mem hnodup (List.mem_of_getElem? hf)⟩

theorem Scheduled.receive {r : Run} (h : r.Scheduled) (hwf : r.defs.WellFormed)
    {f : FsmDefinition} {s : Scenario} {index : Nat} (hs : r.scenario? s.id = some s)
    (hf : r.OfFsm s index f) (event : Event) : (r.receive f s event).Scheduled := by
  obtain ⟨hget, hfsm⟩ := hf.spec hwf.nodup_ids
  have hmem := mem_of_scenario? hs
  have hchange : Advances f s { s with lastEvent := some r.received } fun c => c := by
    obtain ⟨c, hc⟩ := h.exists_schedule hget
    have hsound := h.sound index f c hget hc
    exact ⟨rfl, rfl, id, id, hsound.of_waiting s hmem hfsm, hsound.of_live s hmem hfsm,
      fun _ => rfl, fun _ => rfl, fun _ _ => rfl, fun _ => rfl⟩
  have hnext := h.change hwf.nodup_ids hs hget hfsm hchange
  rw [modifyFsm_id] at hnext
  rw [receive_eq, modifyScenario_eq h.numbered hs]
  exact hnext.recordAll _

theorem not_mem_terminals (f : FsmDefinition) (state : String) :
    state ∉ f.terminals ↔ f.isAbandon state = false ∧ f.isFinal state = false := by
  simp only [FsmDefinition.terminals, List.mem_append, Option.mem_toList, not_or,
    FsmDefinition.isAbandon, FsmDefinition.isFinal, beq_eq_false_iff_ne, ne_eq]
  exact And.comm

/-- A waiting scenario that does not leave its initial state enters it once more. -/
theorem eq_initial_of_stays {f : FsmDefinition} {s : Scenario} {next : String}
    (hstate : s.isWaiting = true → s.state = f.initial) (hwaiting : s.isWaiting = true)
    (hleaves : leavesInitial f s s.state next = false) : next = f.initial := by
  by_contra hne
  simp [leavesInitial, hwaiting, hstate hwaiting, hne] at hleaves

theorem isWaiting_moved {f : FsmDefinition} (hf : f.WellFormed) {s : Scenario}
    (hlive : s.isLive = true) (hstate : s.isWaiting = true → s.state = f.initial)
    (next : String) (time : Int64) :
    (moved f s.state next time s).isWaiting =
      (s.isWaiting && !leavesInitial f s s.state next) := by
  have hinitial := (not_mem_terminals f f.initial).mp hf.initial_not_terminal
  rw [Scenario.isWaiting, status_moved f s.state next time hlive]
  cases hleaves : leavesInitial f s s.state next with
  | true =>
      rw [Bool.not_true, Bool.and_false]
      cases f.isAbandon next <;> cases f.isFinal next <;> rfl
  | false =>
      cases hwaiting : s.isWaiting with
      | true =>
          obtain rfl := eq_initial_of_stays hstate hwaiting hleaves
          simp only [hinitial.1, hinitial.2, Bool.false_eq_true, if_false]
          exact hwaiting
      | false =>
          rw [Bool.false_and]
          cases f.isAbandon next <;> cases f.isFinal next <;> first | rfl | exact hwaiting

theorem advances_moved {f : FsmDefinition} (hf : f.WellFormed) {s : Scenario}
    (hlive : s.isLive = true) (hstate : s.isWaiting = true → s.state = f.initial)
    (next : String) (time : Int64) :
    Advances f s (moved f s.state next time s)
      (counted f (leavesInitial f s s.state next) (moved f s.state next time s).status) := by
  have hmoved := moved_eq f s.state next time s
  have hwaiting := isWaiting_moved hf hlive hstate next time
  have hterminal := isTerminal_moved f s.state next time hlive
  have hstays : s.isWaiting = true → leavesInitial f s s.state next = false → next = f.initial :=
    eq_initial_of_stays hstate
  have hleaves : leavesInitial f s s.state next = true → s.isWaiting = true := by
    intro hl
    rw [leavesInitial, Bool.and_eq_true] at hl
    exact hl.2
  generalize moved f s.state next time s = s' at hmoved hwaiting hterminal ⊢
  generalize leavesInitial f s s.state next = left at hwaiting hstays hleaves ⊢
  have hnext : s'.state = next := by rw [hmoved]
  constructor
  · rw [hmoved]
  · rw [hmoved]
  · intro hw
    rw [hwaiting, Bool.and_eq_true] at hw
    exact hw.1
  · exact fun _ => hlive
  · intro hw
    rw [hwaiting, Bool.and_eq_true, Bool.not_eq_true'] at hw
    rw [hnext]
    exact hstays hw.1 hw.2
  · intro hl
    rw [Scenario.isLive, hterminal, Bool.not_eq_true', Bool.or_eq_false_iff] at hl
    rw [hnext]
    exact (not_mem_terminals f next).mpr hl
  · intro c
    exact tracked_counted f left s'.status c
  · intro c
    exact created_counted f left s'.status c
  · intro c hle
    rw [waiting_counted, hwaiting]
    cases left with
    | false => simp
    | true =>
        have hw := hleaves rfl
        simp only [hw, Bool.toNat_true] at hle
        simp only [hw, Bool.toNat_true, Bool.not_true, Bool.and_false, Bool.toNat_false]
        omega
  · intro c
    have hended := ended_counted f left s'.status c
    rw [hended, hlive, Scenario.isLive]
    cases s'.status.isTerminal <;> simp

theorem Scheduled.enter {r : Run} (h : r.Scheduled) (hwf : r.defs.WellFormed)
    {f : FsmDefinition} {s : Scenario} {index : Nat} (hs : r.scenario? s.id = some s)
    (hlive : s.isLive = true) (hf : r.OfFsm s index f) (next : String) (time : Int64) :
    (r.enter index f s.id s.state next time).1.Scheduled := by
  obtain ⟨hget, hfsm⟩ := hf.spec hwf.nodup_ids
  obtain ⟨c, hc⟩ := h.exists_schedule hget
  have hsound := h.sound index f c hget hc
  have ha := advances_moved (hwf.fsm f (List.mem_of_getElem? hget)) hlive
    (hsound.of_waiting s (mem_of_scenario? hs) hfsm) next time
  have hmove := (h.change hwf.nodup_ids hs hget hfsm ha).recordAll
    (moveChanges (moved f s.state next time s).subtree time
      (leavesInitial f s s.state next) (next != s.state) next (moved f s.state next time s).status)
  rw [Run.enter, hs]
  simp only [recordMove_eq]
  split
  · exact hmove.restartIfIdle index
  · split
    · exact hmove
    · exact hmove

theorem advances_cancelled {f : FsmDefinition} {s : Scenario} (hlive : s.isLive = true)
    (time : Int64) :
    Advances f s { s.advance .abandoned with endTime := some time } fun c =>
      { c with
        waiting := if s.isWaiting then c.waiting - 1 else c.waiting
        abandoned := c.abandoned + 1 } := by
  have hstatus : (s.advance .abandoned).status = .abandoned := status_advance_of_live hlive rfl
  have hadvance := advance_eq s .abandoned
  generalize s.advance .abandoned = s' at hstatus hadvance ⊢
  constructor
  · rw [hadvance]
  · rw [hadvance]
  · intro hw
    simp [Scenario.isWaiting, hstatus] at hw
  · exact fun _ => hlive
  · intro hw
    simp [Scenario.isWaiting, hstatus] at hw
  · intro hl
    simp [Scenario.isLive, hstatus, ScenarioStatus.isTerminal] at hl
  · exact fun c => rfl
  · exact fun c => rfl
  · intro c hle
    have hnot : ({ s' with endTime := some time } : Scenario).isWaiting = false := by
      simp [Scenario.isWaiting, hstatus]
    rw [hnot]
    cases hw : s.isWaiting with
    | false => rfl
    | true =>
        rw [hw] at hle
        exact Nat.sub_add_cancel hle
  · intro c
    have hnot : ({ s' with endTime := some time } : Scenario).isLive = false := by
      simp [Scenario.isLive, hstatus, ScenarioStatus.isTerminal]
    rw [hnot, hlive]
    rfl

theorem Scheduled.exists_ofFsm {r : Run} (h : r.Scheduled) (hwf : r.defs.WellFormed)
    {s : Scenario} (hs : s ∈ r.scenarios) : ∃ index f, r.OfFsm s index f := by
  obtain ⟨f, hf, hid⟩ := h.fsm s hs
  obtain ⟨index, hindex⟩ := List.getElem?_of_mem hf
  exact ⟨index, f, .of_getElem? hwf.nodup_ids hindex hid.symm⟩

theorem Scheduled.cancelLive {r : Run} (h : r.Scheduled) (hwf : r.defs.WellFormed)
    {s : Scenario} (hs : r.scenario? s.id = some s) (hlive : s.isLive = true) :
    (r.cancelLive s).Scheduled := by
  obtain ⟨index, f, hf⟩ := h.exists_ofFsm hwf (mem_of_scenario? hs)
  obtain ⟨hget, hfsm⟩ := hf.spec hwf.nodup_ids
  have hchange := h.change hwf.nodup_ids hs hget hfsm
    (advances_cancelled hlive r.store.endTime)
  have hindex : (r.modifyScenario s.id fun s =>
      { s.advance .abandoned with endTime := some r.store.endTime }).defs.fsmIndex? s.fsm =
        some index := hf.1
  rw [Run.cancelLive]
  simp only [hindex]
  rw [modifyScenario_eq h.numbered hs]
  exact ((hchange.restartIfIdle index).record _).record _

section AddScenario

variable {r : Run} {index : Nat} {f : FsmDefinition} {c : FsmSchedule} {sequence : Nat}
  {parent : Option String} {subtree : Quark}

theorem scenarios_addScenario :
    (r.addScenario index f sequence parent subtree).scenarios =
      r.scenarios ++ [r.added f sequence parent subtree] := rfl

theorem mem_addScenario {x : Scenario} :
    x ∈ (r.addScenario index f sequence parent subtree).scenarios ↔
      x ∈ r.scenarios ∨ x = r.added f sequence parent subtree := by
  rw [scenarios_addScenario, List.mem_append, List.mem_singleton]

theorem holds_addScenario_of_le {id : ScenarioId} (h : id ≤ r.created) (p : Scenario → Bool) :
    (r.addScenario index f sequence parent subtree).holds p id = r.holds p id := by
  rw [holds, scenario?_addScenario_of_le h, holds]

theorem scenario?_addScenario (hn : r.Numbered) :
    (r.addScenario index f sequence parent subtree).scenario? (r.created + 1) =
      some (r.added f sequence parent subtree) := by
  have hnumbered := (keeps_addScenario r index f sequence parent subtree).numbered hn
  exact hnumbered.scenario?_of_mem (mem_addScenario.mpr (.inr rfl))

theorem Sound.le_created (h : r.Sound f c) (hn : r.Numbered) {id : ScenarioId}
    (hid : id ∈ c.tracked) : id ≤ r.created := by
  obtain ⟨s, hs, rfl, -⟩ := (h.mem_tracked id).mp hid
  exact hn.le_created s hs

theorem Sound.countP_addScenario (h : r.Sound f c) (hn : r.Numbered) (index : Nat)
    (g : FsmDefinition) (p : Scenario → Bool) :
    c.tracked.countP ((r.addScenario index g sequence parent subtree).holds p) =
      c.tracked.countP (r.holds p) := by
  apply List.countP_congr
  intro id hid
  rw [holds_addScenario_of_le (h.le_created hn hid)]

theorem Sound.add_other {g : FsmDefinition} (h : r.Sound g c) (hn : r.Numbered)
    (hother : f.id ≠ g.id) : (r.addScenario index f sequence parent subtree).Sound g c := by
  have hold : ∀ x ∈ (r.addScenario index f sequence parent subtree).scenarios, x.fsm = g.id →
      x ∈ r.scenarios := by
    intro x hx hxg
    rcases mem_addScenario.mp hx with hx | rfl
    · exact hx
    · exact (hother hxg).elim
  constructor
  · rw [h.countP_addScenario hn]
    exact h.waiting
  · exact h.waiting_le
  · rw [h.countP_addScenario hn]
    exact h.live_le
  · rw [h.countP_addScenario hn]
    exact h.created
  · exact h.nodup
  · intro id
    rw [h.mem_tracked]
    constructor
    · rintro ⟨x, hx, hid, hxg⟩
      exact ⟨x, mem_addScenario.mpr (.inl hx), hid, hxg⟩
    · rintro ⟨x, hx, hid, hxg⟩
      exact ⟨x, hold x hx hxg, hid, hxg⟩
  · intro x hx hxg
    exact h.of_waiting x (hold x hx hxg) hxg
  · intro x hx hxg
    exact h.of_live x (hold x hx hxg) hxg

theorem isLive_of_isWaiting (s : Scenario) (h : s.isWaiting = true) : s.isLive = true := by
  have hstatus : s.status = .waitingStart := by simpa [Scenario.isWaiting] using h
  rw [Scenario.isLive, hstatus]
  rfl

theorem countP_waiting_eq_zero {r : Run} {c : FsmSchedule}
    (h : c.tracked.countP (r.holds Scenario.isLive) = 0) :
    c.tracked.countP (r.holds Scenario.isWaiting) = 0 := by
  apply Nat.le_zero.mp
  rw [← h]
  apply List.countP_mono_left
  intro id _ hw
  obtain ⟨s, hs, hsw⟩ := (Option.any_eq_true _ _).mp hw
  exact (Option.any_eq_true _ _).mpr ⟨s, hs, isLive_of_isWaiting s hsw⟩

theorem Sound.add (h : r.Sound f c) (hn : r.Numbered) (hf : f.WellFormed)
    (htakes : c.tracked.countP (r.holds Scenario.isLive) = 0 ∨
      f.concurrent = true ∧ c.waiting = 0) {c' : FsmSchedule}
    (tracked : c'.tracked = c.tracked ++ [r.created + 1]) (waiting : c'.waiting = c.waiting + 1)
    (created : c'.created = c.created + 1) (matched : c'.matched = c.matched)
    (abandoned : c'.abandoned = c.abandoned) :
    (r.addScenario index f sequence parent subtree).Sound f c' := by
  have hcount : ∀ p : Scenario → Bool, p (r.added f sequence parent subtree) = true →
      c'.tracked.countP ((r.addScenario index f sequence parent subtree).holds p) =
        c.tracked.countP (r.holds p) + 1 := by
    intro p hp
    rw [tracked, List.countP_append, h.countP_addScenario hn, List.countP_singleton, holds,
      scenario?_addScenario hn, Option.any_some, if_pos hp]
  have hnew : r.created + 1 ∉ c.tracked := fun hmem =>
    Nat.not_succ_le_self _ (h.le_created hn hmem)
  have hnone : c.waiting = 0 := by
    rcases htakes with hlive | ⟨-, hwaiting⟩
    · rw [h.waiting]
      exact countP_waiting_eq_zero hlive
    · exact hwaiting
  constructor
  · rw [hcount Scenario.isWaiting rfl, waiting, h.waiting]
  · omega
  · intro hconc
    rw [hcount Scenario.isLive rfl]
    rcases htakes with hlive | ⟨hconc', -⟩
    · omega
    · rw [hconc] at hconc'
      cases hconc'
  · have hcreated := h.created
    rw [hcount Scenario.isLive rfl, created, matched, abandoned]
    omega
  · rw [tracked, List.nodup_append]
    refine ⟨h.nodup, List.nodup_singleton _, ?_⟩
    intro a ha b hb heq
    rw [List.mem_singleton.mp hb] at heq
    exact hnew (heq ▸ ha)
  · intro id
    rw [tracked, List.mem_append, List.mem_singleton, h.mem_tracked]
    constructor
    · rintro (⟨x, hx, hid, hxf⟩ | rfl)
      · exact ⟨x, mem_addScenario.mpr (.inl hx), hid, hxf⟩
      · exact ⟨_, mem_addScenario.mpr (.inr rfl), rfl, rfl⟩
    · rintro ⟨x, hx, rfl, hxf⟩
      rcases mem_addScenario.mp hx with hx | rfl
      · exact .inl ⟨x, hx, rfl, hxf⟩
      · exact .inr rfl
  · intro x hx hxf hxw
    rcases mem_addScenario.mp hx with hx | rfl
    · exact h.of_waiting x hx hxf hxw
    · rfl
  · intro x hx hxf hxl
    rcases mem_addScenario.mp hx with hx | rfl
    · exact h.of_live x hx hxf hxl
    · exact hf.initial_not_terminal

theorem Scheduled.addScenario (h : r.Scheduled) (hwf : r.defs.WellFormed)
    (hf : r.defs.fsms[index]? = some f) (hc : r.fsms[index]? = some c)
    (htakes : r.takesScenario index f c = true) :
    (r.addScenario index f (c.created + 1) parent subtree).Scheduled where
  numbered := (keeps_addScenario r index f _ parent subtree).numbered h.numbered
  length := by
    rw [Run.addScenario, Run.modifyFsm, List.length_modify]
    exact h.length
  sound i g c' hg hc' := by
    rw [Run.addScenario, Run.modifyFsm, List.getElem?_modify] at hc'
    obtain ⟨c₀, hc₀, rfl⟩ := Option.map_eq_some_iff.mp hc'
    have hsound := h.sound i g c₀ hg hc₀
    by_cases hi : index = i
    · subst hi
      obtain rfl : f = g := Option.some.inj (hf.symm.trans hg)
      obtain rfl : c = c₀ := Option.some.inj (hc.symm.trans hc₀)
      rw [if_pos rfl]
      have htakes' : c.tracked.countP (r.holds Scenario.isLive) = 0 ∨
          f.concurrent = true ∧ c.waiting = 0 := by
        rw [takesScenario, liveCount, hc, Bool.or_eq_true, Bool.and_eq_true, beq_iff_eq,
          beq_iff_eq] at htakes
        exact htakes
      exact hsound.add h.numbered (hwf.fsm f (List.mem_of_getElem? hf)) htakes'
        (List.append_assoc _ _ _).symm rfl rfl rfl rfl
    · rw [if_neg hi]
      exact hsound.add_other h.numbered fun heq =>
        hi (DefinitionSet.index_inj hwf.nodup_ids hf hg heq)
  fsm x hx := by
    rcases mem_addScenario.mp hx with hx | rfl
    · exact h.fsm x hx
    · exact ⟨f, List.mem_of_getElem? hf, rfl⟩

end AddScenario

theorem Scheduled.admitted {r : Run} (h : r.Scheduled) (hwf : r.defs.WellFormed) {index : Nat}
    {f : FsmDefinition} {c : FsmSchedule} (hf : r.defs.fsms[index]? = some f)
    (hc : r.fsms[index]? = some c) (htakes : r.takesScenario index f c = true)
    (parent : Option String) (time : Int64) (subtree : Quark) (st : Store) :
    (r.admitted index f c parent time subtree st).Scheduled := by
  rw [Run.admitted, record_eq]
  have hstored : ({ r with
      store := (History.setIdentity subtree time f.id parent).after st } : Run).Scheduled :=
    h.congr rfl rfl rfl rfl
  exact hstored.addScenario hwf hf hc htakes

section Retire

variable {r r' : Run} {gone : List ScenarioId}

/-- Only scenarios that have ended are gone. -/
structure Forgets (r : Run) (gone : List ScenarioId) (r' : Run) : Prop where
  scenarios : r'.scenarios = r.scenarios.filter fun s => !gone.contains s.id
  isLive : ∀ id ∈ gone, r.holds Scenario.isLive id = false

theorem forgets_retire {index : Nat} {c : FsmSchedule} (hc : r.fsms[index]? = some c) :
    Forgets r (r.ended c) (r.retire index) := by
  constructor
  · rw [retire_eq hc]
    rfl
  · intro id hid
    simpa [Run.isLive, Run.holds] using (List.mem_filter.mp hid).2

theorem Forgets.scenario? (h : Forgets r gone r') (id : ScenarioId) :
    r'.scenario? id = if id ∈ gone then none else r.scenario? id := by
  rw [Run.scenario?, h.scenarios, Run.scenario?, List.find?_filter]
  split
  · next hgone =>
    rw [List.find?_eq_none]
    intro s _ hs
    simp only [decide_eq_true_eq, Bool.not_eq_true', beq_iff_eq] at hs
    obtain ⟨hnot, rfl⟩ := hs
    simp [hgone] at hnot
  · next hgone =>
    congr
    funext s
    by_cases hid : s.id = id
    · subst hid
      simp [hgone]
    · simp [hid]

theorem getElem?_retire {index : Nat} {c : FsmSchedule} (hc : r.fsms[index]? = some c) :
    (r.retire index).fsms[index]? = some { c with active := c.active.filter r.isLive } := by
  have hactive : c.active.filter (fun id => !(r.ended c).contains id) =
      c.active.filter r.isLive := by
    apply List.filter_congr
    intro id hid
    simp [ended, hid]
  rw [retire_eq hc, modifyFsm, List.getElem?_modify, hc, ← hactive]
  simp only [if_true]
  rfl

theorem scenario?_retire {index : Nat} {c : FsmSchedule} (hc : r.fsms[index]? = some c)
    {id : ScenarioId} (hlive : r.isLive id = true) :
    (r.retire index).scenario? id = r.scenario? id := by
  rw [(forgets_retire hc).scenario?, if_neg]
  intro hended
  simp [ended, hlive] at hended

theorem Forgets.holds_of_mem (h : Forgets r gone r') {p : Scenario → Bool}
    (hp : ∀ s, p s = true → s.isLive = true) {id : ScenarioId} (hid : id ∈ gone) :
    r.holds p id = false := by
  have hdead := h.isLive id hid
  rw [Run.holds] at hdead ⊢
  cases hs : r.scenario? id with
  | none => rfl
  | some s =>
      rw [hs, Option.any_some] at hdead
      cases hps : p s with
      | false => exact hps
      | true =>
          rw [hp s hps] at hdead
          cases hdead

theorem Forgets.holds (h : Forgets r gone r') {p : Scenario → Bool}
    (hp : ∀ s, p s = true → s.isLive = true) : r'.holds p = r.holds p := by
  funext id
  by_cases hid : id ∈ gone
  · rw [h.holds_of_mem hp hid, Run.holds, h.scenario?, if_pos hid]
    rfl
  · rw [Run.holds, h.scenario?, if_neg hid, Run.holds]

theorem Forgets.mem (h : Forgets r gone r') (s : Scenario) :
    s ∈ r'.scenarios ↔ s ∈ r.scenarios ∧ s.id ∉ gone := by
  rw [h.scenarios, List.mem_filter]
  simp

theorem Forgets.countP (h : Forgets r gone r') {p : Scenario → Bool}
    (hp : ∀ s, p s = true → s.isLive = true) (ids : List ScenarioId) :
    (ids.filter fun id => !gone.contains id).countP (r'.holds p) = ids.countP (r.holds p) := by
  rw [List.countP_filter, h.holds hp]
  apply List.countP_congr
  intro id _
  by_cases hid : id ∈ gone
  · simp [h.holds_of_mem hp hid]
  · simp [hid]

theorem Sound.forget {f : FsmDefinition} {c c' : FsmSchedule} (h : r.Sound f c)
    (hg : Forgets r gone r') (tracked : c'.tracked = c.tracked.filter fun id => !gone.contains id)
    (waiting : c'.waiting = c.waiting) (created : c'.created = c.created)
    (matched : c'.matched = c.matched) (abandoned : c'.abandoned = c.abandoned) :
    r'.Sound f c' := by
  have hlive := hg.countP (p := Scenario.isLive) (fun _ hs => hs) c.tracked
  have hwait := hg.countP (p := Scenario.isWaiting) isLive_of_isWaiting c.tracked
  constructor
  · rw [tracked, hwait, waiting]
    exact h.waiting
  · rw [waiting]
    exact h.waiting_le
  · rw [tracked, hlive]
    exact h.live_le
  · rw [tracked, hlive, created, matched, abandoned]
    exact h.created
  · rw [tracked]
    exact h.nodup.filter _
  · intro id
    rw [tracked, List.mem_filter, h.mem_tracked]
    constructor
    · rintro ⟨⟨s, hs, rfl, hsf⟩, hnot⟩
      exact ⟨s, (hg.mem s).mpr ⟨hs, by simpa using hnot⟩, rfl, hsf⟩
    · rintro ⟨s, hs, rfl, hsf⟩
      obtain ⟨hs, hnot⟩ := (hg.mem s).mp hs
      exact ⟨⟨s, hs, rfl, hsf⟩, by simpa using hnot⟩
  · intro s hs
    exact h.of_waiting s ((hg.mem s).mp hs).1
  · intro s hs
    exact h.of_live s ((hg.mem s).mp hs).1

theorem Scheduled.retire (h : r.Scheduled) (hwf : r.defs.WellFormed) (index : Nat) :
    (r.retire index).Scheduled := by
  cases hc : r.fsms[index]? with
  | none =>
      rw [Run.retire, hc]
      exact h
  | some c =>
      have hg := forgets_retire hc
      refine ⟨(follows_retire r index).numbered h.numbered, ?_, ?_, ?_⟩
      · rw [retire_eq hc, Run.modifyFsm, List.length_modify]
        exact h.length
      · intro i g c' hgi hc'
        rw [(follows_retire r index).defs] at hgi
        rw [retire_eq hc, Run.modifyFsm, List.getElem?_modify] at hc'
        obtain ⟨c₀, hc₀, rfl⟩ := Option.map_eq_some_iff.mp hc'
        have hsound := h.sound i g c₀ hgi hc₀
        by_cases hi : index = i
        · subst hi
          obtain rfl : c = c₀ := Option.some.inj (hc.symm.trans hc₀)
          rw [if_pos rfl]
          refine hsound.forget hg ?_ rfl rfl rfl rfl
          have hdisjoint := (List.nodup_append.mp hsound.nodup).2.2
          have hpending : (c.pending.filter fun id => !(r.ended c).contains id) = c.pending := by
            rw [List.filter_eq_self]
            intro id hid
            simp only [Bool.not_eq_true', List.contains_eq_mem, decide_eq_false_iff_not]
            intro hended
            exact hdisjoint id (List.mem_of_mem_filter hended) id hid rfl
          rw [FsmSchedule.tracked, FsmSchedule.tracked, List.filter_append, hpending]
        · rw [if_neg hi]
          refine hsound.forget hg ?_ rfl rfl rfl rfl
          rw [eq_comm, List.filter_eq_self]
          intro id hid
          simp only [Bool.not_eq_true', List.contains_eq_mem, decide_eq_false_iff_not]
          intro hended
          obtain ⟨f, hf⟩ := h.exists_fsm hc
          have hactive : id ∈ c.tracked :=
            List.mem_append_left _ (List.mem_of_mem_filter hended)
          obtain ⟨s, hs, rfl, hsf⟩ := ((h.sound index f c hf hc).mem_tracked id).mp hactive
          obtain ⟨s', hs', hid', hsg⟩ := (hsound.mem_tracked s.id).mp hid
          obtain rfl := h.numbered.eq_of_id hs' hs hid'
          exact hi (DefinitionSet.index_inj hwf.nodup_ids hf hgi (hsf.symm.trans hsg))
      · intro s hs
        rw [(follows_retire r index).defs]
        exact h.fsm s ((hg.mem s).mp hs).1

end Retire

theorem Scheduled.move {m : Moment} {r' : Run} (hwf : m.run.defs.WellFormed) (move : Move m r')
    (h : m.run.Scheduled) : r'.Scheduled := by
  cases move with
  | arrive _ => exact h.congr rfl rfl rfl rfl
  | begin _ => exact h.congr rfl rfl rfl rfl
  | appoint _ _ =>
      apply h.modifyFsm
      intro f c _ _ hsound
      exact hsound.congr rfl rfl rfl rfl rfl rfl
  | takeDue _ _ =>
      apply h.modifyFsm
      intro f c _ _ hsound
      exact hsound.congr rfl rfl rfl rfl rfl rfl
  | decide => exact h
  | abort _ => exact h.congr rfl rfl rfl rfl
  | enroll _ hf hc htakes _ => exact h.admitted hwf hf hc htakes _ _ _ _
  | handle => exact h
  | receive hs _ hf => exact h.receive hwf hs hf _
  | operate _ => exact h
  | change _ => exact h.record _
  | save _ => exact h.record _
  | emit _ _ => exact h.congr rfl rfl rfl rfl
  | enter hs hf _ _ => exact h.enter hwf hs.1 hs.2.1 hf _ _
  | merge => exact h.merge _
  | retire => exact h.retire hwf _
  | cancel hs hlive => exact h.cancelLive hwf hs hlive
  | dispose => exact h.congr rfl rfl rfl rfl

theorem Scheduled.of_nil {r : Run} (fsms : r.fsms = r.defs.fsms.map fun f => { id := f.id })
    (scenarios : r.scenarios = []) : r.Scheduled where
  numbered := ⟨by rw [scenarios]; exact .nil, by simp [scenarios]⟩
  length := by rw [fsms, List.length_map]
  sound index f c hf hc := by
    rw [fsms, List.getElem?_map, hf] at hc
    obtain rfl := Option.some.inj hc
    have hnone : ∀ s, s ∉ r.scenarios := by simp [scenarios]
    refine ⟨rfl, Nat.zero_le _, fun _ => Nat.zero_le _, rfl, .nil, ?_, ?_, ?_⟩
    · intro id
      simp [FsmSchedule.tracked, scenarios]
    · intro s hs
      exact (hnone s hs).elim
    · intro s hs
      exact (hnone s hs).elim
  fsm s hs := by
    rw [scenarios] at hs
    cases hs

theorem Fresh.scheduled {r : Run} {d : DefinitionSet} {settings : RunSettings} {time : Int64}
    (h : r.Fresh d settings time) : r.Scheduled :=
  .of_nil (by rw [h.fsms, h.defs]) h.scenarios

theorem Fresh.numbered {r : Run} {d : DefinitionSet} {settings : RunSettings} {time : Int64}
    (h : r.Fresh d settings time) : r.Numbered :=
  h.scheduled.numbered

/-- A run of well-formed definitions with sound schedules, on whatever store it goes on. -/
structure Staffed (r : Run) : Prop where
  wellFormed : r.defs.WellFormed
  scheduled : r.Scheduled

theorem Staffed.numbered {r : Run} (h : r.Staffed) : r.Numbered :=
  h.scheduled.numbered

theorem Staffed.move {m : Moment} {r' : Run} (move : Move m r') (h : m.run.Staffed) :
    r'.Staffed where
  wellFormed := by
    rw [move.follows.defs]
    exact h.wellFormed
  scheduled := h.scheduled.move h.wellFormed move

theorem Staffed.initial {r : Run} (h : r.Staffed) {s : Scenario} (hs : s ∈ r.scenarios)
    {index : Nat} {f : FsmDefinition} (hf : r.OfFsm s index f) (hwaiting : s.isWaiting = true) :
    s.state = f.initial := by
  obtain ⟨hget, hfsm⟩ := hf.spec h.wellFormed.nodup_ids
  obtain ⟨c, hc⟩ := h.scheduled.exists_schedule hget
  exact (h.scheduled.sound index f c hget hc).of_waiting s hs hfsm hwaiting

theorem Staffed.of_path {event : Option Event} {r r' : Run} {ms : List Moment}
    (h : Path event r ms r') (hr : r.Staffed) : r'.Staffed :=
  (h.trace.invariant (fun _ _ _ move => Staffed.move move) hr).1

theorem start_staffed {d : DefinitionDocument} {defs : DefinitionSet} (h : d.compile = .ok defs)
    {store : Store} {settings : RunSettings} {r : Run}
    (hstart : Run.start defs store settings = .ok r) : r.Staffed := by
  obtain ⟨st, root, -, rfl⟩ := start_eq_ok_iff.mp hstart
  exact ⟨((DefinitionDocument.compile_eq_ok_iff d defs).mp h).wellFormed, .of_nil rfl rfl⟩

/-- In all runs of well-formed definitions, after any calls and at every moment during them, the
counts and lists of each fsm agree with its scenarios. -/
theorem schedules_sound {d : DefinitionDocument} {defs : DefinitionSet}
    (h : d.compile = .ok defs) (settings : RunSettings) (time : Int64) :
    ∃ r, Run.start defs (Store.empty time) settings = .ok r ∧
      ∀ calls, (r.performAll calls).Scheduled ∧ ∀ m ∈ r.moments calls, m.run.Scheduled := by
  obtain ⟨r, hstart, hfresh⟩ := exists_start defs settings time
  refine ⟨r, hstart, fun calls => ?_⟩
  have hwf : r.defs.WellFormed := by
    rw [hfresh.defs]
    exact ((DefinitionDocument.compile_eq_ok_iff d defs).mp h).wellFormed
  have hinv := (performAll_trace hfresh.numbered calls).invariant
    (I := fun r => r.defs.WellFormed ∧ r.Scheduled)
    (fun m _ r' move hm => ⟨by rw [move.follows.defs]; exact hm.1, hm.2.move hm.1 move⟩)
    ⟨hwf, hfresh.scheduled⟩
  exact ⟨hinv.1.2, fun m hm => (hinv.2 m hm).2⟩

theorem schedules_sound_sample :
    ∃ defs r, DefinitionDocument.sample.compile = .ok defs ∧
      Run.start defs (Store.empty 0) {} = .ok r ∧
      ∀ calls, (r.performAll calls).Scheduled ∧ ∀ m ∈ r.moments calls, m.run.Scheduled := by
  obtain ⟨defs, hcompile⟩ := DefinitionDocument.exists_compile_sample
  obtain ⟨r, hstart, hsound⟩ := schedules_sound hcompile {} 0
  exact ⟨defs, r, hcompile, hstart, hsound⟩

end Run

end TraceAutomata
