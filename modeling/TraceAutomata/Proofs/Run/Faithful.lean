import Mathlib.Data.List.Perm.Basic
import TraceAutomata.Proofs.Run.Memory
import TraceAutomata.Proofs.Run.Mirror
import TraceAutomata.Proofs.Scenario.Record

namespace TraceAutomata

namespace Run

/-- What is in the store agrees with what is known of all scenarios, and nothing that is still
to be written about a live one is too early from a time on. -/
structure Faithful (known : ScenarioId → Option Scenario) (time : Int64) (r : Run) : Prop where
  remembered : r.Remembered known
  time_le : time ≤ r.store.endTime
  ready : ∀ s ∈ r.scenarios, s.isLive = true →
    (r.store.below (r.pathOf s.name)).Ready Layout.identityPaths time
  mirrors : ∀ id s, known id = some s → Mirrors (r.store.below (r.pathOf s.name)) s

namespace Faithful

variable {m : Moment} {r' : Run} {known : ScenarioId → Option Scenario} {time : Int64}

theorem le_time (h : Faithful known time m.run)
    (htime : ∀ e, m.event = some e → time ≤ e.nanos) : time ≤ m.time := by
  rw [Moment.time]
  cases hevent : m.event with
  | none => exact h.time_le
  | some e => exact htime e hevent

theorem accepts (h : Faithful known time m.run)
    (htime : ∀ e, m.event = some e → time ≤ e.nanos) (hown : m.Respectful) {s s' : Scenario}
    {groups : List (List Write)} (hs : s ∈ m.run.scenarios) (hlive : s.isLive = true)
    (halters : Alters m s s' groups) :
    (m.run.store.below (m.run.pathOf s.name)).accepts groups = true ∧
      ((m.run.store.below (m.run.pathOf s.name)).record groups).Ready Layout.identityPaths
        m.time := by
  have hready := (h.ready s hs hlive).mono (h.le_time htime)
  exact hready.record (time_of_alters hlive halters hown)

theorem accepted (h : Faithful known time m.run) (hground : m.run.Grounded)
    (htime : ∀ e, m.event = some e → time ≤ e.nanos) (hown : m.Respectful) (move : Move m r') :
    m.Accepted := by
  have hnil : (∀ index, m.act ≠ .abort index) → m.changes = [] → m.Accepted := by
    intro habort hchanges
    refine ⟨habort, ?_⟩
    rw [hchanges]
    rfl
  have halters : ∀ {s s' : Scenario} {groups : List (List Write)},
      (∀ index, m.act ≠ .abort index) → m.run.scenario? s.id = some s → s.isLive = true →
        Alters m s s' groups → m.Accepted := by
    intro s s' groups habort hs hlive halters
    have hmem := mem_of_scenario? hs
    refine ⟨habort, ?_⟩
    rw [changes_of_alters halters, StoreM.acceptsAll_map hground.anchored.tree
      hground.anchored.unlocked (hground.anchored.subtree s hmem)]
    exact (h.accepts htime hown hmem hlive halters).1
  cases move with
  | arrive _ => exact hnil (by simp) rfl
  | begin _ => exact hnil (by simp) rfl
  | appoint _ _ => exact hnil (by simp) rfl
  | takeDue _ _ => exact hnil (by simp) rfl
  | decide => exact hnil (by simp) rfl
  | abort hopen => exact (hground.anchored.openScenario_ne_error _ _ _ hopen).elim
  | @enroll r e index parent trigger f c subtree st _ hf hc _ hopen =>
      refine ⟨by simp, ?_⟩
      obtain ⟨-, haccept, -⟩ := hground.anchored.opened (not_started_next hground.nodup_ids hf hc)
        hopen ((trigger.map Event.nanos).getD r.store.endTime) f.id parent
      rw [Moment.changes, hf, hc]
      simp only [StoreM.acceptsAll, Bool.and_true]
      rw [StoreM.accepts, enrollChange_of_open hopen]
      exact haccept
  | handle => exact hnil (by simp) rfl
  | receive hs hlive hf => exact halters (by simp) hs hlive (.receive hf)
  | operate _ => exact hnil (by simp) rfl
  | change hs => exact halters (by simp) hs.1 hs.2.1 (.change hs)
  | save hs => exact halters (by simp) hs.1 hs.2.1 (.save hs)
  | emit _ _ => exact hnil (by simp) rfl
  | enter hs hf hstate ht => exact halters (by simp) hs.1 hs.2.1 (.enter hs hf hstate ht)
  | merge => exact hnil (by simp) rfl
  | retire => exact hnil (by simp) rfl
  | cancel hs hlive => exact halters (by simp) hs hlive .cancel
  | dispose => exact hnil (by simp) rfl

theorem isLive_of_alters {s s' : Scenario} {groups : List (List Write)} (hlive : s.isLive = true)
    (h : Alters m s s' groups) (hevent : m.event = none) : s'.isLive = false := by
  cases h with
  | receive _ => cases hevent
  | change _ => cases hevent
  | save _ => cases hevent
  | enter _ _ _ _ => cases hevent
  | cancel =>
      rw [Scenario.isLive, status_cancelled hlive]
      rfl

theorem exists_time (h : Faithful known time m.run) (hground : m.run.Grounded)
    (htime : ∀ e, m.event = some e → time ≤ e.nanos) (hown : m.Respectful) {s s' : Scenario}
    {groups : List (List Write)} (hs : s ∈ m.run.scenarios) (hlive : s.isLive = true)
    (halters : Alters m s s' groups) :
    ∃ time', time ≤ time' ∧ (∀ e, m.event = some e → time' ≤ e.nanos) ∧
      (m.event = none → time' = time) ∧
      time' ≤ (History.recordAll s.subtree groups m.run.store).endTime ∧
      (s'.isLive = true → ((m.run.store.below (m.run.pathOf s.name)).record groups).Ready
        Layout.identityPaths time') := by
  obtain ⟨hrec, hlater, -⟩ := History.recordAll_spec hground.anchored.tree
    hground.anchored.unlocked (hground.anchored.subtree s hs) groups
  obtain ⟨haccept, hready⟩ := h.accepts htime hown hs hlive halters
  have htimes := time_of_alters hlive halters hown
  have hsame : time ≤ (History.recordAll s.subtree groups m.run.store).endTime :=
    Int64.le_trans h.time_le hrec.endTime_le
  cases hevent : m.event with
  | none =>
      refine ⟨time, Int64.le_refl time, by simp, fun _ => rfl, hsame, ?_⟩
      intro hstill
      rw [isLive_of_alters hlive halters hevent] at hstill
      cases hstill
  | some e =>
      by_cases hsome : ∃ writes ∈ groups, ∃ w, w ∈ writes
      · obtain ⟨writes, hwrites, w, hw⟩ := hsome
        have hle := hlater haccept writes hwrites w hw
        rw [(htimes writes hwrites w hw).1] at hle
        refine ⟨m.time, h.le_time htime, fun e' he' => ?_, by simp, hle, fun _ => hready⟩
        obtain rfl := Option.some.inj he'
        rw [Moment.time, hevent]
        exact Int64.le_refl _
      · refine ⟨time, Int64.le_refl time, fun e' he' => ?_, fun _ => rfl, hsame, fun _ => ?_⟩
        · exact htime e' (hevent.trans he')
        · refine ((h.ready s hs hlive).record ?_).2
          intro writes hwrites w hw
          exact (hsome ⟨writes, hwrites, w, hw⟩).elim

section Steps

variable {r : Run}

theorem quiet (h : Faithful known time m.run) (hremembered : r'.Remembered (note known r'))
    (hpath : ∀ name, r'.pathOf name = m.run.pathOf name)
    (hsub : r'.scenarios.Sublist m.run.scenarios)
    (hstore : r'.store = m.run.store ∨ m.act = .arrive ∧ ∃ t, r'.store = m.run.store.extendTo t) :
    Faithful (note known r') time r' := by
  have hbelow : ∀ base, r'.store.below base = m.run.store.below base := by
    intro base
    rcases hstore with heq | ⟨-, t, heq⟩
    · rw [heq]
    · rw [heq]
      funext p
      exact Store.historyAt?_extendTo _ _ _
  refine ⟨hremembered, ?_, ?_, ?_⟩
  · rcases hstore with heq | ⟨-, t, heq⟩
    · rw [heq]
      exact h.time_le
    · rw [heq]
      exact Int64.le_trans h.time_le (Store.endTime_le_extendTo _ _)
  · intro x hx hlive
    rw [hpath, hbelow]
    exact h.ready x (hsub.subset hx) hlive
  · intro id x hx
    rw [note_of_sublist h.remembered hsub] at hx
    rw [hpath, hbelow]
    exact h.mirrors id x hx

theorem altered (h : Faithful known time m.run) (hground : m.run.Grounded)
    (htime : ∀ e, m.event = some e → time ≤ e.nanos) (hown : m.Respectful)
    (hremembered : r'.Remembered (note known r'))
    (hpath : ∀ name, r'.pathOf name = m.run.pathOf name) {s s' : Scenario}
    {groups : List (List Write)} (hs : m.run.scenario? s.id = some s) (hlive : s.isLive = true)
    (halters : Alters m s s' groups)
    (hscenarios : r'.scenarios = (m.run.modifyScenario s.id fun _ => s').scenarios)
    (hstore : r'.store = History.recordAll s.subtree groups m.run.store) :
    ∃ time', time ≤ time' ∧ (∀ e, m.event = some e → time' ≤ e.nanos) ∧
      (m.event = none → time' = time) ∧ Faithful (note known r') time' r' := by
  have hmem := mem_of_scenario? hs
  have hknown := h.remembered.present s hmem
  obtain ⟨hrec, -, -⟩ := History.recordAll_spec hground.anchored.tree
    hground.anchored.unlocked (hground.anchored.subtree s hmem) groups
  obtain ⟨time', hle, hevent, hnone, hend, hready⟩ :=
    h.exists_time hground htime hown hmem hlive halters
  rw [← hstore] at hrec hend
  have hother : ∀ x : Scenario, x.name ≠ s.name →
      r'.store.below (r'.pathOf x.name) = m.run.store.below (m.run.pathOf x.name) := by
    intro x hne
    rw [hpath]
    exact below_eq_of_recorded hrec hne
  have hself : r'.store.below (r'.pathOf s'.name) =
      (m.run.store.below (m.run.pathOf s.name)).record groups := by
    rw [hpath, halters.sameCard.name]
    exact hrec.below
  refine ⟨time', hle, hevent, hnone, hremembered, hend, ?_, ?_⟩
  · intro x hx hxlive
    rw [hscenarios, mem_modifyScenario hs] at hx
    rcases hx with rfl | ⟨hx, hne⟩
    · rw [hself]
      exact hready hxlive
    · rw [hother x fun heq => hne (hground.anchored.unique x hx s hmem heq)]
      exact (h.ready x hx hxlive).mono hle
  · intro id x hx
    rw [note_of_modify h.remembered hs halters.sameCard.id hscenarios] at hx
    rcases eq_or_ne id s.id with rfl | hne
    · rw [Function.update_self, Option.some.injEq] at hx
      subst hx
      rw [hself]
      exact (h.mirrors s.id s hknown).alters hground hmem hlive halters hown
        (h.accepts htime hown hmem hlive halters).1
    · rw [Function.update_of_ne hne] at hx
      rw [hother x fun heq => hne (h.remembered.name_injective hx hknown heq)]
      exact h.mirrors id x hx

theorem admitted (h : Faithful known time r) (hground : r.Grounded)
    {index : Nat} {f : FsmDefinition} {c : FsmSchedule} {parent : Option String} {start : Int64}
    {subtree : Quark} {st : Store} (hf : r.defs.fsms[index]? = some f)
    (hc : r.fsms[index]? = some c)
    (hopen : History.openScenario r.root (Scenario.nameOf f.id (c.created + 1)) r.store =
      .ok subtree st)
    (heq : r' = r.admitted index f c parent start subtree st)
    (hremembered : r'.Remembered (note known r'))
    (hpath : ∀ name, r'.pathOf name = r.pathOf name) : Faithful (note known r') time r' := by
  have hnew := not_started_next hground.nodup_ids hf hc
  obtain ⟨hopened, -, -⟩ := hground.anchored.opened hnew hopen start f.id parent
  have hstore : r'.store = (History.setIdentity subtree start f.id parent).after st := by
    rw [heq, admitted_eq]
  have hother : ∀ x : Scenario, r.Started x.name →
      r'.store.below (r'.pathOf x.name) = r.store.below (r.pathOf x.name) := by
    intro x hstarted
    rw [hpath, hstore]
    exact hopened.below_eq fun hname => hnew (hname ▸ hstarted)
  have hself : r'.store.below (r'.pathOf (Scenario.nameOf f.id (c.created + 1))) =
      (View.fresh.writeAll (identityWrites start f.id parent)).1 := by
    rw [hpath, hstore]
    exact hopened.below
  refine ⟨hremembered, ?_, ?_, ?_⟩
  · rw [hstore]
    exact Int64.le_trans h.time_le hopened.endTime_le
  · intro x hx hxlive
    rw [heq] at hx
    rcases mem_admitted.mp hx with hx | rfl
    · rw [hother x (hground.anchored.started_of_mem hx)]
      exact h.ready x hx hxlive
    · intro path hplace i hi
      rw [added, hself, intervalsAt_identity start f.id parent hplace] at hi
      cases hi
  · intro id x hx
    rw [heq, note_of_admitted h.remembered] at hx
    rcases eq_or_ne id (r.created + 1) with rfl | hne
    · rw [Function.update_self, Option.some.injEq] at hx
      subst hx
      rw [added, hself]
      exact mirrors_added r f (c.created + 1) parent subtree _
    · rw [Function.update_of_ne hne] at hx
      rw [hother x (h.remembered.started hx)]
      exact h.mirrors id x hx

end Steps

theorem move (h : Faithful known time m.run) (hground : m.run.Grounded)
    (htime : ∀ e, m.event = some e → time ≤ e.nanos) (hown : m.Respectful) (move : Move m r') :
    ∃ time', time ≤ time' ∧ (∀ e, m.event = some e → time' ≤ e.nanos) ∧
      (m.event = none → time' = time) ∧ Faithful (note known r') time' r' := by
  have hremembered := h.remembered.move hground.numbered hground.nodup_ids hground.anchored move
  have hpath : ∀ name, r'.pathOf name = m.run.pathOf name := by
    intro name
    rw [pathOf, move.follows.defs, pathOf]
  cases Effect.of_move hground.numbered move with
  | quiet scenarios _ _ _ store =>
      exact ⟨time, Int64.le_refl time, htime, fun _ => rfl,
        h.quiet hremembered hpath scenarios store⟩
  | alters s s' groups hs hlive halters scenarios _ _ store =>
      exact h.altered hground htime hown hremembered hpath hs hlive halters scenarios store
  | admits index f c parent trigger subtree st _ _ hf hc hopen heq =>
      exact ⟨time, Int64.le_refl time, htime, fun _ => rfl,
        h.admitted hground hf hc hopen heq hremembered hpath⟩
  | aborts index name error st _ hopen _ =>
      exact (hground.anchored.openScenario_ne_error name error st hopen).elim

theorem trace {r r' : Run} {ms : List Moment} (htrace : Trace r ms r') (hground : r.Grounded)
    (hmono : ms.Pairwise fun m m' => ∀ e e', m.event = some e → m'.event = some e' →
      e.nanos ≤ e'.nanos)
    (hown : ∀ m ∈ ms, m.Respectful)
    (htime : ∀ m ∈ ms, ∀ e, m.event = some e → time ≤ e.nanos)
    (h : Faithful (note known r) time r) :
    (∀ m ∈ ms, m.Accepted) ∧
      ∃ time', Faithful ((ms.map (·.run) ++ [r']).foldl note known) time' r' := by
  induction htrace generalizing known time with
  | nil r => exact ⟨by simp, time, h⟩
  | @cons m r' r'' ms move rest ih =>
      obtain ⟨hfirst, hmono⟩ := List.pairwise_cons.mp hmono
      obtain ⟨hownFirst, hownRest⟩ := List.forall_mem_cons.mp hown
      obtain ⟨htimeFirst, htimeRest⟩ := List.forall_mem_cons.mp htime
      have haccepted := h.accepted hground htimeFirst hownFirst move
      obtain ⟨time', -, hevent, hnone, hnext⟩ := h.move hground htimeFirst hownFirst move
      have htime' : ∀ m' ∈ ms, ∀ e, m'.event = some e → time' ≤ e.nanos := by
        intro m' hm' e he
        cases hm : m.event with
        | none =>
            rw [hnone hm]
            exact htimeRest m' hm' e he
        | some e' => exact Int64.le_trans (hevent e' hm) (hfirst m' hm' e' e hm he)
      obtain ⟨hall, hlast⟩ := ih (hground.move move) hmono hownRest htime' hnext
      exact ⟨List.forall_mem_cons.mpr ⟨haccepted, hall⟩, hlast⟩

end Faithful

theorem event_of_moment {r : Run} (hr : r.Numbered) {calls : List Call} {m : Moment}
    (hm : m ∈ r.moments calls) {e : Event} (he : m.event = some e) :
    e ∈ calls.filterMap Call.event? := by
  rw [moments] at hm
  induction calls generalizing r with
  | nil => cases hm
  | cons call rest ih =>
      have hpath := perform_path hr call
      rw [foldMoments, List.mem_append] at hm
      rw [List.mem_filterMap]
      rcases hm with hm | hm
      · exact ⟨call, List.mem_cons_self, (hpath.event_eq m hm).symm.trans he⟩
      · have hrest := ih (hpath.follows.numbered hr) hm
        obtain ⟨call', hcall', heq⟩ := List.mem_filterMap.mp hrest
        exact ⟨call', List.mem_cons_of_mem _ hcall', heq⟩

theorem moments_ordered {r : Run} (hr : r.Numbered) {calls : List Call}
    (h : (calls.filterMap Call.event?).Pairwise fun e e' => e.nanos ≤ e'.nanos) :
    (r.moments calls).Pairwise fun m m' => ∀ e e', m.event = some e → m'.event = some e' →
      e.nanos ≤ e'.nanos := by
  induction calls generalizing r with
  | nil => exact .nil
  | cons call rest ih =>
      have hpath := perform_path hr call
      have hnext := hpath.follows.numbered hr
      rw [moments, foldMoments, ← moments, List.pairwise_append]
      refine ⟨?_, ih hnext ?_, ?_⟩
      · refine List.Pairwise.imp_of_mem (R := fun _ _ => True) ?_ (List.pairwise_of_forall (by simp))
        intro m m' hm hm' _ e e' he he'
        rw [hpath.event_eq m hm] at he
        rw [hpath.event_eq m' hm', he, Option.some.injEq] at he'
        rw [he']
        exact Int64.le_refl _
      · exact h.sublist ((List.sublist_cons_self call rest).filterMap _)
      · intro m hm m' hm' e e' he he'
        rw [hpath.event_eq m hm] at he
        rw [List.filterMap_cons_some he] at h
        exact (List.pairwise_cons.mp h).1 e' (event_of_moment hnext hm' he')

/-- A record tells of a scenario what is in memory. -/
structure Describes (record : ScenarioRecord) (s : Scenario) : Prop where
  name : record.name = s.name
  fsm : record.fsm = s.fsm
  parent : record.parent = s.parent
  startTime : record.startTime = s.startTime
  endTime : record.endTime = s.endTime
  state : s.hasStarted = true ∨ s.isLive = false → record.state = s.state
  status : s.hasStarted = true ∨ s.isLive = false → record.status = s.status.text

theorem int64?_elim (time : Option Int64) : (time.elim Value.null Value.long).int64? = time := by
  cases time with
  | none => rfl
  | some t => simp [Value.int64?, Value.integer?]

theorem Mirrors.describes {v : View} {s : Scenario} {record : ScenarioRecord} (h : Mirrors v s)
    (hread : ScenarioRecord.ReadFrom v s.name record) : Describes record s := by
  constructor
  · exact hread.name
  · rw [hread.fsm, h.fsm]
    rfl
  · rw [hread.parent, h.parent]
    cases s.parent <;> rfl
  · rw [hread.startTime, h.startTime, int64?_elim]
  · rw [hread.endTime, h.endTime, int64?_elim]
  · intro hs
    rw [hread.state, h.state hs]
    rfl
  · intro hs
    rw [hread.status, h.status hs]
    rfl

/-- The order of scenarios by their fsms, and by their starts within each. -/
def Precedes (s s' : Scenario) : Prop :=
  s.fsm < s'.fsm ∨ s.fsm = s'.fsm ∧ s.id < s'.id ∧
    ScenarioRecord.sequenceOf s.name < ScenarioRecord.sequenceOf s'.name

theorem exists_forall₂ {α β γ : Type} {R : α → β → Prop} {P : α → γ → Prop} {as : List α}
    {bs : List β} (h : List.Forall₂ R as bs) (hP : ∀ a ∈ as, ∃ c, P a c) :
    ∃ cs, List.Forall₂ P as cs ∧ List.Forall₂ (fun b c => ∃ a, R a b ∧ P a c) bs cs := by
  induction h with
  | nil => exact ⟨[], .nil, .nil⟩
  | @cons a b as bs hab _ ih =>
      obtain ⟨⟨c, hc⟩, hrest⟩ := List.forall_mem_cons.mp hP
      obtain ⟨cs, hcs, hall⟩ := ih hrest
      exact ⟨c :: cs, .cons hc hcs, .cons ⟨a, hab, hc⟩ hall⟩

theorem exists_of_forall₂ {α β : Type} {R : α → β → Prop} {as : List α} {bs : List β}
    (h : List.Forall₂ R as bs) : ∀ b ∈ bs, ∃ a ∈ as, R a b := by
  induction h with
  | nil => simp
  | @cons a b as bs hab _ ih =>
      refine List.forall_mem_cons.mpr ⟨⟨a, List.mem_cons_self, hab⟩, fun b' hb' => ?_⟩
      obtain ⟨a', ha', hab'⟩ := ih b' hb'
      exact ⟨a', List.mem_cons_of_mem _ ha', hab'⟩

theorem pairwise_of_forall₂ {α β : Type} {R : α → β → Prop} {S : α → α → Prop} {as : List α}
    {bs : List β} (h : List.Forall₂ R as bs) (hS : as.Pairwise S) :
    bs.Pairwise fun b b' => ∃ a a', R a b ∧ R a' b' ∧ S a a' := by
  induction h with
  | nil => exact .nil
  | @cons a b as bs hab hrest ih =>
      obtain ⟨hhead, htail⟩ := List.pairwise_cons.mp hS
      refine List.pairwise_cons.mpr ⟨fun b' hb' => ?_, ih htail⟩
      obtain ⟨a', ha', hab'⟩ := exists_of_forall₂ hrest b' hb'
      exact ⟨a, a', hab, hab', hhead a' ha'⟩

section Records

variable {r : Run} {known : ScenarioId → Option Scenario} {time : Int64}

/-- There is a record of each scenario that was ever started, and nothing else is recorded. What each
record tells of its scenario is what is told of all that is read where the scenario is recorded. -/
theorem Remembered.records (h : r.Remembered known) (hground : r.Grounded)
    {P : ScenarioRecord → Scenario → Prop}
    (hP : ∀ id s, known id = some s → ∀ record,
      ScenarioRecord.ReadFrom (r.store.below (r.pathOf s.name)) s.name record → P record s) :
    ∃ (scenarios : List Scenario) (records : List ScenarioRecord),
      r.records = .ok records ∧ records.Pairwise (fun a b => a.notAfter b = true) ∧
        List.Forall₂ P records scenarios ∧
        (scenarios.map (·.id)).Perm (List.range' 1 r.created) ∧
        ∀ s ∈ scenarios, known s.id = some s := by
  obtain ⟨names, hsorted, hnames, unsorted, hlist, hread⟩ :=
    ScenarioRecord.list_spec hground.anchored.tree hground.anchored.root
  have hnodup : names.Nodup := hsorted.imp String.ne_of_lt
  have hknown : ∀ name ∈ names, ∃ s, known s.id = some s ∧ s.name = name := by
    intro name hname
    have hstarted := (hground.anchored.exists_iff name).mp ((hnames name).mp hname)
    obtain ⟨id, s, hs, hname⟩ := h.complete name hstarted
    refine ⟨s, ?_, hname⟩
    rw [h.id_eq id s hs]
    exact hs
  obtain ⟨started, hstarted, hall⟩ := exists_forall₂ hread hknown
  have hmap : names = started.map (·.name) := by
    have hequal := hstarted.imp fun name s hs => hs.2.symm
    rwa [← List.forall₂_map_right_iff (f := Scenario.name), List.forall₂_eq_eq_eq] at hequal
  have hmem : ∀ s ∈ started, known s.id = some s := by
    intro s hs
    obtain ⟨name, -, hknown, -⟩ := exists_of_forall₂ hstarted s hs
    exact hknown
  have hids : (started.map (·.id)).Perm (List.range' 1 r.created) := by
    rw [List.perm_ext_iff_of_nodup ?_ List.nodup_range']
    · intro id
      rw [List.mem_map, List.mem_range'_1, Nat.add_comm, Nat.lt_succ_iff, ← h.isSome_iff]
      constructor
      · rintro ⟨s, hs, rfl⟩
        rw [hmem s hs]
        rfl
      · intro hsome
        obtain ⟨s, hs⟩ := Option.isSome_iff_exists.mp hsome
        have hname : s.name ∈ names := by
          rw [hnames]
          exact (hground.anchored.exists_iff s.name).mpr (h.started hs)
        rw [hmap, List.mem_map] at hname
        obtain ⟨s', hs', heq⟩ := hname
        exact ⟨s', hs', h.name_injective (hmem s' hs') hs heq⟩
    · rw [hmap, List.Nodup, List.pairwise_map] at hnodup
      rw [List.Nodup, List.pairwise_map]
      refine hnodup.imp_of_mem fun {s s'} hs hs' hne heq => hne ?_
      have hsame := hmem s hs
      rw [heq, hmem s' hs', Option.some.injEq] at hsame
      rw [hsame]
  have htold : List.Forall₂ P unsorted started := by
    refine hall.imp fun record s ⟨name, hfrom, hs, hname⟩ => ?_
    subst hname
    exact hP s.id s hs record hfrom
  obtain ⟨scenarios, hscenarios, hperm⟩ := List.perm_comp_forall₂
    (List.mergeSort_perm unsorted ScenarioRecord.notAfter) htold
  refine ⟨scenarios, unsorted.mergeSort ScenarioRecord.notAfter, ?_,
    List.pairwise_mergeSort ScenarioRecord.notAfter_trans ScenarioRecord.notAfter_total unsorted,
    hscenarios, (hperm.map (·.id)).trans hids, fun s hs => hmem s (hperm.subset hs)⟩
  rw [Run.records, hlist]
  rfl

theorem StartedAs.lt (hcounts : ∀ c ∈ r.fsms, c.created < 2 ^ 64) {fsm : String}
    {sequence : Nat} (h : r.StartedAs fsm sequence) : sequence < 2 ^ 64 := by
  obtain ⟨index, f, -, -, n, hn, -, hle⟩ := h
  obtain ⟨c, hc, rfl⟩ := List.mem_map.mp (List.mem_of_getElem? hn)
  exact Nat.lt_of_le_of_lt hle (hcounts c hc)

theorem Faithful.precedes (h : Faithful known time r)
    (hcounts : ∀ c ∈ r.fsms, c.created < 2 ^ 64) {s s' : Scenario} (hs : known s.id = some s)
    (hs' : known s'.id = some s') (hne : s.id ≠ s'.id) {record record' : ScenarioRecord}
    (hrecord : Describes record s) (hrecord' : Describes record' s')
    (hle : record.notAfter record' = true) : Precedes s s' := by
  obtain ⟨n, hstart, hname⟩ := h.remembered.named s.id s hs
  obtain ⟨n', hstart', hname'⟩ := h.remembered.named s'.id s' hs'
  rw [ScenarioRecord.notAfter_iff, hrecord.fsm, hrecord'.fsm] at hle
  refine hle.imp (fun hlt => hlt) ?_
  rintro ⟨hfsm, hle⟩
  have hn : ScenarioRecord.sequenceOf s.name = n := by
    rw [hname, Scenario.sequenceOf_nameOf _ (hstart.lt hcounts)]
  have hn' : ScenarioRecord.sequenceOf s'.name = n' := by
    rw [hname', Scenario.sequenceOf_nameOf _ (hstart'.lt hcounts)]
  rw [ScenarioRecord.sequence, ScenarioRecord.sequence, hrecord.name, hrecord'.name, hn, hn'] at hle
  rw [hn, hn']
  rcases Nat.lt_trichotomy s.id s'.id with hlt | heq | hgt
  · exact ⟨hfsm, hlt, h.remembered.increasing _ _ _ _ _ _ _ hs hs' hname (hfsm ▸ hname') hlt⟩
  · exact (hne heq).elim
  · have hgt' := h.remembered.increasing _ _ _ _ _ _ _ hs' hs hname' (hfsm ▸ hname) hgt
    exact absurd hle (Nat.not_le_of_lt hgt')

theorem Faithful.records (h : Faithful known time r) (hground : r.Grounded) :
    ∃ (scenarios : List Scenario) (records : List ScenarioRecord),
      r.records = .ok records ∧ List.Forall₂ Describes records scenarios ∧
        (scenarios.map (·.id)).Perm (List.range' 1 r.created) ∧
        (∀ s ∈ scenarios, known s.id = some s) ∧
        ((∀ c ∈ r.fsms, c.created < 2 ^ 64) → scenarios.Pairwise Precedes) := by
  obtain ⟨scenarios, records, hrecords, hsorted, hdescribes, hids, hknown⟩ :=
    h.remembered.records hground fun id s hs _ hfrom => (h.mirrors id s hs).describes hfrom
  refine ⟨scenarios, records, hrecords, hdescribes, hids, hknown, fun hcounts => ?_⟩
  have hdistinct := List.pairwise_map.mp (hids.nodup_iff.mpr List.nodup_range')
  refine ((pairwise_of_forall₂ hdescribes hsorted).and hdistinct).imp_of_mem ?_
  rintro s s' hs hs' ⟨⟨record, record', hrecord, hrecord', hle⟩, hne⟩
  exact h.precedes hcounts (hknown s hs) (hknown s' hs') hne hrecord hrecord' hle

end Records

/-- Every scenario that was ever started, as it was when a run last had it. -/
def lastKnown (r : Run) (calls : List Call) : ScenarioId → Option Scenario :=
  (r.runs calls).foldl note fun _ => none

/-- What calls lead to is in the store: no write was refused on the way, and there is one record of
each scenario that was ever started. -/
structure FaithfulLog (r : Run) (calls : List Call) : Prop where
  accepted : ∀ m ∈ r.moments calls, m.Accepted
  /-- A scenario that is still there is known as it is. -/
  current : ∀ s ∈ (r.performAll calls).scenarios, r.lastKnown calls s.id = some s
  /-- A scenario that is no longer there has ended before. -/
  ended : ∀ id s, r.lastKnown calls id = some s →
    s ∈ (r.performAll calls).scenarios ∨ s.isLive = false
  /-- The records are in order as long as the count of each fsm is a word of 64 bits. -/
  records : ∃ scenarios records, (r.performAll calls).records = .ok records ∧
    List.Forall₂ Describes records scenarios ∧
    (scenarios.map (·.id)).Perm (List.range' 1 (r.performAll calls).created) ∧
    (∀ s ∈ scenarios, r.lastKnown calls s.id = some s) ∧
    ((∀ c ∈ (r.performAll calls).fsms, c.created < 2 ^ 64) → scenarios.Pairwise Precedes)

theorem Fresh.note_eq {r : Run} {d : DefinitionSet} {settings : RunSettings} {time : Int64}
    (h : r.Fresh d settings time) : note (fun _ => none) r = fun _ => none := by
  funext id
  rw [note, scenario?, h.scenarios]
  rfl

theorem Fresh.faithful {r : Run} {d : DefinitionSet} {settings : RunSettings} {time : Int64}
    (h : r.Fresh d settings time) :
    Faithful (note (fun _ => none) r) Int64.minValue r := by
  rw [h.note_eq]
  refine ⟨h.remembered, Int64.le_iff_toInt_le.mpr (Int64.minValue_le_toInt _), ?_, ?_⟩
  · intro s hs
    simp [h.scenarios] at hs
  · intro id s hs
    cases hs

/-- In every run of an accepted document with events in the order of their times, the store is a
faithful log, unless an action writes at a name that belongs to the run. -/
theorem store_faithful {d : DefinitionDocument} {defs : DefinitionSet}
    (h : d.compile = .ok defs) (settings : RunSettings) (time : Int64) :
    ∃ r, Run.start defs (Store.empty time) settings = .ok r ∧
      ∀ calls : List Call,
        (calls.filterMap Call.event?).Pairwise (fun e e' => e.nanos ≤ e'.nanos) →
        (∀ m ∈ r.moments calls, m.Respectful) → r.FaithfulLog calls := by
  obtain ⟨r, hstart, hfresh, hground⟩ := exists_grounded h settings time
  refine ⟨r, hstart, fun calls hmono hown => ?_⟩
  have htrace := performAll_trace hfresh.numbered calls
  have hgrounded := htrace.invariant (fun m _ r' move => Grounded.move move) hground
  obtain ⟨haccepted, time', hfaithful⟩ := Faithful.trace htrace hground
    (moments_ordered hfresh.numbered hmono) hown
    (fun m _ e _ => Int64.le_iff_toInt_le.mpr (Int64.minValue_le_toInt _)) hfresh.faithful
  exact ⟨haccepted, hfaithful.remembered.present, hfaithful.remembered.ended,
    hfaithful.records hgrounded.1⟩

/-- Three events, after which one scenario is cancelled before all are. -/
def sampleCalls : List Call :=
  [.event ⟨⟨1, 0⟩, "begin", .ofList [("pid", .int 7)], none⟩, .event ⟨⟨2, 0⟩, "end", ∅, none⟩,
    .event ⟨⟨3, 0⟩, "begin", ∅, none⟩, .cancel 4, .dispose]

theorem store_faithful_sample :
    ∃ defs r, DefinitionDocument.sample.compile = .ok defs ∧
      Run.start defs (Store.empty 0) {} = .ok r ∧
      (sampleCalls.filterMap Call.event?).Pairwise (fun e e' => e.nanos ≤ e'.nanos) ∧
      (∀ m ∈ r.moments sampleCalls, m.Respectful) ∧ r.FaithfulLog sampleCalls := by
  obtain ⟨defs, r, hcompile, hstart, hcheck⟩ := DefinitionDocument.sample.exists_of_checks {} 0
    (fun _ r => decide (∀ m ∈ r.moments sampleCalls, m.Respectful)) (by decide +kernel)
  have hown : ∀ m ∈ r.moments sampleCalls, m.Respectful := of_decide_eq_true hcheck
  obtain ⟨r', hstart', hlog⟩ := store_faithful hcompile {} 0
  obtain rfl : r = r' := Except.ok.inj (hstart.symm.trans hstart')
  have hmono : (sampleCalls.filterMap Call.event?).Pairwise fun e e' => e.nanos ≤ e'.nanos := by
    decide
  exact ⟨defs, r, hcompile, hstart, hmono, hown, hlog sampleCalls hmono hown⟩

def sampleMoments : List Moment :=
  ((DefinitionDocument.sample.compile.toOption.bind fun defs =>
    (Run.start defs (Store.empty 0) {}).toOption).map (·.moments sampleCalls)).getD []

theorem moments_sample {defs : DefinitionSet} {r : Run}
    (hcompile : DefinitionDocument.sample.compile = .ok defs)
    (hstart : Run.start defs (Store.empty 0) {} = .ok r) :
    r.moments sampleCalls = sampleMoments := by
  rw [sampleMoments, hcompile, Except.toOption, Option.bind_some, hstart]
  rfl

end Run

end TraceAutomata
