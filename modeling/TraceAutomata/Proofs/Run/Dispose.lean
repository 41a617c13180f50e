import TraceAutomata.Proofs.Run.Endure
import TraceAutomata.Proofs.Run.Line
import TraceAutomata.Proofs.Run.Mirror
import TraceAutomata.Proofs.Scenario.Record
import TraceAutomata.Proofs.Store.Timely

namespace TraceAutomata

def Scenario.abandonedAt (s : Scenario) (time : Int64) : Scenario :=
  { s.advance .abandoned with endTime := some time }

theorem Scenario.isLive_abandonedAt {s : Scenario} (h : s.isLive = true) (time : Int64) :
    (s.abandonedAt time).isLive = false := by
  rw [Scenario.isLive, abandonedAt, Run.status_cancelled h]
  rfl

theorem Scenario.sameCard_abandonedAt (s : Scenario) (time : Int64) :
    Run.SameCard s (s.abandonedAt time) := by
  rw [abandonedAt, Run.advance_eq]
  exact ⟨rfl, rfl, rfl, rfl, rfl⟩

namespace Run

theorem timely_of_move {m : Moment} {r' : Run} (hground : m.run.Grounded) (move : Move m r')
    (h : m.run.store.Timely) : r'.store.Timely := by
  have hanchored := hground.anchored
  cases Effect.of_move hground.numbered move with
  | quiet _ _ _ _ store =>
      rcases store with heq | ⟨-, time, heq⟩
      · exact heq ▸ h
      · exact heq ▸ h.extendTo time
  | alters s s' groups hs _ _ _ _ _ store =>
      rw [store]
      exact History.recordAll_timely hanchored.tree hanchored.unlocked
        (hanchored.subtree s (mem_of_scenario? hs)) h groups
  | admits index f c parent trigger subtree st _ _ _ _ hopen heq =>
      obtain ⟨st', q, hok, hext, hend, hfind, hhist⟩ := History.openScenario_spec hanchored.tree
        hanchored.root (Scenario.nameOf f.id (c.created + 1))
      rw [hopen] at hok
      cases hok
      have hopened : st.Timely := by
        refine h.congr (fun p => ?_) (hend ▸ Int64.le_refl _)
        rw [Store.intervalsAt, hhist]
        split
        · rfl
        · rfl
      rw [heq, admitted_eq]
      simp only [History.setIdentity_eq]
      exact History.writeAll_timely hext.tree (hext.lockedName.trans hanchored.unlocked) hfind
        hopened _
  | aborts _ name error st _ hopen _ =>
      exact (hanchored.openScenario_ne_error name error st hopen).elim

/-- A run that nothing keeps from coming to an orderly end. -/
structure Orderly (r : Run) : Prop where
  grounded : r.Grounded
  inLine : r.InLine
  timely : r.store.Timely

theorem Orderly.move {m : Moment} {r' : Run} (move : Move m r') (h : m.run.Orderly) : r'.Orderly :=
  ⟨h.grounded.move move, h.inLine.move move, timely_of_move h.grounded move h.timely⟩

theorem Orderly.of_path {event : Option Event} {r r' : Run} {ms : List Moment}
    (h : Path event r ms r') (hr : r.Orderly) : r'.Orderly :=
  (h.trace.invariant (fun _ _ _ move => Orderly.move move) hr).1

theorem Fresh.orderly {r : Run} {d : DefinitionSet} {settings : RunSettings} {time : Int64}
    (h : r.Fresh d settings time) (hground : r.Grounded) : r.Orderly := by
  refine ⟨hground, h.inLine hground, fun p i hi => ?_⟩
  have hnil : r.store.intervalsAt p = [] := by
    rw [Store.intervalsAt, h.historyAt?]
    split <;> rfl
  rw [hnil] at hi
  cases hi

section Abandoned

variable {r r' r'' : Run} {s : Scenario}

/-- The scenario is as it was, and so is what is recorded of it. -/
structure Spared (r r' : Run) (s : Scenario) : Prop where
  mem : s ∈ r'.scenarios
  below : r'.store.below (r.pathOf s.name) = r.store.below (r.pathOf s.name)

/-- The scenario was live and has been abandoned at the latest time, which is recorded. -/
structure Abandoned (r r' : Run) (s : Scenario) : Prop where
  live : s.isLive = true
  mem : s.abandonedAt r.store.endTime ∈ r'.scenarios
  below : r'.store.below (r.pathOf s.name) =
    (r.store.below (r.pathOf s.name)).record (cancelGroups r.store.endTime s.state)

/-- Some live scenarios have been abandoned at the latest time, and nothing else has happened. -/
structure Abandons (r r' : Run) : Prop where
  follows : Follows r r'
  endTime : r'.store.endTime = r.store.endTime
  counts : r'.fsms.map (fun c => (c.created, c.matched)) =
    r.fsms.map fun c => (c.created, c.matched)
  scenario : ∀ s ∈ r.scenarios, Spared r r' s ∨ Abandoned r r' s
  origin : ∀ s' ∈ r'.scenarios, s' ∈ r.scenarios ∨
    ∃ s ∈ r.scenarios, s.isLive = true ∧ s' = s.abandonedAt r.store.endTime
  outside : ∀ p, (∀ s ∈ r.scenarios, s.isLive = true → ¬ r.pathOf s.name <+: p) →
    r'.store.historyAt? p = r.store.historyAt? p

namespace Abandons

theorem refl (r : Run) : Abandons r r :=
  ⟨.refl r, rfl, rfl, fun _ hs => .inl ⟨hs, rfl⟩, fun _ hs => .inl hs, fun _ _ => rfl⟩

theorem pathOf_eq (h : Abandons r r') (name : String) : r'.pathOf name = r.pathOf name := by
  rw [pathOf, h.follows.defs, pathOf]

theorem mem_of_isLive (h : Abandons r r') (hs : s ∈ r'.scenarios) (hlive : s.isLive = true) :
    s ∈ r.scenarios := by
  rcases h.origin s hs with hold | ⟨x, -, hx, rfl⟩
  · exact hold
  · rw [Scenario.isLive_abandonedAt hx] at hlive
    cases hlive

theorem trans (h : Abandons r r') (h' : Abandons r' r'') : Abandons r r'' where
  follows := h.follows.trans h'.follows
  endTime := h'.endTime.trans h.endTime
  counts := h'.counts.trans h.counts
  scenario s hs := by
    have hpath := h.pathOf_eq s.name
    rcases h.scenario s hs with hspared | habandoned
    · rcases h'.scenario s hspared.mem with hspared' | habandoned'
      · exact .inl ⟨hspared'.mem, (hpath ▸ hspared'.below).trans hspared.below⟩
      · refine .inr ⟨habandoned'.live, h.endTime ▸ habandoned'.mem, ?_⟩
        rw [← hspared.below, ← hpath, ← h.endTime]
        exact habandoned'.below
    · rcases h'.scenario _ habandoned.mem with hspared' | habandoned'
      · refine .inr ⟨habandoned.live, hspared'.mem, ?_⟩
        have hbelow := hspared'.below
        rw [(s.sameCard_abandonedAt _).name, hpath] at hbelow
        exact hbelow.trans habandoned.below
      · have hlive := habandoned'.live
        rw [Scenario.isLive_abandonedAt habandoned.live] at hlive
        cases hlive
  origin s hs := by
    rcases h'.origin s hs with hs | ⟨x, hx, hlive, rfl⟩
    · exact h.origin s hs
    · exact .inr ⟨x, h.mem_of_isLive hx hlive, hlive, by rw [h.endTime]⟩
  outside p hp := by
    refine (h'.outside p fun s hs hlive => ?_).trans (h.outside p hp)
    rw [h.pathOf_eq]
    exact hp s (h.mem_of_isLive hs hlive) hlive

theorem isLive_eq_false (h : Abandons r r') (hn : r.Numbered) {id : ScenarioId}
    (hdead : r.isLive id = false) : r'.isLive id = false := by
  refine Bool.eq_false_iff.mpr fun hlive => ?_
  obtain ⟨s, hs, hlive⟩ := (Option.any_eq_true _ _).mp hlive
  have hmem := h.mem_of_isLive (mem_of_scenario? hs) hlive
  have hfound := hn.isLive_of_mem hmem
  rw [id_of_scenario? hs, hdead, hlive] at hfound
  cases hfound

end Abandons

theorem Orderly.accepts_cancel (h : r.Orderly) (hlive : s.isLive = true) :
    (r.store.below (r.pathOf s.name)).accepts (cancelGroups r.store.endTime s.state) = true := by
  have htimes := time_of_alters (m := ⟨r, none, .cancel s⟩) hlive .cancel fun _ _ _ h => nomatch h
  refine ((h.timely.ready (r.pathOf s.name)).record fun writes hwrites w hw => ?_).1
  exact ⟨(htimes writes hwrites w hw).1, List.not_mem_nil⟩

theorem counts_cancelLive (hn : r.Numbered) (hs : r.scenario? s.id = some s) :
    (r.cancelLive s).fsms.map (fun c => (c.created, c.matched)) =
      r.fsms.map fun c => (c.created, c.matched) := by
  rw [cancelLive_altered hn hs]
  cases r.defs.fsmIndex? s.fsm with
  | none => rfl
  | some index =>
      exact (map_restartIfIdle _ _ fun _ => rfl).trans (map_modifyFsm _ _ fun _ => rfl)

theorem Orderly.abandons_cancelLive (h : r.Orderly) (hs : r.scenario? s.id = some s)
    (hlive : s.isLive = true) : Abandons r (r.cancelLive s) := by
  have hn := h.grounded.numbered
  have hanchored := h.grounded.anchored
  have hmem := mem_of_scenario? hs
  have hunmoved := cancelLive_spec hn hs
  have htimes := time_of_alters (m := ⟨r, none, .cancel s⟩) hlive .cancel fun _ _ _ h => nomatch h
  obtain ⟨hrec, -, hsame⟩ := History.recordAll_spec hanchored.tree hanchored.unlocked
    (hanchored.subtree s hmem) (cancelGroups r.store.endTime s.state)
  have hin : ∀ x, x ∈ (r.cancelLive s).scenarios ↔
      x = s.abandonedAt r.store.endTime ∨ x ∈ r.scenarios ∧ x.id ≠ s.id := by
    intro x
    rw [hunmoved.scenarios]
    exact mem_modifyScenario hs x
  constructor
  case follows => exact .of_keeps (keeps_cancelLive r s)
  case endTime =>
    rw [hunmoved.store]
    refine hsame fun writes hwrites w hw => ?_
    rw [(htimes writes hwrites w hw).1]
    exact Int64.le_refl _
  case counts => exact counts_cancelLive hn hs
  case scenario =>
    intro x hx
    by_cases hid : x.id = s.id
    · obtain rfl := hn.eq_of_id hx hmem hid
      refine .inr ⟨hlive, (hin _).mpr (.inl rfl), ?_⟩
      rw [hunmoved.store]
      exact hrec.below
    · refine .inl ⟨(hin x).mpr (.inr ⟨hx, hid⟩), ?_⟩
      rw [hunmoved.store]
      exact below_eq_of_recorded hrec fun hname => hid (hanchored.unique x hx s hmem hname)
  case origin =>
    intro x hx
    rcases (hin x).mp hx with rfl | ⟨hx, -⟩
    · exact .inr ⟨s, hmem, hlive, rfl⟩
    · exact .inl hx
  case outside =>
    intro p hp
    rw [hunmoved.store]
    exact hrec.outside p (hp s hmem hlive)

theorem Orderly.abandons_cancel (h : r.Orderly) (id : ScenarioId) :
    Abandons r (r.cancel id).1 ∧ (r.cancel id).1.isLive id = false := by
  rw [cancel]
  cases hfound : (r.scenario? id).filter Scenario.isLive with
  | none =>
      refine ⟨.refl r, ?_⟩
      rw [isLive]
      cases hs : r.scenario? id with
      | none => rfl
      | some s => simpa [hs] using hfound
  | some s =>
      obtain ⟨rfl, hs, hlive⟩ := scenario?_of_filter hfound
      refine ⟨h.abandons_cancelLive hs hlive, Bool.eq_false_iff.mpr fun hstill => ?_⟩
      obtain ⟨x, hx, hxlive⟩ := (Option.any_eq_true _ _).mp hstill
      have hmem := mem_of_scenario? hx
      rw [(cancelLive_spec h.grounded.numbered hs).scenarios, altered,
        mem_modifyScenario hs] at hmem
      rcases hmem with rfl | ⟨-, hne⟩
      · rw [← Scenario.abandonedAt, Scenario.isLive_abandonedAt hlive] at hxlive
        cases hxlive
      · exact hne (id_of_scenario? hx)

theorem Orderly.abandons_all (h : r.Orderly) (ids : List ScenarioId) :
    Abandons r (ids.foldl (fun r id => (r.cancel id).1) r) ∧
      ∀ id ∈ ids, (ids.foldl (fun r id => (r.cancel id).1) r).isLive id = false := by
  -- The induction is on the scenarios that are still to be cancelled.
  induction ids generalizing r with
  | nil => exact ⟨.refl r, List.forall_mem_nil _⟩
  | cons id rest ih =>
      obtain ⟨hfirst, hdead⟩ := h.abandons_cancel id
      have hnext := h.of_path (cancel_path r id)
      obtain ⟨hrest, hall⟩ := ih hnext
      exact ⟨hfirst.trans hrest, List.forall_mem_cons.mpr
        ⟨hrest.isLive_eq_false hnext.grounded.numbered hdead, hall⟩⟩

end Abandoned

section Ended

variable {r : Run}

def Still (r : Run) : Prop :=
  ∀ s ∈ r.scenarios, s.isLive = false

theorem mem_tracked_of_mem (h : r.Scheduled) {s : Scenario} (hs : s ∈ r.scenarios) :
    s.id ∈ r.fsms.flatMap FsmSchedule.tracked := by
  obtain ⟨f, hf, hid⟩ := h.fsm s hs
  obtain ⟨index, hindex⟩ := List.getElem?_of_mem hf
  obtain ⟨c, hc⟩ := h.exists_schedule hindex
  have hmem := ((h.sound index f c hindex hc).mem_tracked s.id).mpr ⟨s, hs, rfl, hid.symm⟩
  exact List.mem_flatMap.mpr ⟨c, List.mem_of_getElem? hc, hmem⟩

theorem Orderly.dispose (h : r.Orderly) (hstill : r.disposed = true → r.Still) :
    Abandons r r.dispose ∧ r.dispose.Still ∧ r.dispose.disposed = true := by
  rw [Run.dispose]
  split
  · next hdisposed => exact ⟨.refl r, hstill hdisposed, hdisposed⟩
  · obtain ⟨habandons, hdead⟩ := h.abandons_all (r.fsms.flatMap FsmSchedule.tracked)
    have hlast := h.of_path (cancelAll_path h.grounded.numbered
      (r.fsms.flatMap FsmSchedule.tracked))
    refine ⟨habandons.trans ⟨Move.dispose.follows, rfl, rfl, fun _ hs => .inl ⟨hs, rfl⟩,
      fun _ hs => .inl hs, fun _ _ => rfl⟩, fun s hs => ?_, rfl⟩
    refine Bool.eq_false_iff.mpr fun hlive => ?_
    have hold := habandons.mem_of_isLive hs hlive
    have hcancelled := hdead s.id (mem_tracked_of_mem h.grounded.scheduled hold)
    rw [hlast.grounded.numbered.isLive_of_mem hs, hlive] at hcancelled
    cases hcancelled

theorem Abandons.still {r' : Run} (h : Abandons r r') (hstill : r.Still) : r'.Still := by
  refine fun s hs => Bool.eq_false_iff.mpr fun hlive => ?_
  rw [hstill s (h.mem_of_isLive hs hlive)] at hlive
  cases hlive

theorem Still.performAll (h : r.Still) (hdisposed : r.disposed = true) (calls : List Call) :
    r.performAll calls = r := by
  induction calls with
  | nil => rfl
  | cons call rest ih =>
      have hperform : r.perform call = r := by
        cases call with
        | event e =>
            rw [perform, onEvent, if_pos hdisposed]
        | cancel id =>
            have hnone : (r.scenario? id).filter Scenario.isLive = none := by
              cases hs : r.scenario? id with
              | none => rfl
              | some s => simp [h s (mem_of_scenario? hs)]
            rw [perform, cancel, hnone]
        | dispose =>
            rw [perform, Run.dispose, if_pos hdisposed]
      rw [Run.performAll, List.foldl_cons, hperform]
      exact ih

theorem Orderly.accepted {r' : Run} {ms : List Moment} (hpath : Path none r ms r')
    (h : r.Orderly) : ∀ m ∈ ms, m.Accepted := by
  induction hpath with
  | nil r => exact List.forall_mem_nil _
  | cons move _ ih =>
      refine List.forall_mem_cons.mpr ⟨?_, ih (h.move move)⟩
      cases move with
      | @cancel r s hs hlive =>
          have hanchored := h.grounded.anchored
          refine ⟨fun _ hact => (nomatch hact), ?_⟩
          rw [changes_of_alters .cancel, StoreM.acceptsAll_map hanchored.tree hanchored.unlocked
            (hanchored.subtree s (mem_of_scenario? hs))]
          exact h.accepts_cancel hlive
      | dispose => exact ⟨fun _ hact => (nomatch hact), rfl⟩

theorem Orderly.performAll (h : r.Orderly) (hstill : r.disposed = true → r.Still)
    (calls : List Call) :
    (r.performAll calls).Orderly ∧
      ((r.performAll calls).disposed = true → (r.performAll calls).Still) := by
  induction calls generalizing r with
  | nil => exact ⟨h, hstill⟩
  | cons call rest ih =>
      have hn := h.grounded.numbered
      refine ih (h.of_path (perform_path hn call)) fun hdisposed => ?_
      cases call with
      | event e =>
          rw [perform, (onEvent_path hn e).disposed] at hdisposed
          rw [perform, onEvent, if_pos hdisposed]
          exact hstill hdisposed
      | cancel id =>
          rw [perform, (keeps_cancel r id).disposed] at hdisposed
          exact (h.abandons_cancel id).1.still (hstill hdisposed)
      | dispose => exact (h.dispose hstill).2.1

end Ended

section Concluded

variable {r r' : Run} {s : Scenario}

/-- A scenario has been abandoned in the state in which it was, at the latest time, both in memory and
in its record. -/
structure Persisted (r r' : Run) (s : Scenario) : Prop where
  memory : ∃ s' ∈ r'.scenarios, SameCard s s' ∧ s'.status = .abandoned ∧ s'.state = s.state ∧
    s'.endTime = some r.store.endTime
  record : ∃ record, ScenarioRecord.read r'.store s.subtree = .ok record ∧ record.name = s.name ∧
    record.status = ScenarioStatus.abandoned.text ∧ record.state = s.state ∧
    record.endTime = some r.store.endTime

theorem Abandoned.ongoing (h : r.Orderly) (habandoned : Abandoned r r' s) {path : List String}
    (hpath : path ∈ Layout.cardPaths) :
    (r'.store.below (r.pathOf s.name)).ongoing path =
      if path = [Layout.status] then .string ScenarioStatus.abandoned.text
      else if path = [Layout.state] then .string s.state
      else if path = [Layout.endTime] then .long r.store.endTime
      else (r.store.below (r.pathOf s.name)).ongoing path := by
  rw [habandoned.below, View.ongoing_record _ (h.accepts_cancel habandoned.live),
    latest_cancelGroups]
  intro writes hwrites w hw heq
  exact solid_of_alters (m := ⟨r, none, .cancel s⟩) habandoned.live .cancel
    (fun _ _ _ h => nomatch h) writes hwrites w hw (heq ▸ hpath)

theorem Abandoned.persisted (h : r.Orderly) (h' : r'.Orderly) (hdefs : r'.defs = r.defs)
    (habandoned : Abandoned r r' s) : Persisted r r' s := by
  have hcard := s.sameCard_abandonedAt r.store.endTime
  refine ⟨⟨_, habandoned.mem, hcard, status_cancelled habandoned.live _, ?_, rfl⟩, ?_⟩
  · rw [Scenario.abandonedAt, advance_eq]
  · have hfind := h'.grounded.anchored.subtree _ habandoned.mem
    have hpath : r'.pathOf (s.abandonedAt r.store.endTime).name =
        [r.defs.id, Layout.scenarios] ++ [s.name] := by
      rw [hcard.name, pathOf, hdefs]
      rfl
    rw [hpath, hcard.subtree, Store.find?_concat] at hfind
    obtain ⟨q, hq, hc⟩ := Option.bind_eq_some_iff.mp hfind
    obtain ⟨record, hread, hfrom⟩ :=
      ScenarioRecord.exists_read h'.grounded.anchored.tree hq hc
    have hongoing := fun path (hpath : path ∈ Layout.cardPaths) => habandoned.ongoing h hpath
    refine ⟨record, hread, hfrom.name, ?_, ?_, ?_⟩
    · rw [hfrom.status]
      change ((((r'.store.below (r.pathOf s.name)).ongoing [Layout.status]).string?).getD "") = _
      rw [hongoing _ (by decide), if_pos rfl]
      rfl
    · rw [hfrom.state]
      change ((((r'.store.below (r.pathOf s.name)).ongoing [Layout.state]).string?).getD "") = _
      rw [hongoing _ (by decide), if_neg (by decide), if_pos rfl]
      rfl
    · rw [hfrom.endTime]
      change ((r'.store.below (r.pathOf s.name)).ongoing [Layout.endTime]).int64? = _
      rw [hongoing _ (by decide), if_neg (by decide), if_neg (by decide), if_pos rfl]
      simp [Value.int64?, Value.integer?]

/-- The later run is the earlier one brought to its end. -/
structure Concludes (r r' : Run) : Prop where
  disposed : r'.disposed = true
  still : ∀ s ∈ r'.scenarios, s.isLive = false
  waiting : ∀ c ∈ r'.fsms, c.waiting = 0
  accepted : ∀ m ∈ r.disposeMoments, m.Accepted
  endTime : r'.store.endTime = r.store.endTime
  persisted : ∀ s ∈ r.scenarios, s.isLive = true → Persisted r r' s
  /-- All scenarios of an fsm that were live count as abandoned. -/
  counts : ∀ (index : Nat) f c, r.defs.fsms[index]? = some f → r.fsms[index]? = some c →
    ∃ c', r'.fsms[index]? = some c' ∧ c'.created = c.created ∧ c'.matched = c.matched ∧
      c'.abandoned = c.abandoned + (r.line f).length
  /-- Scenarios that were not live are as they were, and so is what is recorded of them. -/
  spared : ∀ s ∈ r.scenarios, s.isLive = false → Spared r r' s
  /-- All histories that do not belong to a live scenario are as they were. -/
  outside : ∀ p, (∀ s ∈ r.scenarios, s.isLive = true → ¬ r.pathOf s.name <+: p) →
    r'.store.historyAt? p = r.store.historyAt? p
  /-- No later call changes anything. -/
  later : ∀ calls, r'.performAll calls = r'

theorem Still.countP_eq_zero (h : r.Still) (ids : List ScenarioId) :
    ids.countP (r.holds Scenario.isLive) = 0 := by
  refine List.countP_eq_zero.mpr fun id _ hlive => ?_
  obtain ⟨s, hs, hlive⟩ := (Option.any_eq_true _ _).mp hlive
  rw [h s (mem_of_scenario? hs)] at hlive
  cases hlive

theorem Orderly.concludes (h : r.Orderly) (hstill : r.disposed = true → r.Still) :
    Concludes r r.dispose := by
  obtain ⟨habandons, hlast, hdisposed⟩ := h.dispose hstill
  have hn := h.grounded.numbered
  have hdefs := habandons.follows.defs
  have h' := h.of_path (dispose_path hn)
  constructor
  case disposed => exact hdisposed
  case still => exact hlast
  case waiting =>
    intro c hc
    obtain ⟨index, hc⟩ := List.getElem?_of_mem hc
    obtain ⟨f, hf⟩ := h'.grounded.scheduled.exists_fsm hc
    rw [(h'.grounded.scheduled.sound index f c hf hc).waiting]
    exact countP_waiting_eq_zero (hlast.countP_eq_zero _)
  case accepted => exact h.accepted (dispose_path hn)
  case endTime => exact habandons.endTime
  case persisted =>
    intro s hs hlive
    rcases habandons.scenario s hs with hspared | habandoned
    · rw [hlast s hspared.mem] at hlive
      cases hlive
    · exact habandoned.persisted h h' hdefs
  case counts =>
    intro index f c hf hc
    obtain ⟨c', hc'⟩ := h'.grounded.scheduled.exists_schedule (hdefs ▸ hf)
    have hcounts := congrArg (fun counts => counts[index]?) habandons.counts
    simp only [List.getElem?_map, hc, hc', Option.map_some, Option.some.injEq,
      Prod.mk.injEq] at hcounts
    have hsound := (h.grounded.scheduled.sound index f c hf hc).created
    have hsound' := (h'.grounded.scheduled.sound index f c' (hdefs ▸ hf) hc').created
    rw [hlast.countP_eq_zero] at hsound'
    have hline : (r.line f).length = c.tracked.countP (r.holds Scenario.isLive) := by
      rw [← List.length_map (f := (·.id)), ← h.inLine.line_eq hf hc, List.countP_eq_length_filter]
      rfl
    exact ⟨c', hc', hcounts.1, hcounts.2, by omega⟩
  case spared =>
    intro s hs hdead
    rcases habandons.scenario s hs with hspared | habandoned
    · exact hspared
    · rw [habandoned.live] at hdead
      cases hdead
  case outside => exact habandons.outside
  case later => exact hlast.performAll hdisposed

/-- In every run of an accepted document on an empty store, whatever was called before and in whatever
order of their times the events came, ending the run abandons and records all that is live, and
nothing else happens then or later. -/
theorem dispose_concludes {d : DefinitionDocument} {defs : DefinitionSet} (h : d.compile = .ok defs)
    (settings : RunSettings) (time : Int64) :
    ∃ r, Run.start defs (Store.empty time) settings = .ok r ∧
      ∀ calls, Concludes (r.performAll calls) (r.performAll calls).dispose := by
  obtain ⟨r, hstart, hfresh, hground⟩ := exists_grounded h settings time
  refine ⟨r, hstart, fun calls => ?_⟩
  obtain ⟨horderly, hstill⟩ := (hfresh.orderly hground).performAll
    (fun hdisposed => nomatch hfresh.disposed.symm.trans hdisposed) calls
  exact horderly.concludes hstill

theorem dispose_concludes_sample :
    ∃ defs r, DefinitionDocument.sample.compile = .ok defs ∧
      Run.start defs (Store.empty 0) {} = .ok r ∧
      ∀ event, Concludes (r.onEvent event) (r.onEvent event).dispose := by
  obtain ⟨defs, hcompile⟩ := DefinitionDocument.exists_compile_sample
  obtain ⟨r, hstart, hconcludes⟩ := dispose_concludes hcompile {} 0
  exact ⟨defs, r, hcompile, hstart, fun event => hconcludes [.event event]⟩

end Concluded

end Run

end TraceAutomata
