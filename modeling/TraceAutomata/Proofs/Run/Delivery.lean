import TraceAutomata.Proofs.Run.Feeding

/-!
An event is delivered exactly once. When it is dispatched, the fsms are visited in the order of the
definition, and each of them hands it to the scenarios that are in its line when the visit begins,
in the order in which they were started, except to those that have been handed it already and those
for which the preconditions of the fsm fail.
-/

namespace TraceAutomata.Run

/-- The moments hand the event to scenarios that have not noted it, each without delay. -/
structure Feeds (event : Event) (r : Run) (ms : List Moment) (r' : Run) : Prop where
  path : Path (some event) r ms r'
  prompt : Prompt ms
  delivered : ∀ already, Delivered already r → Delivered (already ++ fed ms) r'

section Feeding

variable {event : Event} {r r' r'' : Run} {ms ms' : List Moment}

theorem Feeds.nil (event : Event) (r : Run) : Feeds event r [] r where
  path := .nil r
  prompt := trivial
  delivered already h := (List.append_nil already).symm ▸ h

theorem Feeds.append (h : Feeds event r ms r') (h' : Feeds event r' ms' r'') :
    Feeds event r (ms ++ ms') r'' where
  path := h.path.append h'.path
  prompt := h.prompt.append h'.prompt
  delivered already hr := by
    rw [fed_append, ← List.append_assoc]
    exact h'.delivered _ (h.delivered already hr)

theorem Nested.feeds (h : Nested ms) (path : Path (some event) r ms r') (hn : r.Numbered) :
    Feeds event r ms r' :=
  ⟨path, h.prompt, fun _ hr => (h.delivered path hn hr).1⟩

/-- A scenario is handed the event, and only scenarios that it starts are handed it meanwhile. -/
theorem handle_feeds (event : Event) (hstaffed : r.Staffed) {s : Scenario}
    (hs : r.scenario? s.id = some s) (hlive : s.isLive = true)
    (hnew : s.lastEvent ≠ some r.received) :
    Feeds event r (handleMoments (spawnOn event) (spawnOnMoments event) event s.id r)
        (handle (spawnOn event) event s.id r) ∧
      ∃ others, fed (handleMoments (spawnOn event) (spawnOnMoments event) event s.id r) =
        s.id :: others ∧ ∀ id ∈ others, r.created < id := by
  have hn := hstaffed.numbered
  have hpath := (handle_passage (spawnOn_passage event) hn s.id).path
  obtain ⟨f, ms, heq, hms⟩ := handle_nested (spawnOn_passage event)
    (fun r index parent hstaffed => launch_nested _ parent hstaffed index)
    hstaffed hs hlive hnew
  rw [heq] at hpath ⊢
  have hdelivered : ∀ already, Delivered already r →
      Delivered (already ++ s.id :: fed ms) (handle (spawnOn event) event s.id r) ∧
        ∀ id ∈ fed ms, r.created < id := fun already h =>
    hms.delivered_handled hpath hn h fun hid =>
      hnew ((h.noted s (mem_of_scenario? hs)).mpr hid)
  obtain ⟨already, h⟩ := exists_delivered hn
  refine ⟨⟨hpath, ⟨⟨_, rfl, f, s, rfl, rfl⟩, trivial, hms.prompt⟩, fun already h => ?_⟩,
    fed ms, fed_cons_handle ms, (hdelivered already h).2⟩
  exact (hdelivered already h).1

end Feeding

/-- The scenarios of a line take their turns. One that has been handed the event before the visit,
or for which the preconditions of the fsm fail at its turn, is passed over; every other one is
handed the event, and meanwhile only scenarios that are started are handed it. -/
inductive Turns (event : Event) (f : FsmDefinition) (already : List ScenarioId) :
    List Scenario → Run → List Moment → Run → Prop
  | done (r : Run) : Turns event f already [] r [] r
  | skip {s : Scenario} {line : List Scenario} {r r' : Run} {ms : List Moment}
      (h : s.id ∈ already ∨
        r.defs.preconditionsPass (r.context s.name event) f.preconditions = false)
      (rest : Turns event f already line r ms r') : Turns event f already (s :: line) r ms r'
  | feed {s : Scenario} {line : List Scenario} {r r' : Run} {others : List ScenarioId}
      {ms : List Moment} (hs : r.scenario? s.id = some s) (hnew : s.id ∉ already)
      (hpass : r.defs.preconditionsPass (r.context s.name event) f.preconditions = true)
      (hfed : fed (handleMoments (spawnOn event) (spawnOnMoments event) event s.id r) =
        s.id :: others)
      (hothers : ∀ id ∈ others, r.created < id)
      (rest : Turns event f already line (handle (spawnOn event) event s.id r) ms r') :
      Turns event f already (s :: line) r
        (handleMoments (spawnOn event) (spawnOnMoments event) event s.id r ++ ms) r'

section Offers

variable {event : Event} {f : FsmDefinition} {already : List ScenarioId} {r : Run}
  {s : Scenario}

theorem offer_of_skip (hs : r.scenario? s.id = some s)
    (h : s.lastEvent = some r.received ∨
      r.defs.preconditionsPass (r.context s.name event) f.preconditions = false) :
    offerMoments f event r s.id = [] ∧ offer f event r s.id = r := by
  rw [offerMoments, offer, hs]
  rcases h with h | h
  · simp [h]
  · simp [h]

theorem offer_of_feed (hs : r.scenario? s.id = some s) (hlive : s.isLive = true)
    (hnew : s.lastEvent ≠ some r.received)
    (hpass : r.defs.preconditionsPass (r.context s.name event) f.preconditions = true) :
    offerMoments f event r s.id =
        handleMoments (spawnOn event) (spawnOnMoments event) event s.id r ∧
      offer f event r s.id = handle (spawnOn event) event s.id r := by
  rw [offerMoments, offer, hs]
  simp [hlive, hnew, hpass]

/-- The induction is on the line. Those in it that are still to come keep their records, and none
of them is among those that have been handed the event since the visit began. -/
theorem turns_of_offers (event : Event) (f : FsmDefinition) (line : List Scenario)
    (since : List ScenarioId) (hstaffed : r.Staffed) (h : Delivered (already ++ since) r)
    (hline : ∀ s ∈ line, r.scenario? s.id = some s ∧ s.isLive = true ∧ s.id ∉ since)
    (hinc : line.Pairwise fun s s' => s.id < s'.id) :
    Turns event f already line r
        (foldMoments (offer f event) (offerMoments f event) r (line.map (·.id)))
        ((line.map (·.id)).foldl (offer f event) r) ∧
      Feeds event r (foldMoments (offer f event) (offerMoments f event) r (line.map (·.id)))
        ((line.map (·.id)).foldl (offer f event) r) := by
  induction line generalizing r since with
  | nil => exact ⟨.done r, .nil event r⟩
  | cons s line ih =>
      obtain ⟨⟨hs, hlive, hsince⟩, hrest⟩ := List.forall_mem_cons.mp hline
      obtain ⟨hless, hinc⟩ := List.pairwise_cons.mp hinc
      have hnoted : s.lastEvent = some r.received ↔ s.id ∈ already := by
        rw [h.noted s (mem_of_scenario? hs), List.mem_append, or_iff_left hsince]
      rw [List.map_cons, foldMoments, List.foldl_cons]
      by_cases hskip : s.id ∈ already ∨
          r.defs.preconditionsPass (r.context s.name event) f.preconditions = false
      · obtain ⟨hnone, hsame⟩ := offer_of_skip hs (hskip.imp_left hnoted.mpr)
        obtain ⟨hturns, hfeeds⟩ := ih since hstaffed h hrest hinc
        rw [hnone, hsame, List.nil_append]
        exact ⟨.skip hskip hturns, hfeeds⟩
      · rw [not_or, Bool.not_eq_false] at hskip
        obtain ⟨hnew, hpass⟩ := hskip
        have hnew' := fun hlast => hnew (hnoted.mp hlast)
        obtain ⟨hmoments, hnext⟩ := offer_of_feed hs hlive hnew' hpass
        obtain ⟨hfirst, others, hfed, hothers⟩ := handle_feeds event hstaffed hs hlive hnew'
        have hkeeps := (handle_passage (spawnOn_passage event) hstaffed.numbered s.id).keeps
        have hdelivered := hfirst.delivered _ h
        rw [List.append_assoc] at hdelivered
        rw [hfed] at hdelivered
        have hrest' : ∀ x ∈ line, (handle (spawnOn event) event s.id r).scenario? x.id = some x ∧
            x.isLive = true ∧ x.id ∉ since ++ s.id :: others := by
          intro x hx
          obtain ⟨hx', hxlive, hxsince⟩ := hrest x hx
          have hxle := hstaffed.numbered.le_created x (mem_of_scenario? hx')
          have hxne : x.id ≠ s.id := (Nat.ne_of_lt (hless x hx)).symm
          refine ⟨?_, hxlive, ?_⟩
          · rw [hkeeps.scenario? x.id hxle fun heq => hxne (Option.some.inj heq)]
            exact hx'
          · rw [List.mem_append, List.mem_cons]
            rintro (hmem | heq | hmem)
            · exact hxsince hmem
            · exact hxne heq
            · exact Nat.not_lt_of_le hxle (hothers x.id hmem)
        obtain ⟨hturns, hfeeds⟩ := ih _ (.of_path hfirst.path hstaffed) hdelivered hrest' hinc
        rw [hmoments, hnext]
        exact ⟨.feed hs hnew hpass hfed hothers hturns, hfirst.append hfeeds⟩

end Offers

/-- The run when the scenarios of an fsm that have been started have joined its line, and those that
have ended have left it. -/
def lined (r : Run) (index : Nat) : Run :=
  (r.modifyFsm index FsmSchedule.mergePending).retire index

/-- The fsms are visited one after the other. In each visit the scenarios take their turns that are
in line when it begins. -/
inductive Passes (event : Event) : List Nat → List ScenarioId → Run → List Moment → Run → Prop
  | done (already : List ScenarioId) (r : Run) : Passes event [] already r [] r
  | pass {index : Nat} {indices : List Nat} {already : List ScenarioId} {f : FsmDefinition}
      {r next r' : Run} {ms ms' : List Moment} (hf : r.defs.fsms[index]? = some f)
      (turns : Turns event f already (r.line f) (r.lined index) ms next)
      (rest : Passes event indices (already ++ fed ms) next ms' r') :
      Passes event (index :: indices) already r
        (⟨r, some event, .merge index⟩ ::
          ⟨r.modifyFsm index FsmSchedule.mergePending, some event, .retire index⟩ :: (ms ++ ms'))
        r'

section Visits

variable {event : Event} {r : Run} {index : Nat} {f : FsmDefinition}

theorem getElem?_merged {c : FsmSchedule} (hc : r.fsms[index]? = some c) :
    (r.modifyFsm index FsmSchedule.mergePending).fsms[index]? = some c.mergePending := by
  rw [modifyFsm, List.getElem?_modify, hc]
  simp

theorem getElem?_lined {c : FsmSchedule} (hc : r.fsms[index]? = some c) :
    (r.lined index).fsms[index]? =
      some { c with active := c.tracked.filter r.isLive, pending := [] } :=
  getElem?_retire (getElem?_merged hc)

theorem InLine.scenario?_lined (h : r.InLine) (hf : r.defs.fsms[index]? = some f) {s : Scenario}
    (hs : s ∈ r.line f) : (r.lined index).scenario? s.id = some s := by
  obtain ⟨c, hc⟩ := h.staffed.scheduled.exists_schedule hf
  obtain ⟨hmem, -, hlive⟩ := mem_line.mp hs
  have hkept : (r.lined index).scenario? s.id = r.scenario? s.id :=
    scenario?_retire (getElem?_merged hc) ((h.staffed.numbered.isLive_of_mem hmem).trans hlive)
  exact hkept.trans (h.staffed.numbered.scenario?_of_mem hmem)

theorem InLine.visit_eq (h : r.InLine) (event : Event) (hf : r.defs.fsms[index]? = some f) :
    visitMoments event r index =
        ⟨r, some event, .merge index⟩ ::
          ⟨r.modifyFsm index FsmSchedule.mergePending, some event, .retire index⟩ ::
          foldMoments (offer f event) (offerMoments f event) (r.lined index)
            ((r.line f).map (·.id)) ∧
      visit event r index = ((r.line f).map (·.id)).foldl (offer f event) (r.lined index) := by
  obtain ⟨c, hc⟩ := h.staffed.scheduled.exists_schedule hf
  have hlined := getElem?_lined hc
  have hdefs : (r.lined index).defs.fsms[index]? = some f := by
    rw [lined, (follows_retire _ index).defs]
    exact hf
  rw [h.line_eq hf hc] at hlined
  rw [lined] at hlined hdefs ⊢
  constructor
  · simp only [visitMoments, hdefs, hlined, List.cons_append, List.nil_append]
  · simp only [visit, hdefs, hlined]

theorem fed_lined (ms : List Moment) :
    fed (⟨r, some event, .merge index⟩ ::
      ⟨r.modifyFsm index FsmSchedule.mergePending, some event, .retire index⟩ :: ms) = fed ms :=
  rfl

theorem passes_of_visits (event : Event) {indices : List Nat} {already : List ScenarioId}
    (h : r.InLine) (hindices : ∀ index ∈ indices, index < r.defs.fsms.length)
    (hr : Delivered already r) :
    Passes event indices already r (foldMoments (visit event) (visitMoments event) r indices)
        (indices.foldl (visit event) r) ∧
      Feeds event r (foldMoments (visit event) (visitMoments event) r indices)
        (indices.foldl (visit event) r) := by
  induction indices generalizing r already with
  | nil => exact ⟨.done already r, .nil event r⟩
  | cons index indices ih =>
      obtain ⟨hindex, hrest⟩ := List.forall_mem_cons.mp hindices
      have hf := List.getElem?_eq_getElem hindex
      have hn := h.staffed.numbered
      have hmerge : Move ⟨r, some event, .merge index⟩ _ := .merge
      have hretire : Move ⟨_, some event, .retire index⟩ (r.lined index) := .retire
      have hbegin : Feeds event r _ (r.lined index) :=
        (Nested.of_idle (by simp [Moment.Idle])).feeds (.cons hmerge (.single hretire)) hn
      have hlined := InLine.of_path hbegin.path h
      have hdelivered := hbegin.delivered already hr
      obtain ⟨hturns, hfeeds⟩ := turns_of_offers event r.defs.fsms[index]
        (r.line r.defs.fsms[index]) [] hlined.staffed hdelivered
        (fun s hs => ⟨h.scenario?_lined hf hs, (mem_line.mp hs).2.2, List.not_mem_nil⟩)
        (pairwise_line hn _)
      obtain ⟨hmoments, hvisit⟩ := h.visit_eq event hf
      have hvisited : Feeds event r (visitMoments event r index) (visit event r index) := by
        rw [hmoments, hvisit]
        exact hbegin.append hfeeds
      have hnext := hvisited.delivered already hr
      rw [foldMoments, List.foldl_cons]
      obtain ⟨hpasses, hfeeds'⟩ := ih (InLine.of_path hvisited.path h)
        (fun i hi => hvisited.path.follows.defs ▸ hrest i hi) hnext
      refine ⟨?_, hvisited.append hfeeds'⟩
      rw [hmoments] at hpasses ⊢
      rw [fed_lined, hvisit] at hpasses
      rw [hvisit]
      exact .pass hf hturns hpasses

end Visits

/-- The run when an event has been noted and the scenarios that are due have been started. -/
def readied (r : Run) (event : Event) : Run :=
  (List.range (r.arrived event).opened.fsms.length).foldl startDue (r.arrived event).opened

def readyMoments (r : Run) (event : Event) : List Moment :=
  ⟨r, some event, .arrive⟩ ::
    ((if (r.arrived event).begun then [] else beginMoments event (r.arrived event)) ++
      foldMoments startDue (startDueMoments event) (r.arrived event).opened
        (List.range (r.arrived event).opened.fsms.length))

/-- Whether the preconditions of the pattern hold on an event. -/
def dispatches (r : Run) (event : Event) : Bool :=
  r.defs.preconditionsPass (r.context "" event) r.defs.preconditions

/-- An event is delivered exactly once. -/
structure DeliversOnce (r : Run) (event : Event) : Prop where
  path : Path (some event) r (r.onEventMoments event) (r.onEvent event)
  /-- It is handed to no scenario twice, however the scenario was started. -/
  once : (fed (r.onEventMoments event)).Nodup
  /-- Of the scenarios that are remembered, those have noted it that it was handed to. -/
  noted : ∀ s ∈ (r.onEvent event).scenarios,
    s.lastEvent = some (r.onEvent event).received ↔ s.id ∈ fed (r.onEventMoments event)
  /-- A scenario that an action starts is handed it without delay. -/
  prompt : Prompt (r.onEventMoments event)
  ready : Path (some event) r (r.readyMoments event) (r.readied event)
  /-- Nothing is handed out before the event is dispatched. -/
  unfed : fed (r.readyMoments event) = []
  passes : (r.readied event).dispatches event = true →
    ∃ ms, r.onEventMoments event = r.readyMoments event ++ ms ∧
      Passes event (List.range r.defs.fsms.length) [] (r.readied event) ms (r.onEvent event)
  undispatched : (r.readied event).dispatches event = false →
    fed (r.onEventMoments event) = []

theorem forall_mem_foldMoments {α : Type} {P : Moment → Prop} {f : Run → α → Run}
    {moments : Run → α → List Moment} (h : ∀ r a, ∀ m ∈ moments r a, P m) (r : Run)
    (list : List α) : ∀ m ∈ foldMoments f moments r list, P m := by
  induction list generalizing r with
  | nil => exact List.forall_mem_nil _
  | cons a rest ih => exact List.forall_mem_append.mpr ⟨h r a, ih (f r a)⟩

section Events

variable {event : Event} {r : Run}

theorem beginMoments_idle (event : Event) (r : Run) : ∀ m ∈ beginMoments event r, m.Idle := by
  refine List.forall_mem_cons.mpr ⟨trivial, forall_mem_foldMoments (fun r id => ?_) _ _⟩
  split
  · exact List.forall_mem_cons.mpr ⟨trivial, launchRoot_idle event _ _⟩
  · exact List.forall_mem_nil _

theorem startDueMoments_idle (event : Event) (r : Run) (index : Nat) :
    ∀ m ∈ startDueMoments event r index, m.Idle := by
  rw [startDueMoments]
  split
  · split
    · exact List.forall_mem_cons.mpr ⟨trivial, launchRoot_idle event _ _⟩
    · exact List.forall_mem_nil _
  · exact List.forall_mem_nil _

theorem onEvent_of_dispatches (h : r.disposed = false)
    (hdispatch : (r.readied event).dispatches event = true) :
    r.onEventMoments event = r.readyMoments event ++
        foldMoments (visit event) (visitMoments event) (r.readied event)
          (List.range (r.arrived event).opened.fsms.length) ∧
      r.onEvent event =
        (List.range (r.arrived event).opened.fsms.length).foldl (visit event)
          (r.readied event) := by
  rw [dispatches, readied] at hdispatch
  rw [onEventMoments, onEvent_eq event h, if_neg (by simp [h])]
  simp only [hdispatch, if_true]
  exact ⟨rfl, rfl⟩

theorem onEvent_of_not_dispatches (h : r.disposed = false)
    (hdispatch : (r.readied event).dispatches event = false) :
    r.onEventMoments event = r.readyMoments event ++ [] ∧
      r.onEvent event = r.readied event := by
  rw [dispatches, readied] at hdispatch
  rw [onEventMoments, onEvent_eq event h, if_neg (by simp [h])]
  simp only [hdispatch, Bool.false_eq_true, if_false]
  exact ⟨rfl, rfl⟩

theorem Noted.delivered (h : r.Noted) (event : Event) : Delivered [] (r.arrived event) := by
  refine ⟨List.nodup_nil, List.forall_mem_nil _, fun s hs => ?_⟩
  refine ⟨fun hlast => ?_, fun hid => (List.not_mem_nil hid).elim⟩
  exact (Nat.not_succ_le_self _ (h s hs _ hlast)).elim

theorem InLine.ready (h : r.InLine) (hdisposed : r.disposed = false) (event : Event) :
    ∃ ms, r.readyMoments event = ⟨r, some event, .arrive⟩ :: ms ∧ (∀ m ∈ ms, m.Idle) ∧
      (r.arrived event).InLine ∧ Path (some event) (r.arrived event) ms (r.readied event) := by
  have harrive : Move ⟨r, some event, .arrive⟩ (r.arrived event) := .arrive hdisposed
  have harrived := h.move harrive
  have hopened := opened_path harrived.staffed.numbered event
  have hdue := Path.fold (List.range (r.arrived event).opened.fsms.length)
    (fun r' index _ hr' _ => startDue_path hr' event index)
    (hopened.follows.numbered harrived.staffed.numbered)
  refine ⟨_, rfl, List.forall_mem_append.mpr ⟨?_, ?_⟩, harrived, hopened.append hdue⟩
  · split
    · exact List.forall_mem_nil _
    · exact beginMoments_idle event _
  · exact forall_mem_foldMoments (startDueMoments_idle event) _ _

theorem InLine.length_opened (h : (r.arrived event).InLine) :
    (r.arrived event).opened.fsms.length = r.defs.fsms.length := by
  have hopened := opened_path h.staffed.numbered event
  rw [(Staffed.of_path hopened h.staffed).scheduled.length, hopened.follows.defs]
  rfl

theorem InLine.dispatch (h : (r.readied event).InLine) (hdisposed : r.disposed = false)
    (hdefs : (r.readied event).defs = r.defs)
    (hlength : (r.arrived event).opened.fsms.length = r.defs.fsms.length)
    (hdelivered : Delivered [] (r.readied event)) :
    ∃ ms, r.onEventMoments event = r.readyMoments event ++ ms ∧
      Feeds event (r.readied event) ms (r.onEvent event) ∧
      ((r.readied event).dispatches event = true →
        Passes event (List.range r.defs.fsms.length) [] (r.readied event) ms (r.onEvent event)) ∧
      ((r.readied event).dispatches event = false → ms = []) := by
  cases hdispatch : (r.readied event).dispatches event with
  | true =>
      obtain ⟨hmoments, hevent⟩ := onEvent_of_dispatches hdisposed hdispatch
      rw [hlength] at hmoments hevent
      obtain ⟨hpasses, hfeeds⟩ := passes_of_visits event h
        (fun index hindex => hdefs ▸ List.mem_range.mp hindex) hdelivered
      rw [hmoments, hevent]
      exact ⟨_, rfl, hfeeds, fun _ => hpasses, nofun⟩
  | false =>
      obtain ⟨hmoments, hevent⟩ := onEvent_of_not_dispatches hdisposed hdispatch
      rw [hmoments, hevent]
      exact ⟨[], rfl, .nil event _, nofun, fun _ => rfl⟩

theorem InLine.deliversOnce (h : r.InLine) (hdisposed : r.disposed = false) (event : Event) :
    r.DeliversOnce event := by
  obtain ⟨before, hready, hidle, harrived, hpath⟩ := h.ready hdisposed event
  have hnested := Nested.of_idle hidle
  have hfeeds := hnested.feeds hpath harrived.staffed.numbered
  have hdelivered := hfeeds.delivered [] (h.noted.delivered event)
  have hnone := fed_eq_nil hidle
  rw [hnone, List.append_nil] at hdelivered
  have hunfed : fed (r.readyMoments event) = [] := hready ▸ hnone
  obtain ⟨ms, hmoments, hrest, hpasses, hstop⟩ := InLine.dispatch (InLine.of_path hpath harrived)
    hdisposed hpath.follows.defs harrived.length_opened hdelivered
  have hfed : fed (r.onEventMoments event) = fed ms := by
    rw [hmoments, fed_append, hunfed, List.nil_append]
  have hlast := hrest.delivered [] hdelivered
  rw [List.nil_append, ← hfed] at hlast
  constructor
  case path => exact onEvent_path h.staffed.numbered event
  case once => exact hlast.nodup
  case noted => exact hlast.noted
  case prompt =>
    rw [hmoments, hready]
    exact ⟨trivial, hnested.prompt.append hrest.prompt⟩
  case ready => exact hready ▸ .cons (.arrive hdisposed) hpath
  case unfed => exact hunfed
  case passes => exact fun hdispatch => ⟨ms, hmoments, hpasses hdispatch⟩
  case undispatched =>
    intro hdispatch
    rw [hfed, hstop hdispatch]
    rfl

end Events

/-- In every run of an accepted document, whatever was called before, each event that arrives before
the run ends is delivered exactly once. -/
theorem delivers_once {d : DefinitionDocument} {defs : DefinitionSet}
    (h : d.compile = .ok defs) (settings : RunSettings) (time : Int64) :
    ∃ r, Run.start defs (Store.empty time) settings = .ok r ∧
      ∀ calls event, (r.performAll calls).disposed = false →
        (r.performAll calls).DeliversOnce event := by
  obtain ⟨r, hstart, hfresh, hground⟩ := exists_grounded h settings time
  refine ⟨r, hstart, fun calls event hdisposed => ?_⟩
  have htrace := performAll_trace hfresh.numbered calls
  have hinline := (htrace.invariant (fun _ _ _ move => InLine.move move)
    (hfresh.inLine hground)).1
  exact hinline.deliversOnce hdisposed event

/-- A job that is handed an event has started a task, and this one another task; when the job is turned,
a task that is due has been started, which starts two more. -/
theorem delivers_once_sample :
    let calls : List Call := [.event ⟨⟨1, 0⟩, "noise", ∅, none⟩]
    let first : Event := ⟨⟨2, 0⟩, "begin", ∅, none⟩
    let second : Event := ⟨⟨3, 0⟩, "turn", ∅, none⟩
    ∃ defs r, DefinitionDocument.nested.compile = .ok defs ∧
      Run.start defs (Store.empty 0) { spawnLimit := 2 } = .ok r ∧
      (r.performAll calls).disposed = false ∧
      fed ((r.performAll calls).onEventMoments first) = [1, 2, 3] ∧
      (r.performAll calls).DeliversOnce first ∧
      (r.performAll (calls ++ [.event first])).disposed = false ∧
      fed ((r.performAll (calls ++ [.event first])).onEventMoments second) = [1, 2, 3, 4, 5, 6] ∧
      (r.performAll (calls ++ [.event first])).DeliversOnce second := by
  intro calls first second
  obtain ⟨defs, r, hcompile, hstart, hcheck⟩ :=
    DefinitionDocument.nested.exists_of_checks { spawnLimit := 2 } 0
      (fun _ r => decide ((r.performAll calls).disposed = false ∧
        fed ((r.performAll calls).onEventMoments first) = [1, 2, 3] ∧
        (r.performAll (calls ++ [.event first])).disposed = false ∧
        fed ((r.performAll (calls ++ [.event first])).onEventMoments second) =
          [1, 2, 3, 4, 5, 6])) (by decide +kernel)
  obtain ⟨hlive, hfed, hlive', hfed'⟩ := of_decide_eq_true hcheck
  obtain ⟨r', hstart', hdelivers⟩ := delivers_once hcompile { spawnLimit := 2 } 0
  obtain rfl : r = r' := Except.ok.inj (hstart.symm.trans hstart')
  exact ⟨defs, r, hcompile, hstart, hlive, hfed, hdelivers _ _ hlive, hlive', hfed',
    hdelivers _ _ hlive'⟩

end TraceAutomata.Run
