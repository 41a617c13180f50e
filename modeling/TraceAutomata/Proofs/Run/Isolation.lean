import TraceAutomata.Proofs.Run.Concern
import TraceAutomata.Proofs.Run.Lineage
import TraceAutomata.Proofs.Run.Lookup
import TraceAutomata.Proofs.Run.Subject

namespace TraceAutomata

namespace AttributePath

theorem segmentNames_ne_nil {ctx : GuardContext} {segment : PathSegment} {names : List String}
    (h : segmentNames ctx segment = .ok names) : names ≠ [] := by
  cases segment with
  | name name =>
      obtain rfl := Except.ok.inj h
      exact List.cons_ne_nil _ _
  | field field =>
      rw [segmentNames] at h
      obtain ⟨name, -, h⟩ := bind_eq_ok_iff.mp h
      obtain rfl := Except.ok.inj h
      exact List.cons_ne_nil _ _
  | query path =>
      rw [segmentNames] at h
      obtain ⟨names, -, h⟩ := bind_eq_ok_iff.mp h
      obtain ⟨value, -, h⟩ := bind_eq_ok_iff.mp h
      split at h
      · obtain rfl := Except.ok.inj h
        exact List.cons_ne_nil _ _
      · cases h
  | scenario =>
      obtain rfl := Except.ok.inj h
      exact List.cons_ne_nil _ _

theorem names_ne_nil {ctx : GuardContext} {path : AttributePath} {names : List String}
    (h : AttributePath.names ctx path = .ok names) (hpath : path ≠ []) : names ≠ [] := by
  cases path with
  | nil => exact (hpath rfl).elim
  | cons segment rest =>
      rw [AttributePath.names] at h
      obtain ⟨first, hfirst, h⟩ := bind_eq_ok_iff.mp h
      obtain ⟨others, -, h⟩ := bind_eq_ok_iff.mp h
      obtain rfl := Except.ok.inj h
      exact List.append_ne_nil_of_left_ne_nil (segmentNames_ne_nil hfirst) others

end AttributePath

def DefinitionSet.GivesPaths (d : DefinitionSet) : Prop :=
  ∀ id ops path value, d.action id = .ok ops → Operation.stateChange path value ∈ ops → path ≠ []

namespace Run

/-- The path leads inside the attribute of a scenario that a call is about, or of one that is started
meanwhile. -/
def Touches (own : ScenarioId → Prop) (r r' : Run) (p : List String) : Prop :=
  ∃ name, Store.Inside (r.pathOf name) p ∧
    ((∃ s ∈ r.scenarios, own s.id ∧ s.name = name) ∨ ¬ r.Started name ∧ r'.Started name)

/-- What lies between the two runs has changed the store for some scenarios only. -/
structure Confined (own : ScenarioId → Prop) (r r' : Run) : Prop where
  descends : Descends r r'
  within : r.store.Within (Touches own r r') r'.store

theorem Confined.refl {own : ScenarioId → Prop} {r : Run} (t : r.store.Tree) : Confined own r r :=
  ⟨.refl t, .refl t _⟩

section Acts

variable {m : Moment} {r r' : Run} {own P : ScenarioId → Prop}

theorem Alters.subject (h : m.run.Rooted) {s s' : Scenario} {groups : List (List Write)}
    (hs : s ∈ m.run.scenarios) (halters : Alters m s s' groups) (habout : m.About P) : P s.id := by
  have hscope : ∀ x, m.run.scenario? x.id = some x → x.scope = s.scope → P x.id → P s.id := by
    intro x hx heq hid
    rw [← h.unique x (mem_of_scenario? hx) s hs (congrArg ActionScope.scenario heq)]
    exact hid
  cases halters with
  | receive _ => exact habout
  | change _ =>
      obtain ⟨x, hx, heq, hid⟩ := habout
      exact hscope x hx heq hid
  | save _ =>
      obtain ⟨x, hx, heq, hid⟩ := habout
      exact hscope x hx heq hid
  | enter _ _ _ _ => exact habout
  | cancel => exact habout

theorem Alters.path_ne_nil {s s' : Scenario} {groups : List (List Write)} (hlive : s.isLive = true)
    (halters : Alters m s s' groups) (hasked : m.Asked) (hpaths : m.run.defs.GivesPaths) :
    ∀ writes ∈ groups, ∀ w ∈ writes, w.path ≠ [] := by
  intro writes hwrites w hw
  cases halters.written hlive writes hwrites w hw with
  | state _ => exact List.cons_ne_nil _ _
  | status _ _ => exact List.cons_ne_nil _ _
  | entered _ => exact List.cons_ne_nil _ _
  | started => exact List.cons_ne_nil _ _
  | ended => exact List.cons_ne_nil _ _
  | slot _ _ => exact List.cons_ne_nil _ _
  | change names value hact =>
      rw [Moment.Asked, hact] at hasked
      obtain ⟨ctx, id, ops, path, source, haction, hop, hnames⟩ := hasked
      exact AttributePath.names_ne_nil hnames (hpaths id ops path source haction hop)

theorem Confined.move (h : Confined own r m.run) (hn : r.Numbered) (hrooted : m.run.Rooted)
    (hpaths : m.run.defs.GivesPaths) (habout : m.About fun id => own id ∨ r.created < id)
    (hasked : m.Asked) (move : Move m r') : Confined own r r' := by
  have hdescends := (hrooted.move move).2
  refine ⟨h.descends.trans hdescends, .trans (h.within.mono fun p hp => ?_) ?_⟩
  · obtain ⟨name, hinside, hname⟩ := hp
    exact ⟨name, hinside, hname.imp_right fun hnew => ⟨hnew.1, hdescends.started name hnew.2⟩⟩
  · cases Effect.of_move hrooted.staffed.numbered move with
    | quiet _ _ _ _ store =>
        rcases store with heq | ⟨-, time, heq⟩
        · rw [heq]
          exact .refl hrooted.tree _
        · rw [heq]
          exact Store.within_extendTo hrooted.tree _ time
    | alters s s' groups hs hlive halters _ _ _ store =>
        have hmem := mem_of_scenario? hs
        have htouches : (∃ x ∈ r.scenarios, own x.id ∧ x.name = s.name) ∨
            ¬ r.Started s.name ∧ r'.Started s.name := by
          cases h.descends.origin s hmem with
          | kept first hfirst card =>
              refine .inl ⟨first, hfirst, ?_, card.name.symm⟩
              have hle := hn.le_created first hfirst
              rw [← card.id] at hle ⊢
              exact (halters.subject hrooted hmem habout).resolve_right (Nat.not_lt_of_le hle)
          | started _ hname =>
              exact .inr ⟨hname, hdescends.started s.name (hrooted.started s hmem)⟩
        rw [store]
        refine History.recordAll_within hrooted.tree (hrooted.subtree s hmem)
          fun writes hwrites w hw => ⟨s.name, ?_, htouches⟩
        rw [h.descends.pathOf_eq]
        exact Store.inside_append _ (halters.path_ne_nil hlive hasked hpaths writes hwrites w hw)
    | admits index f c parent trigger subtree st _ _ hf hc hopen heq =>
        subst heq
        have hnew := not_started_next hrooted.staffed.wellFormed.nodup_ids hf hc
        refine (hrooted.within_admitted index parent _ hopen).2.mono fun p hp =>
          ⟨Scenario.nameOf f.id (c.created + 1), ?_, .inr ⟨?_, ?_⟩⟩
        · rw [← h.descends.pathOf_eq]
          exact hp
        · exact fun hold => hnew (h.descends.started _ hold)
        · exact (started_admitted hf hc).mpr (.inr rfl)
    | aborts index name error st _ hopen _ =>
        exact (hrooted.openScenario_ne_error name error st hopen).elim

/-- Acts that are about some scenarios, and about others that they start, change the store for these
only. -/
theorem Rooted.confined (h : r.Rooted) (hpaths : r.defs.GivesPaths) {ms : List Moment}
    (htrace : Trace r ms r') (habout : ∀ m ∈ ms, m.About fun id => own id ∨ r.created < id)
    (hasked : ∀ m ∈ ms, m.Asked) : Confined own r r' := by
  refine (htrace.invariant (I := fun q => q.Rooted ∧ Confined own r q ∧ q.defs = r.defs)
    (fun m hm q move hq => ?_) ⟨h, .refl h.tree, rfl⟩).1.2.1
  obtain ⟨hrooted, hconfined, hdefs⟩ := hq
  exact ⟨(hrooted.move move).1, hconfined.move h.staffed.numbered hrooted (hdefs ▸ hpaths)
    (habout m hm) (hasked m hm) move, move.follows.defs.trans hdefs⟩

end Acts

/-- Every attribute keeps its number, its path and its history, unless it lies inside the attribute of
a scenario that a call is about, or of one that is started meanwhile. New attributes elsewhere have no
history. -/
structure Isolated (own : ScenarioId → Prop) (r r' : Run) : Prop where
  lt_size : ∀ q < r.store.size, q < r'.store.size
  segments : ∀ q < r.store.size, r'.store.segments q = r.store.segments q
  resolve : ∀ q < r.store.size, r'.store.resolve Store.root (r.store.segments q) = .ok q
  history : ∀ q < r.store.size, ¬ Touches own r r' (r.store.segments q) →
    r'.store.history q = r.store.history q
  added : ∀ q < r'.store.size, r.store.size ≤ q → ¬ Touches own r r' (r'.store.segments q) →
    r'.store.history q = .ok []

theorem Confined.isolated {own : ScenarioId → Prop} {r r' : Run} (h : Confined own r r')
    (t : r.store.Tree) : Isolated own r r' := by
  have hextend := h.descends.extend
  constructor
  case lt_size => exact fun q hq => hextend.lt_size t hq
  case segments => exact fun q hq => hextend.segments t hq
  case resolve =>
    intro q hq
    rw [Store.resolve_eq_ok_iff]
    exact hextend.find? _ _ (t.find?_segments hq)
  case history =>
    intro q hq hout
    rw [t.history_eq hq, hextend.tree.history_eq (hextend.lt_size t hq), hextend.segments t hq,
      h.within.intervalsAt _ hout]
  case added =>
    intro q hq hle hout
    have hmissing : r.store.find? Store.root (r'.store.segments q) = none := by
      cases hfind : r.store.find? Store.root (r'.store.segments q) with
      | none => rfl
      | some c =>
          have hsame := (hextend.find? _ _ hfind).symm.trans (hextend.tree.find?_segments hq)
          obtain rfl := Option.some.inj hsame
          exact absurd (t.find?_lt hfind) (Nat.not_lt_of_le hle)
    rw [hextend.tree.history_eq hq, h.within.intervalsAt _ hout, Store.intervalsAt,
      Store.historyAt?, hmissing]
    rfl

/-- Every call changes the store for the scenarios that it is about, and for those that it starts. -/
structure Isolates (r : Run) : Prop where
  handle : ∀ event spawn, Spawning event spawn → ∀ id,
    Isolated (· = id) r (handle spawn event id r)
  launch : ∀ budget parent trigger index,
    Isolated (fun _ => False) r (launch budget parent trigger r index)
  cancel : ∀ id, Isolated (· = id) r (r.cancel id).1
  dispose : Isolated (fun id => r.isLive id = true) r r.dispose

section Calls

variable {r r' : Run}

theorem Spawning.exists_tends {event : Event} {spawn : Spawn} (h : Spawning event spawn) :
    ∃ spawned : Run → Nat → String → List Moment,
      (∀ r index parent, r.Numbered →
        Passage event none r (spawned r index parent) (spawn r index parent)) ∧
      ∀ r index parent, r.Numbered → Tends none 0 r.created (spawned r index parent) := by
  cases h with
  | handed =>
      exact ⟨_, fun r index parent hn => launch_passage (.inr rfl) _ _ hn index,
        fun r index parent hn => launch_tends (.inr rfl) _ _ hn index⟩
  | nested budget =>
      exact ⟨_, fun r index parent hn => launch_passage (.inr rfl) budget _ hn index,
        fun r index parent hn => launch_tends (.inr rfl) budget _ hn index⟩

theorem exists_trigger (trigger : Option Event) :
    ∃ event, trigger = none ∨ trigger = some event := by
  cases trigger with
  | none => exact ⟨⟨⟨0, 0⟩, "", ∅, none⟩, .inl rfl⟩
  | some event => exact ⟨event, .inr rfl⟩

theorem about_of_path {first : Run} (hfirst : first.Numbered) {ms : List Moment}
    (hpath : Path none r ms r') (hn : r.Numbered) (hforward : MovesForward first r) :
    ∀ m ∈ ms, (m.About fun id => first.isLive id = true ∨ first.created < id) ∧ m.Asked := by
  induction hpath with
  | nil r => exact List.forall_mem_nil _
  | cons move _ ih =>
      refine List.forall_mem_cons.mpr ⟨?_, ih (move.follows.numbered hn)
        (hforward.trans (.of_move hn move))⟩
      cases move with
      | @cancel r s hs hlive =>
          refine ⟨?_, trivial⟩
          by_cases hle : s.id ≤ first.created
          · obtain ⟨x, hx, card, hreaches⟩ := hforward.reaches s (mem_of_scenario? hs) hle
            refine .inl ?_
            rw [card.id, isLive, hfirst.scenario?_of_mem hx, Option.any_some]
            by_contra hdead
            have hterminal : x.status.isTerminal = true := by simpa [Scenario.isLive] using hdead
            rw [Scenario.isLive, hreaches.eq_of_isTerminal hterminal, hterminal] at hlive
            cases hlive
          · exact .inr (Nat.lt_of_not_le hle)
      | dispose => exact ⟨trivial, trivial⟩

theorem Rooted.isolates (h : r.Rooted) (hpaths : r.defs.GivesPaths) : r.Isolates := by
  have hn := h.staffed.numbered
  constructor
  case handle =>
    intro event spawn hspawning id
    obtain ⟨spawned, hspawn, htends⟩ := hspawning.exists_tends
    have hhandle := handle_tends hspawn htends hn id
    refine (h.confined hpaths (handle_passage hspawn hn id).path.trace (fun m hm => ?_)
      hhandle.asked).isolated h.tree
    exact (hhandle.about m hm).mono fun x => Or.imp_left fun heq => (Option.some.inj heq).symm
  case launch =>
    intro budget parent trigger index
    obtain ⟨event, htrigger⟩ := exists_trigger trigger
    have hlaunch := launch_tends htrigger budget parent hn index
    refine (h.confined hpaths (launch_passage htrigger budget parent hn index).path.trace
      (fun m hm => ?_) hlaunch.asked).isolated h.tree
    exact (hlaunch.about m hm).mono fun x => Or.imp_left fun heq => nomatch heq
  case cancel =>
    intro id
    have habout : ∀ m ∈ r.cancelMoments id,
        (m.About fun x => x = id ∨ r.created < x) ∧ m.Asked := by
      rw [cancelMoments]
      split
      · next s hs =>
        exact List.forall_mem_singleton.mpr ⟨.inl (scenario?_of_filter hs).1, trivial⟩
      · exact List.forall_mem_nil _
    exact (h.confined hpaths (cancel_path r id).trace (fun m hm => (habout m hm).1)
      fun m hm => (habout m hm).2).isolated h.tree
  case dispose =>
    have habout := about_of_path hn (dispose_path hn) hn .refl
    exact (h.confined hpaths (dispose_path hn).trace (fun m hm => (habout m hm).1)
      fun m hm => (habout m hm).2).isolated h.tree

/-- In every run of an accepted document, whatever the store has held before, no two scenarios have
the same name or share an attribute, and every call changes the store for its own scenarios only. -/
theorem scenarios_isolated {d : DefinitionDocument} {defs : DefinitionSet}
    (h : d.compile = .ok defs) {store : Store} (t : store.Tree) {settings : RunSettings} {r : Run}
    (hstart : Run.start defs store settings = .ok r) (calls : List Call) :
    (∀ id, 1 ≤ id → id ≤ (r.performAll calls).created →
        ∃ q ∈ r.runs calls, ∃ s ∈ q.scenarios, s.id = id) ∧
      (∀ q ∈ r.runs calls, ∀ q' ∈ r.runs calls, Apart q q') ∧
      ∀ q ∈ r.runs calls, q.Isolates := by
  have hrooted := start_rooted h t hstart
  have hn := hrooted.staffed.numbered
  have htrace := performAll_trace hn calls
  obtain ⟨-, hall⟩ := hrooted.of_trace htrace
  have hpaths : defs.GivesPaths := fun id ops path value =>
    ((DefinitionDocument.compile_eq_ok_iff d defs).mp h).path_ne_nil
  obtain ⟨st, root, -, rfl⟩ := start_eq_ok_iff.mp hstart
  refine ⟨fun id hlow hhigh => exists_of_created hn htrace (.inl ⟨hlow, hhigh⟩),
    hrooted.apart calls, fun q hq => ?_⟩
  obtain ⟨hq, hdescends⟩ := hall q hq
  refine hq.isolates ?_
  rw [hdescends.follows.defs]
  exact hpaths

/-- Scenarios start others, are cancelled, and end with the run. -/
theorem scenarios_isolated_sample :
    let calls : List Call :=
      [.event ⟨⟨1, 0⟩, "begin", ∅, none⟩, .event ⟨⟨2, 0⟩, "turn", ∅, none⟩, .cancel 2,
        .event ⟨⟨3, 0⟩, "end", ∅, none⟩, .dispose]
    ∃ defs r, DefinitionDocument.nested.compile = .ok defs ∧ (Store.empty 0).Tree ∧
      Run.start defs (Store.empty 0) { spawnLimit := 2 } = .ok r ∧
      (r.performAll calls).created = 9 ∧
      (∀ q ∈ r.runs calls, ∀ q' ∈ r.runs calls, Apart q q') ∧
      ∀ q ∈ r.runs calls, q.Isolates := by
  intro calls
  obtain ⟨defs, r, hcompile, hstart, hcheck⟩ :=
    DefinitionDocument.nested.exists_of_checks { spawnLimit := 2 } 0
      (fun _ r => decide ((r.performAll calls).created = 9)) (by decide +kernel)
  exact ⟨defs, r, hcompile, Store.tree_empty 0, hstart, of_decide_eq_true hcheck,
    (scenarios_isolated hcompile (Store.tree_empty 0) hstart calls).2⟩

end Calls

end Run

end TraceAutomata
