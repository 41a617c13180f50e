import TraceAutomata.Proofs.Run.Effect
import TraceAutomata.Proofs.Run.Start
import TraceAutomata.Proofs.Scenario.Name

namespace TraceAutomata

namespace Layout

def identityPaths : List (List String) :=
  [[fsm], [parent]]

end Layout

namespace View

def fresh : View := fun p => if p = [] then some [] else none

end View

namespace History

open Store

theorem openScenario_spec {st : Store} (t : st.Tree) {id : String} {q : Quark}
    (hroot : st.find? Store.root [id] = some q) (name : String) :
    ∃ st' c, openScenario q name st = .ok c st' ∧ st.Extends st' ∧ st'.endTime = st.endTime ∧
      st'.find? Store.root (id :: Layout.scenarioPath name) = some c ∧
      ∀ p, st'.historyAt? p =
        if p <+: id :: Layout.scenarioPath name then some (st.intervalsAt p)
        else st.historyAt? p := by
  obtain ⟨st', c, hensure, hext, hend, hfind, hhist⟩ :=
    ensure_spec t hroot (Layout.scenarioPath name)
  refine ⟨st', c, ?_, hext, hend, hfind, hhist⟩
  rw [openScenario, StoreM.ensure, hensure]

theorem openScenario_ne_error {st : Store} (t : st.Tree) {id : String} {q : Quark}
    (hroot : st.find? Store.root [id] = some q) (name : String) (error : StoreError) (st' : Store) :
    openScenario q name st ≠ .error error st' := by
  intro hopen
  obtain ⟨st'', c, hok, -⟩ := openScenario_spec t hroot name
  rw [hopen] at hok
  cases hok

end History

namespace Run

/-- The attribute of the scenario with a name, from the root of the store. -/
def pathOf (r : Run) (name : String) : List String :=
  r.defs.id :: Layout.scenarioPath name

/-- Whether a scenario of an fsm with a number was started. -/
def StartedAs (r : Run) (fsm : String) (sequence : Nat) : Prop :=
  ∃ (index : Nat) (f : FsmDefinition), r.defs.fsms[index]? = some f ∧ f.id = fsm ∧
    ∃ n, (r.fsms.map (·.created))[index]? = some n ∧ 1 ≤ sequence ∧ sequence ≤ n

def Started (r : Run) (name : String) : Prop :=
  ∃ fsm sequence, r.StartedAs fsm sequence ∧ name = Scenario.nameOf fsm sequence

/-- The attributes of the scenarios are where they belong. -/
structure Anchored (r : Run) : Prop where
  tree : r.store.Tree
  unlocked : r.store.lockedName = none
  root : r.store.find? Store.root [r.defs.id] = some r.root
  subtree : ∀ s ∈ r.scenarios, r.store.find? Store.root (r.pathOf s.name) = some s.subtree
  started : ∀ s ∈ r.scenarios, ∃ sequence, r.StartedAs s.fsm sequence ∧
    s.name = Scenario.nameOf s.fsm sequence
  unique : ∀ s ∈ r.scenarios, ∀ s' ∈ r.scenarios, s.name = s'.name → s.id = s'.id
  exists_iff : ∀ name, (r.store.find? Store.root (r.pathOf name)).isSome ↔ r.Started name

theorem isPrefix_pathOf_append_iff {r : Run} {name other : String} {p : List String} :
    r.pathOf name <+: r.pathOf other ++ p ↔ name = other := by
  simp [pathOf, Layout.scenarioPath]

theorem append_isPrefix_pathOf_iff {r : Run} {name other : String} {p : List String} :
    r.pathOf name ++ p <+: r.pathOf other ↔ name = other ∧ p = [] := by
  simp [pathOf, Layout.scenarioPath]

theorem Anchored.started_of_mem {r : Run} (h : r.Anchored) {s : Scenario}
    (hs : s ∈ r.scenarios) : r.Started s.name := by
  obtain ⟨sequence, hsequence, hname⟩ := h.started s hs
  exact ⟨s.fsm, sequence, hsequence, hname⟩

theorem StartedAs.congr {r r' : Run} (defs : r'.defs = r.defs)
    (counts : r'.fsms.map (·.created) = r.fsms.map (·.created)) {fsm : String}
    {sequence : Nat} : r'.StartedAs fsm sequence ↔ r.StartedAs fsm sequence := by
  rw [StartedAs, StartedAs, defs, counts]

theorem Started.congr {r r' : Run} (defs : r'.defs = r.defs)
    (counts : r'.fsms.map (·.created) = r.fsms.map (·.created)) {name : String} :
    r'.Started name ↔ r.Started name := by
  rw [Started, Started]
  simp only [StartedAs.congr defs counts]

section Effects

variable {r r' : Run} {m : Moment}

theorem Anchored.congr (h : r.Anchored) (defs : r'.defs = r.defs) (root : r'.root = r.root)
    (scenarios : ∀ s' ∈ r'.scenarios, ∃ s ∈ r.scenarios, SameCard s s')
    (counts : r'.fsms.map (·.created) = r.fsms.map (·.created))
    (extend : r.store.Extends r'.store)
    (history : ∀ name, (r'.store.find? Store.root (r.pathOf name)).isSome =
      (r.store.find? Store.root (r.pathOf name)).isSome) : r'.Anchored where
  tree := extend.tree
  unlocked := extend.lockedName.trans h.unlocked
  root := by
    rw [defs, root]
    exact extend.find? _ _ h.root
  subtree s' hs' := by
    obtain ⟨s, hs, hcard⟩ := scenarios s' hs'
    rw [pathOf, defs, hcard.name, hcard.subtree]
    exact extend.find? _ _ (h.subtree s hs)
  started s' hs' := by
    obtain ⟨s, hs, hcard⟩ := scenarios s' hs'
    simp only [StartedAs.congr defs counts, hcard.fsm, hcard.name]
    exact h.started s hs
  unique s' hs' t' ht' heq := by
    obtain ⟨s, hs, hcard⟩ := scenarios s' hs'
    obtain ⟨t, ht, hcard'⟩ := scenarios t' ht'
    rw [hcard.id, hcard'.id]
    apply h.unique s hs t ht
    rw [← hcard.name, ← hcard'.name, heq]
  exists_iff name := by
    rw [Started.congr defs counts, pathOf, defs, ← h.exists_iff]
    exact Bool.eq_iff_iff.mp (history name)

theorem Anchored.isSome_of_recorded (h : r.Anchored) {s : Scenario} (hs : s ∈ r.scenarios)
    {v : View} {st : Store} (hrec : r.store.Recorded (r.pathOf s.name) v st) (name : String) :
    (st.find? Store.root (r.pathOf name)).isSome =
      (r.store.find? Store.root (r.pathOf name)).isSome := by
  by_cases hname : s.name = name
  · subst hname
    rw [hrec.find? _ _ (h.subtree s hs), h.subtree s hs]
  · have hnot : ¬ r.pathOf s.name <+: r.pathOf name := by
      rw [← List.append_nil (r.pathOf name), isPrefix_pathOf_append_iff]
      exact hname
    have hout := hrec.outside (r.pathOf name) hnot
    rw [Bool.eq_iff_iff, ← hrec.tree.historyAt?_isSome_iff, ← h.tree.historyAt?_isSome_iff, hout]

theorem below_eq_of_recorded {s : Scenario} {v : View} {st : Store}
    (hrec : r.store.Recorded (r.pathOf s.name) v st) {name : String} (hname : name ≠ s.name) :
    st.below (r.pathOf name) = r.store.below (r.pathOf name) := by
  funext p
  apply hrec.outside
  rw [isPrefix_pathOf_append_iff]
  exact hname.symm

/-- A subtree has been opened for a scenario and shows a view. -/
structure Opened (r : Run) (name : String) (subtree : Quark) (v : View) (st : Store) : Prop
    extends r.store.Extends st where
  find : st.find? Store.root (r.pathOf name) = some subtree
  below : st.below (r.pathOf name) = v
  outside : ∀ p, ¬ r.pathOf name <+: p → st.historyAt? p =
    if p <+: r.pathOf name then some (r.store.intervalsAt p) else r.store.historyAt? p
  endTime_le : r.store.endTime ≤ st.endTime

theorem Opened.below_eq {name other : String} {subtree : Quark} {v : View} {st : Store}
    (h : r.Opened name subtree v st) (hne : other ≠ name) :
    st.below (r.pathOf other) = r.store.below (r.pathOf other) := by
  funext p
  have hout : ¬ r.pathOf name <+: r.pathOf other ++ p := fun hp =>
    hne (isPrefix_pathOf_append_iff.mp hp).symm
  have habove : ¬ r.pathOf other ++ p <+: r.pathOf name := fun hp =>
    hne (append_isPrefix_pathOf_iff.mp hp).1
  rw [Store.below, h.outside _ hout, if_neg habove, Store.below]

theorem below_of_not_started (h : r.Anchored) {name : String} (hnew : ¬ r.Started name)
    (p : List String) : r.store.historyAt? (r.pathOf name ++ p) = none := by
  have hnone : ¬ (r.store.historyAt? (r.pathOf name ++ p)).isSome := by
    rw [h.tree.historyAt?_isSome_iff]
    intro hsome
    have habove := Store.find?_isSome_of_le (List.prefix_append _ p) hsome
    exact hnew ((h.exists_iff name).mp habove)
  simpa using hnone

theorem accepts_identity (time : Int64) (fsm : String) (parent : Option String) :
    (View.fresh.writeAll (identityWrites time fsm parent)).2 = true := by
  cases parent <;> rfl

theorem intervalsAt_identity (time : Int64) (fsm : String) (parent : Option String)
    {path : List String} (hpath : path ∉ Layout.identityPaths) :
    (View.fresh.writeAll (identityWrites time fsm parent)).1.intervalsAt path = [] := by
  have hplace : ∀ w ∈ identityWrites time fsm parent, w.path ∈ Layout.identityPaths := by
    intro w hw
    rw [identityWrites, List.mem_cons] at hw
    rcases hw with rfl | hw
    · exact List.mem_cons_self
    · obtain ⟨p, -, rfl⟩ := Option.map_eq_some_iff.mp (Option.mem_toList.mp hw)
      exact List.mem_cons_of_mem _ List.mem_cons_self
  apply View.writeAll_induction (P := fun log => log = [])
  · intro w hw heq
    exact (hpath (heq ▸ hplace w hw)).elim
  · rw [View.intervalsAt, View.fresh]
    split <;> rfl

theorem Anchored.opened (h : r.Anchored) {name : String} (hnew : ¬ r.Started name)
    {subtree : Quark} {st : Store}
    (hopen : History.openScenario r.root name r.store = .ok subtree st) (time : Int64)
    (fsm : String) (parent : Option String) :
    r.Opened name subtree (View.fresh.writeAll (identityWrites time fsm parent)).1
        ((History.setIdentity subtree time fsm parent).after st) ∧
      (History.setIdentity subtree time fsm parent).accepts st = true ∧
      (time ≤ r.store.endTime →
        ((History.setIdentity subtree time fsm parent).after st).endTime = r.store.endTime) := by
  obtain ⟨st', c, hok, hext, hend, hfind, hhist⟩ := History.openScenario_spec h.tree h.root name
  rw [hopen] at hok
  cases hok
  have hbelow : st.below (r.pathOf name) = View.fresh := by
    funext p
    rw [Store.below, hhist, ← pathOf, View.fresh]
    have hnone := below_of_not_started h hnew p
    by_cases hp : p = []
    · rw [if_pos (append_isPrefix_pathOf_iff.mpr ⟨rfl, hp⟩), if_pos hp, Store.intervalsAt, hnone]
      rfl
    · rw [if_neg fun hprefix => hp (append_isPrefix_pathOf_iff.mp hprefix).2, if_neg hp]
      exact hnone
  obtain ⟨hrec, haccept, -, hsame⟩ := History.writeAll_spec hext.tree
    (hext.lockedName.trans h.unlocked) hfind (identityWrites time fsm parent)
  rw [← pathOf, hbelow] at hrec haccept
  rw [History.setIdentity_eq]
  refine ⟨⟨hext.trans hrec.toExtends, hrec.find? _ _ hfind, hrec.below, fun p hp => ?_, ?_⟩, ?_, ?_⟩
  · rw [hrec.outside p hp, hhist]
    rfl
  · rw [← hend]
    exact hrec.endTime_le
  · rw [haccept]
    exact accepts_identity time fsm parent
  · intro hle
    rw [← hend]
    apply hsame
    intro w hw
    rw [hend]
    have htime : w.time = time := by
      cases parent <;> simp only [identityWrites, Option.map_none, Option.map_some,
        Option.toList_none, Option.toList_some, List.mem_cons, List.not_mem_nil, or_false] at hw
      · rw [hw]
      · rcases hw with rfl | rfl <;> rfl
    rw [htime]
    exact hle

section Admitted

variable {index : Nat} {f : FsmDefinition} {c : FsmSchedule} {parent : Option String}
  {time : Int64} {subtree : Quark} {st : Store}

theorem counts_admitted (hc : r.fsms[index]? = some c) (i : Nat) :
    ((r.admitted index f c parent time subtree st).fsms.map (·.created))[i]? =
      if i = index then some (c.created + 1) else (r.fsms.map (·.created))[i]? := by
  simp only [admitted_eq, List.getElem?_map, List.getElem?_modify]
  by_cases hi : i = index
  · subst hi
    simp [hc]
  · cases r.fsms[i]? with
    | none => simp [hi]
    | some c' => simp [hi, Ne.symm hi]

theorem startedAs_admitted (hf : r.defs.fsms[index]? = some f) (hc : r.fsms[index]? = some c)
    {fsm : String} {sequence : Nat} :
    (r.admitted index f c parent time subtree st).StartedAs fsm sequence ↔
      r.StartedAs fsm sequence ∨ fsm = f.id ∧ sequence = c.created + 1 := by
  have hcount : (r.fsms.map (·.created))[index]? = some c.created := by simp [hc]
  rw [StartedAs, (keeps_admitted index f c parent time subtree st).defs]
  constructor
  · rintro ⟨i, g, hg, hid, n, hn, hlow, hhigh⟩
    rw [counts_admitted hc] at hn
    by_cases hi : i = index
    · subst hi
      obtain rfl : f = g := Option.some.inj (hf.symm.trans hg)
      rw [if_pos rfl, Option.some.injEq] at hn
      rcases Nat.eq_or_lt_of_le hhigh with heq | hlt
      · exact .inr ⟨hid.symm, heq.trans hn.symm⟩
      · exact .inl ⟨i, f, hf, hid, c.created, hcount, hlow, by omega⟩
    · rw [if_neg hi] at hn
      exact .inl ⟨i, g, hg, hid, n, hn, hlow, hhigh⟩
  · rintro (⟨i, g, hg, hid, n, hn, hlow, hhigh⟩ | ⟨rfl, rfl⟩)
    · refine ⟨i, g, hg, hid, ?_⟩
      rw [counts_admitted hc]
      by_cases hi : i = index
      · subst hi
        rw [hcount, Option.some.injEq] at hn
        exact ⟨c.created + 1, if_pos rfl, hlow, by omega⟩
      · exact ⟨n, by rw [if_neg hi, hn], hlow, hhigh⟩
    · refine ⟨index, f, hf, rfl, c.created + 1, ?_, by omega, Nat.le_refl _⟩
      rw [counts_admitted hc, if_pos rfl]

theorem started_admitted (hf : r.defs.fsms[index]? = some f) (hc : r.fsms[index]? = some c)
    {name : String} :
    (r.admitted index f c parent time subtree st).Started name ↔
      r.Started name ∨ name = Scenario.nameOf f.id (c.created + 1) := by
  rw [Started, Started]
  simp only [startedAs_admitted hf hc]
  constructor
  · rintro ⟨fsm, sequence, hstart | ⟨rfl, rfl⟩, rfl⟩
    · exact .inl ⟨fsm, sequence, hstart, rfl⟩
    · exact .inr rfl
  · rintro (⟨fsm, sequence, hstart, rfl⟩ | rfl)
    · exact ⟨fsm, sequence, .inl hstart, rfl⟩
    · exact ⟨f.id, c.created + 1, .inr ⟨rfl, rfl⟩, rfl⟩

theorem not_started_next (hnodup : (r.defs.fsms.map (·.id)).Nodup)
    (hf : r.defs.fsms[index]? = some f) (hc : r.fsms[index]? = some c) :
    ¬ r.Started (Scenario.nameOf f.id (c.created + 1)) := by
  rintro ⟨fsm, sequence, ⟨i, g, hg, hid, n, hn, -, hhigh⟩, hname⟩
  obtain ⟨rfl, rfl⟩ := Scenario.nameOf_injective hname
  obtain rfl := DefinitionSet.index_inj hnodup hg hf hid
  have hcount : n = c.created := by simpa [hc] using hn.symm
  omega

theorem mem_admitted {x : Scenario} :
    x ∈ (r.admitted index f c parent time subtree st).scenarios ↔
      x ∈ r.scenarios ∨ x = r.added f (c.created + 1) parent subtree := by
  rw [admitted_eq, List.mem_append, List.mem_singleton]

theorem unique_admitted (hnew : ¬ r.Started (Scenario.nameOf f.id (c.created + 1)))
    (hstarted : ∀ s ∈ r.scenarios, r.Started s.name)
    (hunique : ∀ s ∈ r.scenarios, ∀ s' ∈ r.scenarios, s.name = s'.name → s.id = s'.id) :
    ∀ s ∈ (r.admitted index f c parent time subtree st).scenarios,
      ∀ s' ∈ (r.admitted index f c parent time subtree st).scenarios,
        s.name = s'.name → s.id = s'.id := by
  intro s hs s' hs' heq
  rcases mem_admitted.mp hs with hs | rfl
  · rcases mem_admitted.mp hs' with hs' | rfl
    · exact hunique s hs s' hs' heq
    · have hs := hstarted s hs
      rw [heq] at hs
      exact (hnew hs).elim
  · rcases mem_admitted.mp hs' with hs' | rfl
    · have hs' := hstarted s' hs'
      rw [← heq] at hs'
      exact (hnew hs').elim
    · rfl

theorem Anchored.admitted (h : r.Anchored) (hnodup : (r.defs.fsms.map (·.id)).Nodup)
    (hf : r.defs.fsms[index]? = some f) (hc : r.fsms[index]? = some c)
    (hopen : History.openScenario r.root (Scenario.nameOf f.id (c.created + 1)) r.store =
      .ok subtree st) : (r.admitted index f c parent time subtree st).Anchored := by
  have hnew := not_started_next hnodup hf hc
  obtain ⟨hopened, -, -⟩ := h.opened hnew hopen time f.id parent
  have hstore : (r.admitted index f c parent time subtree st).store =
      (History.setIdentity subtree time f.id parent).after st := by rw [admitted_eq]
  have hkeeps := keeps_admitted (r := r) index f c parent time subtree st
  have hpath : ∀ name, (r.admitted index f c parent time subtree st).pathOf name =
      r.pathOf name := by
    intro name
    rw [pathOf, hkeeps.defs, pathOf]
  have hstarted : ∀ s ∈ r.scenarios, r.Started s.name := fun s hs => h.started_of_mem hs
  constructor
  · rw [hstore]
    exact hopened.tree
  · rw [hstore]
    exact hopened.lockedName.trans h.unlocked
  · rw [hstore, hkeeps.defs, hkeeps.root]
    exact hopened.find? _ _ h.root
  · intro s hs
    rw [hstore, hpath]
    rcases mem_admitted.mp hs with hs | rfl
    · exact hopened.find? _ _ (h.subtree s hs)
    · exact hopened.find
  · intro s hs
    simp only [startedAs_admitted hf hc]
    rcases mem_admitted.mp hs with hs | rfl
    · obtain ⟨sequence, hsequence, hname⟩ := h.started s hs
      exact ⟨sequence, .inl hsequence, hname⟩
    · exact ⟨c.created + 1, .inr ⟨rfl, rfl⟩, rfl⟩
  · exact unique_admitted hnew hstarted h.unique
  · intro name
    rw [hstore, hpath, started_admitted hf hc, ← h.exists_iff]
    by_cases hname : name = Scenario.nameOf f.id (c.created + 1)
    · simp [hname, hopened.find]
    · have hbelow := congrFun (hopened.below_eq hname) []
      rw [Store.below, Store.below, List.append_nil] at hbelow
      rw [← hopened.tree.historyAt?_isSome_iff, ← h.tree.historyAt?_isSome_iff, hbelow]
      simp [hname]

end Admitted

theorem Anchored.openScenario_ne_error (h : r.Anchored) (name : String) (error : StoreError)
    (st : Store) : History.openScenario r.root name r.store ≠ .error error st :=
  History.openScenario_ne_error h.tree h.root name error st

theorem Anchored.move {m : Moment} {r' : Run} (hn : m.run.Numbered)
    (hnodup : (m.run.defs.fsms.map (·.id)).Nodup) (move : Move m r') (h : m.run.Anchored) :
    r'.Anchored := by
  have hfollows := move.follows
  cases Effect.of_move hn move with
  | quiet scenarios _ counts _ store =>
      have hextend : m.run.store.Extends r'.store := by
        rcases store with heq | ⟨-, time, heq⟩
        · rw [heq]
          exact .refl h.tree
        · rw [heq]
          exact Store.extends_extendTo time h.tree
      refine h.congr hfollows.defs hfollows.root ?_ counts hextend ?_
      · intro s hs
        exact ⟨s, scenarios.subset hs, .refl s⟩
      · intro name
        rcases store with heq | ⟨-, time, heq⟩
        · rw [heq]
        · rw [heq, Store.find?_extendTo]
  | alters s s' groups hs _ halters scenarios counts _ store =>
      have hmem := mem_of_scenario? hs
      obtain ⟨hrec, -, -⟩ := History.recordAll_spec h.tree h.unlocked (h.subtree s hmem) groups
      rw [← store] at hrec
      refine h.congr hfollows.defs hfollows.root ?_ counts hrec.toExtends
        (h.isSome_of_recorded hmem hrec)
      intro x hx
      rw [scenarios, mem_modifyScenario hs] at hx
      rcases hx with rfl | ⟨hx, -⟩
      · exact ⟨s, hmem, halters.sameCard⟩
      · exact ⟨x, hx, .refl x⟩
  | admits index f c parent trigger subtree st _ _ hf hc hopen heq =>
      rw [heq]
      exact h.admitted hnodup hf hc hopen
  | aborts index name error st _ hopen _ =>
      exact (h.openScenario_ne_error name error st hopen).elim

theorem Fresh.anchored {d : DefinitionSet} {settings : RunSettings} {time : Int64}
    (h : r.Fresh d settings time) : r.Anchored where
  tree := h.tree
  unlocked := h.lockedName
  root := by
    rw [h.defs]
    exact h.find?_root
  subtree s hs := by simp [h.scenarios] at hs
  started s hs := by simp [h.scenarios] at hs
  unique s hs := by simp [h.scenarios] at hs
  exists_iff name := by
    rw [← h.tree.historyAt?_isSome_iff, h.historyAt?, pathOf, h.defs]
    have hnot : ¬ Layout.scenarioPath name <+: [] := by simp [Layout.scenarioPath]
    constructor
    · intro hsome
      simp [hnot] at hsome
    · rintro ⟨fsm, sequence, ⟨index, f, hf, -, n, hn, hlow, hhigh⟩, -⟩
      rw [h.fsms, List.map_map, List.getElem?_map] at hn
      obtain ⟨g, -, rfl⟩ := Option.map_eq_some_iff.mp hn
      exact absurd (Nat.le_trans hlow hhigh) (by simp)

end Effects

/-- What an act does to the scenario with a name and to what is recorded of it. -/
inductive Seen (m : Moment) (r' : Run) (name : String) : Prop
  | same (scenarios : ∀ x ∈ r'.scenarios, x.name = name → x ∈ m.run.scenarios)
      (below : r'.store.below (m.run.pathOf name) = m.run.store.below (m.run.pathOf name))
  | alters (s s' : Scenario) (groups : List (List Write)) (hs : s ∈ m.run.scenarios)
      (hname : s.name = name) (hlive : s.isLive = true) (h : Alters m s s' groups)
      (scenarios : ∀ x ∈ r'.scenarios, x.name = name → x = s')
      (below : r'.store.below (m.run.pathOf name) =
        (m.run.store.below (m.run.pathOf name)).record groups)
  | admits (f : FsmDefinition) (sequence : Nat) (parent : Option String) (subtree : Quark)
      (time : Int64) (hname : name = Scenario.nameOf f.id sequence) (hnew : ¬ m.run.Started name)
      (scenarios : ∀ x ∈ r'.scenarios, x.name = name → x = m.run.added f sequence parent subtree)
      (below : r'.store.below (m.run.pathOf name) =
        (View.fresh.writeAll (identityWrites time f.id parent)).1)

theorem Seen.of_move {m : Moment} {r' : Run} (hn : m.run.Numbered)
    (hnodup : (m.run.defs.fsms.map (·.id)).Nodup) (h : m.run.Anchored) (move : Move m r')
    (name : String) : Seen m r' name := by
  cases Effect.of_move hn move with
  | quiet scenarios _ _ _ store =>
      refine .same (fun x hx _ => scenarios.subset hx) ?_
      rcases store with heq | ⟨-, time, heq⟩
      · rw [heq]
      · rw [heq]
        funext p
        exact Store.historyAt?_extendTo _ _ _
  | alters s s' groups hs hlive halters scenarios _ _ store =>
      have hmem := mem_of_scenario? hs
      obtain ⟨hrec, -, -⟩ := History.recordAll_spec h.tree h.unlocked (h.subtree s hmem) groups
      rw [← store] at hrec
      by_cases hname : s.name = name
      · subst hname
        refine .alters s s' groups hmem rfl hlive halters ?_ hrec.below
        intro x hx hxname
        rw [scenarios, mem_modifyScenario hs] at hx
        rcases hx with rfl | ⟨hx, hne⟩
        · rfl
        · exact (hne (h.unique x hx s hmem hxname)).elim
      · refine .same ?_ (below_eq_of_recorded hrec (Ne.symm hname))
        intro x hx hxname
        rw [scenarios, mem_modifyScenario hs] at hx
        rcases hx with rfl | ⟨hx, -⟩
        · exact (hname (halters.sameCard.name.symm.trans hxname)).elim
        · exact hx
  | admits index f c parent trigger subtree st _ _ hf hc hopen heq =>
      have hnew := not_started_next hnodup hf hc
      obtain ⟨hopened, -, -⟩ := h.opened hnew hopen
        ((trigger.map Event.nanos).getD m.run.store.endTime) f.id parent
      subst heq
      by_cases hname : name = Scenario.nameOf f.id (c.created + 1)
      · subst hname
        refine .admits f (c.created + 1) parent subtree
          ((trigger.map Event.nanos).getD m.run.store.endTime) rfl hnew ?_ ?_
        · intro x hx hxname
          rcases mem_admitted.mp hx with hx | rfl
          · exact (hnew (hxname ▸ h.started_of_mem hx)).elim
          · rfl
        · rw [admitted_eq]
          exact hopened.below
      · refine .same ?_ ?_
        · intro x hx hxname
          rcases mem_admitted.mp hx with hx | rfl
          · exact hx
          · exact (hname hxname.symm).elim
        · rw [admitted_eq]
          exact hopened.below_eq hname
  | aborts index _ error st _ hopen _ =>
      exact (h.openScenario_ne_error _ error st hopen).elim

end Run

end TraceAutomata
