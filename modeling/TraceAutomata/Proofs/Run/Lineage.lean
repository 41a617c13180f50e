import TraceAutomata.Proofs.Run.Status
import TraceAutomata.Proofs.Store.Within

namespace TraceAutomata

namespace Run

/-- Where a scenario of a later run comes from. -/
inductive Origin (r : Run) (s : Scenario) : Prop
  | kept (first : Scenario) (h : first ∈ r.scenarios) (card : SameCard first s)
  | started (hid : r.created < s.id) (hname : ¬ r.Started s.name)

/-- A later run, whose scenarios have been kept or started since. -/
structure Descends (r r' : Run) : Prop where
  follows : Follows r r'
  extend : r.store.Extends r'.store
  started : ∀ name, r.Started name → r'.Started name
  origin : ∀ s ∈ r'.scenarios, r.Origin s

namespace Descends

variable {r r' r'' : Run}

theorem refl (t : r.store.Tree) : Descends r r :=
  ⟨.refl r, .refl t, fun _ h => h, fun s hs => .kept s hs (.refl s)⟩

theorem trans (h : Descends r r') (h' : Descends r' r'') : Descends r r'' where
  follows := h.follows.trans h'.follows
  extend := h.extend.trans h'.extend
  started name hname := h'.started name (h.started name hname)
  origin s hs := by
    cases h'.origin s hs with
    | kept first hfirst card =>
        cases h.origin first hfirst with
        | kept first' hfirst' card' => exact .kept first' hfirst' (card'.trans card)
        | started hid hname => exact .started (card.id ▸ hid) (card.name ▸ hname)
    | started hid hname =>
        exact .started (Nat.lt_of_le_of_lt h.follows.created_le hid)
          fun hold => hname (h.started s.name hold)

theorem pathOf_eq (h : Descends r r') (name : String) : r'.pathOf name = r.pathOf name := by
  rw [pathOf, h.follows.defs, pathOf]

end Descends

/-- A run with sound schedules whose scenarios have their attributes below the root of the pattern,
each under its own name. -/
structure Rooted (r : Run) : Prop where
  staffed : r.Staffed
  tree : r.store.Tree
  root : r.store.find? Store.root [r.defs.id] = some r.root
  subtree : ∀ s ∈ r.scenarios, r.store.find? Store.root (r.pathOf s.name) = some s.subtree
  started : ∀ s ∈ r.scenarios, r.Started s.name
  unique : ∀ s ∈ r.scenarios, ∀ s' ∈ r.scenarios, s.name = s'.name → s.id = s'.id

namespace Rooted

variable {r r' : Run}

theorem openScenario_ne_error (h : r.Rooted) (name : String) (error : StoreError) (st : Store) :
    History.openScenario r.root name r.store ≠ .error error st :=
  History.openScenario_ne_error h.tree h.root name error st

theorem of_kept (h : r.Rooted) (staffed : r'.Staffed) (follows : Follows r r')
    (extend : r.store.Extends r'.store)
    (counts : r'.fsms.map (·.created) = r.fsms.map (·.created))
    (scenarios : ∀ s' ∈ r'.scenarios, ∃ s ∈ r.scenarios, SameCard s s') :
    r'.Rooted ∧ Descends r r' := by
  refine ⟨⟨staffed, extend.tree, ?_, ?_, ?_, ?_⟩, ⟨follows, extend, ?_, ?_⟩⟩
  · rw [follows.defs, follows.root]
    exact extend.find? _ _ h.root
  · intro s' hs'
    obtain ⟨s, hs, card⟩ := scenarios s' hs'
    rw [pathOf, follows.defs, card.name, card.subtree]
    exact extend.find? _ _ (h.subtree s hs)
  · intro s' hs'
    obtain ⟨s, hs, card⟩ := scenarios s' hs'
    rw [Started.congr follows.defs counts, card.name]
    exact h.started s hs
  · intro s' hs' t' ht' hname
    obtain ⟨s, hs, card⟩ := scenarios s' hs'
    obtain ⟨t, ht, card'⟩ := scenarios t' ht'
    rw [card.id, card'.id]
    apply h.unique s hs t ht
    rw [← card.name, ← card'.name, hname]
  · exact fun name hname => (Started.congr follows.defs counts).mpr hname
  · intro s' hs'
    obtain ⟨s, hs, card⟩ := scenarios s' hs'
    exact .kept s hs card

section Admitted

variable {index : Nat} {f : FsmDefinition} {c : FsmSchedule} {parent : Option String}
  {time : Int64} {subtree : Quark} {st : Store}

variable (index) (parent) (time) in
theorem within_admitted (h : r.Rooted)
    (hopen : History.openScenario r.root (Scenario.nameOf f.id (c.created + 1)) r.store =
      .ok subtree st) :
    (r.admitted index f c parent time subtree st).store.find? Store.root
        (r.pathOf (Scenario.nameOf f.id (c.created + 1))) = some subtree ∧
      r.store.Within (Store.Inside (r.pathOf (Scenario.nameOf f.id (c.created + 1))))
        (r.admitted index f c parent time subtree st).store := by
  obtain ⟨st', q, hok, hext, -, hfind, hhist⟩ := History.openScenario_spec h.tree h.root
    (Scenario.nameOf f.id (c.created + 1))
  rw [hopen] at hok
  cases hok
  have hopened : r.store.Within
      (Store.Inside (r.pathOf (Scenario.nameOf f.id (c.created + 1)))) st := by
    refine ⟨hext, fun p _ => ?_⟩
    rw [Store.intervalsAt, hhist]
    split
    · rfl
    · rfl
  have hplaces : ∀ w ∈ identityWrites time f.id parent, w.path ≠ [] := by
    intro w hw
    rw [identityWrites, List.mem_cons] at hw
    rcases hw with rfl | hw
    · exact List.cons_ne_nil _ _
    · obtain ⟨p, -, rfl⟩ := Option.map_eq_some_iff.mp (Option.mem_toList.mp hw)
      exact List.cons_ne_nil _ _
  have hwrites := History.writeAll_within hext.tree hfind
    fun w hw => Store.inside_append _ (hplaces w hw)
  rw [admitted_eq]
  simp only [History.setIdentity_eq]
  exact ⟨hwrites.find? _ _ hfind, hopened.trans hwrites⟩

theorem admitted (h : r.Rooted)
    (staffed : (r.admitted index f c parent time subtree st).Staffed)
    (hf : r.defs.fsms[index]? = some f) (hc : r.fsms[index]? = some c)
    (hopen : History.openScenario r.root (Scenario.nameOf f.id (c.created + 1)) r.store =
      .ok subtree st) :
    (r.admitted index f c parent time subtree st).Rooted ∧
      Descends r (r.admitted index f c parent time subtree st) := by
  have hnew := not_started_next h.staffed.wellFormed.nodup_ids hf hc
  have hkeeps := keeps_admitted (r := r) index f c parent time subtree st
  obtain ⟨hfind, hwithin⟩ := h.within_admitted index parent time hopen
  have hpath : ∀ name, (r.admitted index f c parent time subtree st).pathOf name =
      r.pathOf name := by
    intro name
    rw [pathOf, hkeeps.defs, pathOf]
  refine ⟨⟨staffed, hwithin.tree, ?_, ?_, ?_, ?_⟩, ⟨.of_keeps hkeeps, hwithin.toExtends, ?_, ?_⟩⟩
  · rw [hkeeps.defs, hkeeps.root]
    exact hwithin.find? _ _ h.root
  · intro s hs
    rw [hpath]
    rcases mem_admitted.mp hs with hs | rfl
    · exact hwithin.find? _ _ (h.subtree s hs)
    · exact hfind
  · intro s hs
    rw [started_admitted hf hc]
    rcases mem_admitted.mp hs with hs | rfl
    · exact .inl (h.started s hs)
    · exact .inr rfl
  · exact unique_admitted hnew h.started h.unique
  · exact fun name hname => (started_admitted hf hc).mpr (.inl hname)
  · intro s hs
    rcases mem_admitted.mp hs with hs | rfl
    · exact .kept s hs (.refl s)
    · exact .started (Nat.lt_succ_self _) hnew

end Admitted

theorem move {m : Moment} (h : m.run.Rooted) (move : Move m r') :
    r'.Rooted ∧ Descends m.run r' := by
  have hstaffed := h.staffed.move move
  have hfollows := move.follows
  cases Effect.of_move h.staffed.numbered move with
  | quiet scenarios _ counts _ store =>
      refine h.of_kept hstaffed hfollows ?_ counts fun s hs => ⟨s, scenarios.subset hs, .refl s⟩
      rcases store with heq | ⟨-, time, heq⟩
      · rw [heq]
        exact .refl h.tree
      · rw [heq]
        exact Store.extends_extendTo time h.tree
  | alters s s' groups hs _ halters scenarios counts _ store =>
      have hmem := mem_of_scenario? hs
      have hwithin : m.run.store.Within (fun _ => True) r'.store := by
        rw [store]
        exact History.recordAll_within h.tree (h.subtree s hmem) fun _ _ _ _ => trivial
      refine h.of_kept hstaffed hfollows hwithin.toExtends counts fun x hx => ?_
      rw [scenarios, mem_modifyScenario hs] at hx
      rcases hx with rfl | ⟨hx, -⟩
      · exact ⟨s, hmem, halters.sameCard⟩
      · exact ⟨x, hx, .refl x⟩
  | admits index f c parent trigger subtree st _ _ hf hc hopen heq =>
      subst heq
      exact h.admitted hstaffed hf hc hopen
  | aborts index name error st _ hopen _ => exact (h.openScenario_ne_error name error st hopen).elim

end Rooted

theorem start_rooted {d : DefinitionDocument} {defs : DefinitionSet} (h : d.compile = .ok defs)
    {store : Store} (t : store.Tree) {settings : RunSettings} {r : Run}
    (hstart : Run.start defs store settings = .ok r) : r.Rooted := by
  have hstaffed := start_staffed h hstart
  obtain ⟨st, root, hensure, rfl⟩ := start_eq_ok_iff.mp hstart
  obtain ⟨st', root', hensure', hext, -, hfind, -⟩ :=
    Store.ensure_spec t (Store.find?_nil store Store.root) [defs.id]
  rw [hensure] at hensure'
  obtain ⟨rfl, rfl⟩ := Prod.mk.inj (Except.ok.inj hensure')
  exact ⟨hstaffed, hext.tree, hfind, List.forall_mem_nil _, List.forall_mem_nil _,
    List.forall_mem_nil _⟩

/-- Scenarios of two runs that share a name, a subtree or a place are the same one. -/
structure Apart (r r' : Run) : Prop where
  name_iff : ∀ s ∈ r.scenarios, ∀ s' ∈ r'.scenarios, s.name = s'.name ↔ s.id = s'.id
  subtree_iff : ∀ s ∈ r.scenarios, ∀ s' ∈ r'.scenarios, s.subtree = s'.subtree ↔ s.id = s'.id
  place : ∀ s ∈ r.scenarios, ∀ s' ∈ r'.scenarios, ∀ p, r.pathOf s.name <+: p →
    r'.pathOf s'.name <+: p → s.id = s'.id

variable {r r' : Run}

theorem Apart.symm (h : Apart r r') : Apart r' r where
  name_iff s hs s' hs' := by rw [eq_comm, h.name_iff s' hs' s hs, eq_comm]
  subtree_iff s hs s' hs' := by rw [eq_comm, h.subtree_iff s' hs' s hs, eq_comm]
  place s hs s' hs' p hp hp' := (h.place s' hs' s hs p hp' hp).symm

instance : Std.Symm Apart where
  symm _ _ := Apart.symm

theorem pathOf_injective {name other : String} (h : r.pathOf name = r.pathOf other) :
    name = other := by
  simpa [pathOf, Layout.scenarioPath] using h

theorem Descends.apart (h : Descends r r') (hr : r.Rooted) (hr' : r'.Rooted) : Apart r r' := by
  have hname : ∀ s ∈ r.scenarios, ∀ s' ∈ r'.scenarios, s.name = s'.name ↔ s.id = s'.id := by
    intro s hs s' hs'
    cases h.origin s' hs' with
    | kept first hfirst card =>
        rw [card.name, card.id]
        refine ⟨hr.unique s hs first hfirst, fun hid => ?_⟩
        rw [hr.staffed.numbered.eq_of_id hs hfirst hid]
    | started hid hnew =>
        have hle := hr.staffed.numbered.le_created s hs
        exact ⟨fun heq => (hnew (heq ▸ hr.started s hs)).elim,
          fun heq => absurd (heq ▸ hle) (Nat.not_le_of_lt hid)⟩
  refine ⟨hname, fun s hs s' hs' => ?_, fun s hs s' hs' p hp hp' => ?_⟩
  · have hfind := h.extend.find? _ _ (hr.subtree s hs)
    have hfind' := hr'.subtree s' hs'
    rw [h.pathOf_eq] at hfind'
    rw [← hname s hs s' hs']
    constructor
    · intro heq
      rw [heq] at hfind
      exact pathOf_injective (hr'.tree.find?_injective hfind hfind')
    · intro heq
      rw [heq] at hfind
      exact Option.some.inj (hfind.symm.trans hfind')
  · rw [h.pathOf_eq] at hp'
    rw [← hname s hs s' hs']
    exact pathOf_injective
      ((List.prefix_of_prefix_length_le hp hp' (Nat.le_refl _)).eq_of_length rfl)

theorem Rooted.of_trace {ms : List Moment} (h : r.Rooted) (htrace : Trace r ms r') :
    (ms.map (·.run) ++ [r']).Pairwise Descends ∧
      ∀ q ∈ ms.map (·.run) ++ [r'], q.Rooted ∧ Descends r q := by
  induction htrace with
  | nil r => exact ⟨List.pairwise_singleton _ _, List.forall_mem_singleton.mpr ⟨h, .refl h.tree⟩⟩
  | cons move _ ih =>
      obtain ⟨hnext, hdescends⟩ := h.move move
      obtain ⟨hpairwise, hall⟩ := ih hnext
      have hlater := fun q hq => (hall q hq).imp_right hdescends.trans
      exact ⟨List.pairwise_cons.mpr ⟨fun q hq => (hlater q hq).2, hpairwise⟩,
        List.forall_mem_cons.mpr ⟨⟨h, .refl h.tree⟩, hlater⟩⟩

theorem Rooted.apart (h : r.Rooted) (calls : List Call) :
    ∀ q ∈ r.runs calls, ∀ q' ∈ r.runs calls, Apart q q' := by
  obtain ⟨hpairwise, hall⟩ := h.of_trace (performAll_trace h.staffed.numbered calls)
  have hapart : (r.runs calls).Pairwise Apart :=
    hpairwise.imp_of_mem fun hq hq' hd => hd.apart (hall _ hq).1 (hall _ hq').1
  have hself : ∀ q ∈ r.runs calls, Apart q q := fun q hq =>
    (Descends.refl (hall q hq).1.tree).apart (hall q hq).1 (hall q hq).1
  exact fun q hq q' hq' => hapart.forall_of_forall hself hq hq'

theorem exists_created {m : Moment} (hn : m.run.Numbered) (move : Move m r') :
    r'.created = m.run.created ∨
      r'.created = m.run.created + 1 ∧ ∃ s ∈ r'.scenarios, s.id = r'.created := by
  cases Effect.of_move hn move with
  | quiet _ _ _ created _ => exact .inl created
  | alters _ _ _ _ _ _ _ _ created _ => exact .inl created
  | admits index f c parent trigger subtree st _ _ hf hc hopen heq =>
      subst heq
      refine .inr ⟨created_admitted .., _, mem_admitted.mpr (.inr rfl), ?_⟩
      rw [created_admitted]
      rfl
  | aborts _ _ _ _ _ _ heq =>
      rw [heq]
      exact .inl rfl

theorem exists_of_created {ms : List Moment} (hn : r.Numbered) (htrace : Trace r ms r')
    {id : ScenarioId}
    (h : r.created < id ∧ id ≤ r'.created ∨ ∃ s ∈ r.scenarios, s.id = id) :
    ∃ q ∈ ms.map (·.run) ++ [r'], ∃ s ∈ q.scenarios, s.id = id := by
  induction htrace with
  | nil r => exact ⟨r, List.mem_singleton_self r, h.resolve_left fun hid =>
      Nat.not_le_of_lt hid.1 hid.2⟩
  | @cons m next r' ms move _ ih =>
      rcases h with hid | hs
      · have hnext : next.created < id ∧ id ≤ r'.created ∨ ∃ s ∈ next.scenarios, s.id = id := by
          rcases exists_created hn move with heq | ⟨heq, s, hs, hlast⟩
          · exact .inl (heq ▸ hid)
          · by_cases hlt : next.created < id
            · exact .inl ⟨hlt, hid.2⟩
            · exact .inr ⟨s, hs, hlast.trans (Nat.le_antisymm (heq ▸ hid.1) (Nat.not_lt.mp hlt))⟩
        obtain ⟨q, hq, hs⟩ := ih (move.follows.numbered hn) hnext
        exact ⟨q, List.mem_cons_of_mem _ hq, hs⟩
      · exact ⟨m.run, List.mem_cons_self, hs⟩

end Run

end TraceAutomata
