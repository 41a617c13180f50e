import TraceAutomata.Proofs.Run.Hindsight
import TraceAutomata.Proofs.Run.Memory
import TraceAutomata.Proofs.Run.Status

namespace TraceAutomata

/-- A change of a state is not written at a name that only the run itself writes. -/
def Moment.Spares (own : List String → Bool) (m : Moment) : Prop :=
  ∀ scope names value, m.act = .change scope names value → own names = false

instance (own : List String → Bool) (m : Moment) : Decidable (m.Spares own) :=
  match hact : m.act with
  | .change scope names value =>
      decidable_of_iff (own names = false) <| by
        simp [Moment.Spares, hact]
  | .arrive | .begin | .appoint _ | .takeDue _ | .decide _ _ _ _ | .abort _ | .enroll _ _ _
  | .handle _ | .receive _ _ | .operate _ _ | .save _ _ _ | .emit _ _ | .enter _ _ _ _
  | .merge _ | .retire _ | .cancel _ | .dispose => isTrue fun _ _ _ h => by simp [hact] at h

open Run

theorem Move.takesScenario {m : Moment} {r' : Run} {index : Nat} {parent : Option String}
    {trigger : Option Event} {f : FsmDefinition} {c : FsmSchedule} (move : Move m r')
    (hact : m.act = .enroll index parent trigger) (hf : m.run.defs.fsms[index]? = some f)
    (hc : m.run.fsms[index]? = some c) : m.run.takesScenario index f c = true := by
  cases move with
  | enroll _ hf' hc' htakes _ =>
      cases hact
      obtain rfl := Option.some.inj (hf'.symm.trans hf)
      obtain rfl := Option.some.inj (hc'.symm.trans hc)
      exact htakes
  | _ => cases hact

namespace Run

theorem path_of_moveGroups {time : Int64} {left changed : Bool} {next : String}
    {status : ScenarioStatus} {writes : List Write} {w : Write}
    (hwrites : writes ∈ moveGroups time left changed next status) (hw : w ∈ writes) :
    (left = true ∧ w.path = [Layout.startTime]) ∨
      (changed = true ∧ w.path = Layout.statePath next) ∨
      (status.isTerminal = true ∧ w.path = [Layout.endTime]) ∨
      w.path = [Layout.state] ∨ w.path = [Layout.status] := by
  simp only [moveGroups, List.mem_append, List.mem_ite_nil_right, List.mem_singleton] at hwrites
  rcases hwrites with ((⟨hleft, rfl⟩ | ⟨hchanged, rfl⟩) | ⟨hterminal, rfl⟩) | rfl
  · obtain rfl := List.mem_singleton.mp hw
    exact .inl ⟨hleft, rfl⟩
  · obtain rfl := List.mem_singleton.mp hw
    exact .inr (.inl ⟨hchanged, rfl⟩)
  · obtain rfl := List.mem_singleton.mp hw
    exact .inr (.inr (.inl ⟨hterminal, rfl⟩))
  · rcases List.mem_pair.mp hw with rfl | rfl
    · exact .inr (.inr (.inr (.inl rfl)))
    · exact .inr (.inr (.inr (.inr rfl)))

/-- What an act adds to what is known of all scenarios and to what is recorded of them. -/
inductive Chronicled (known : ScenarioId → Option Scenario) (m : Moment) (r' : Run) : Prop
  | same (noted : note known r' = known)
      (lookup : ∀ id, r'.scenario? id = m.run.scenario? id ∨ r'.scenario? id = none)
      (below : ∀ name, r'.store.below (r'.pathOf name) = m.run.store.below (m.run.pathOf name))
  | alters (s s' : Scenario) (groups : List (List Write)) (hs : m.run.scenario? s.id = some s)
      (hlive : s.isLive = true) (h : Alters m s s' groups)
      (noted : note known r' = Function.update known s.id (some s'))
      (lookup : ∀ id, r'.scenario? id = if id = s.id then some s' else m.run.scenario? id)
      (self : r'.store.below (r'.pathOf s'.name) =
        (m.run.store.below (m.run.pathOf s.name)).record groups)
      (other : ∀ id x, known id = some x → id ≠ s.id →
        r'.store.below (r'.pathOf x.name) = m.run.store.below (m.run.pathOf x.name))
  | admits (index : Nat) (f : FsmDefinition) (c : FsmSchedule) (parent : Option String)
      (subtree : Quark) (time : Int64) (hf : m.run.defs.fsms[index]? = some f)
      (hc : m.run.fsms[index]? = some c) (htakes : m.run.takesScenario index f c = true)
      (noted : note known r' = Function.update known (m.run.created + 1)
        (some (m.run.added f (c.created + 1) parent subtree)))
      (lookup : ∀ id, r'.scenario? id = if id = m.run.created + 1
        then some (m.run.added f (c.created + 1) parent subtree) else m.run.scenario? id)
      (self : r'.store.below (r'.pathOf (Scenario.nameOf f.id (c.created + 1))) =
        (View.fresh.writeAll (identityWrites time f.id parent)).1)
      (other : ∀ id x, known id = some x →
        r'.store.below (r'.pathOf x.name) = m.run.store.below (m.run.pathOf x.name))

variable {known : ScenarioId → Option Scenario} {m : Moment} {r' : Run}

theorem Chronicled.of_move (hremembered : m.run.Remembered known) (hground : m.run.Grounded)
    (move : Move m r') : Chronicled known m r' := by
  have hanchored := hground.anchored
  have hpath : ∀ name, r'.pathOf name = m.run.pathOf name := by
    intro name
    rw [pathOf, move.follows.defs, pathOf]
  cases Effect.of_move hground.numbered move with
  | quiet scenarios _ _ _ store =>
      refine .same (note_of_sublist hremembered scenarios)
        (scenario?_of_sublist hground.numbered scenarios) fun name => ?_
      rw [hpath]
      rcases store with heq | ⟨-, time, heq⟩
      · rw [heq]
      · rw [heq]
        funext p
        exact Store.historyAt?_extendTo _ _ _
  | alters s s' groups hs hlive halters scenarios _ _ store =>
      have hmem := mem_of_scenario? hs
      obtain ⟨hrec, -⟩ := History.recordAll_spec hanchored.tree hanchored.unlocked
        (hanchored.subtree s hmem) groups
      rw [← store] at hrec
      refine .alters s s' groups hs hlive halters
        (note_of_modify hremembered hs halters.sameCard.id scenarios)
        (scenario?_of_modified hs halters.sameCard.id scenarios) ?_ fun id x hx hne => ?_
      · rw [hpath, halters.sameCard.name]
        exact hrec.below
      · rw [hpath]
        refine below_eq_of_recorded hrec fun heq => hne ?_
        exact hremembered.name_injective hx (hremembered.present s hmem) heq
  | admits index f c parent trigger subtree st _ act hf hc hopen heq =>
      have hnew := not_started_next hground.nodup_ids hf hc
      obtain ⟨hopened, -⟩ := hanchored.opened hnew hopen
        ((trigger.map Event.nanos).getD m.run.store.endTime) f.id parent
      have hstore : r'.store = (History.setIdentity subtree
          ((trigger.map Event.nanos).getD m.run.store.endTime) f.id parent).after st := by
        rw [heq, admitted_eq]
      refine .admits index f c parent subtree ((trigger.map Event.nanos).getD m.run.store.endTime)
        hf hc (move.takesScenario act hf hc) ?_ ?_ ?_ fun id x hx => ?_
      · rw [heq]
        exact note_of_admitted hremembered
      · rw [heq]
        exact scenario?_admitted hground.numbered index f c parent _ subtree st
      · rw [hpath, hstore]
        exact hopened.below
      · rw [hpath, hstore]
        exact hopened.below_eq fun hname => hnew (hname ▸ hremembered.started hx)
  | aborts index name error st _ hopen _ =>
      exact (hanchored.openScenario_ne_error name error st hopen).elim

/-- How it comes that a scenario is known after an act. -/
inductive Provenance (known : ScenarioId → Option Scenario) (m : Moment) (id : ScenarioId)
    (x : Scenario) : Prop
  | kept (h : known id = some x)
  | altered (s : Scenario) (groups : List (List Write)) (hid : s.id = id)
      (hs : m.run.scenario? s.id = some s) (hlive : s.isLive = true) (h : Alters m s x groups)
  | admitted (index : Nat) (f : FsmDefinition) (c : FsmSchedule) (parent : Option String)
      (subtree : Quark) (hf : m.run.defs.fsms[index]? = some f) (hc : m.run.fsms[index]? = some c)
      (htakes : m.run.takesScenario index f c = true) (hid : id = m.run.created + 1)
      (hx : x = m.run.added f (c.created + 1) parent subtree)

theorem Provenance.of_move (hremembered : m.run.Remembered known) (hground : m.run.Grounded)
    (move : Move m r') {id : ScenarioId} {x : Scenario} (hx : note known r' id = some x) :
    Provenance known m id x := by
  cases Chronicled.of_move hremembered hground move with
  | same noted lookup below =>
      rw [noted] at hx
      exact .kept hx
  | alters s s' groups hs hlive halters noted lookup self other =>
      rw [noted] at hx
      rcases eq_or_ne id s.id with rfl | hne
      · rw [Function.update_self, Option.some.injEq] at hx
        exact .altered s groups rfl hs hlive (hx ▸ halters)
      · rw [Function.update_of_ne hne] at hx
        exact .kept hx
  | admits index f c parent subtree time hf hc htakes noted lookup self other =>
      rw [noted] at hx
      rcases eq_or_ne id (m.run.created + 1) with rfl | hne
      · rw [Function.update_self, Option.some.injEq] at hx
        exact .admitted index f c parent subtree hf hc htakes rfl hx.symm
      · rw [Function.update_of_ne hne] at hx
        exact .kept hx

/-- What is recorded of each scenario that is known has a property. -/
def Tells (P : Scenario → View → Prop) (known : ScenarioId → Option Scenario) (r : Run) : Prop :=
  ∀ id s, known id = some s → P s (r.store.below (r.pathOf s.name))

theorem Tells.move {P P' : Scenario → View → Prop} (h : Tells P known m.run)
    (hremembered : m.run.Remembered known) (hground : m.run.Grounded) (move : Move m r')
    (kept : ∀ s v, (r'.scenario? s.id = m.run.scenario? s.id ∨ r'.scenario? s.id = none) →
      P s v → P' s v)
    (alters : ∀ s s' groups, m.run.scenario? s.id = some s → r'.scenario? s.id = some s' →
      s.isLive = true → Alters m s s' groups → ∀ v, P s v → P' s' (v.record groups))
    (admits : ∀ f sequence parent subtree time,
      r'.scenario? (m.run.created + 1) = some (m.run.added f sequence parent subtree) →
        P' (m.run.added f sequence parent subtree)
          (View.fresh.writeAll (identityWrites time f.id parent)).1) :
    Tells P' (note known r') r' := by
  intro id x hx
  cases Chronicled.of_move hremembered hground move with
  | same noted lookup below =>
      rw [noted] at hx
      rw [below]
      exact kept x _ (lookup x.id) (h id x hx)
  | alters s s' groups hs hlive halters noted lookup self other =>
      rw [noted] at hx
      rcases eq_or_ne id s.id with rfl | hne
      · rw [Function.update_self, Option.some.injEq] at hx
        subst hx
        rw [self]
        exact alters s s' groups hs ((lookup s.id).trans (if_pos rfl)) hlive halters _
          (h s.id s (hremembered.present s (mem_of_scenario? hs)))
      · rw [Function.update_of_ne hne] at hx
        rw [other id x hx hne]
        obtain rfl := hremembered.id_eq id x hx
        exact kept x _ (.inl ((lookup x.id).trans (if_neg hne))) (h x.id x hx)
  | admits index f c parent subtree time hf hc htakes noted lookup self other =>
      rw [noted] at hx
      rcases eq_or_ne id (m.run.created + 1) with rfl | hne
      · rw [Function.update_self, Option.some.injEq] at hx
        subst hx
        rw [added, self]
        exact admits f (c.created + 1) parent subtree time ((lookup _).trans (if_pos rfl))
      · rw [Function.update_of_ne hne] at hx
        rw [other id x hx]
        obtain rfl := hremembered.id_eq id x hx
        exact kept x _ (.inl ((lookup x.id).trans (if_neg hne))) (h x.id x hx)

end Run

end TraceAutomata
