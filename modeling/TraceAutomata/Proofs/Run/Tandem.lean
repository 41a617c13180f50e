import TraceAutomata.Proofs.Run.Visit

/-!
One run has an fsm among others, another run has it alone. On every call the first one does what
the other one does, and besides it does what is about its other fsms, which leaves the fsm alone.
So the runs stay in step, and the other one emits what the fsm emits in the first.
-/

namespace TraceAutomata

def Moment.emittedBy? (fsm : String) (m : Moment) : Option SyntheticEvent :=
  match m.act with
  | .emit scope synthetic => if scope.fsm = fsm then some synthetic else none
  | _ => none

namespace Run

theorem foldMoments_append {α : Type} (g : Run → α → Run) (moments : Run → α → List Moment)
    (r : Run) (list list' : List α) :
    foldMoments g moments r (list ++ list') =
      foldMoments g moments r list ++ foldMoments g moments (list.foldl g r) list' := by
  induction list generalizing r with
  | nil => rfl
  | cons a rest ih =>
      rw [List.cons_append, foldMoments, foldMoments, ih, List.append_assoc]
      rfl

theorem Concerns.filterMap_emittedBy? {fsm : String} {index : Nat} {ms : List Moment}
    (h : Concerns fsm index ms) :
    ms.filterMap (Moment.emittedBy? fsm) = ms.filterMap fun m => m.act.emitted? := by
  apply List.filterMap_congr
  intro m hm
  have hwithin := h m hm
  rw [Moment.emittedBy?]
  cases hact : m.act with
  | emit scope synthetic =>
      rw [hact] at hwithin
      exact if_pos hwithin
  | _ => rfl

theorem Concerns.filterMap_emittedBy?_of_ne {fsm other : String} {index : Nat} {ms : List Moment}
    (h : Concerns other index ms) (hne : fsm ≠ other) :
    ms.filterMap (Moment.emittedBy? fsm) = [] := by
  rw [List.filterMap_eq_nil_iff]
  intro m hm
  have hwithin := h m hm
  rw [Moment.emittedBy?]
  cases hact : m.act with
  | emit scope synthetic =>
      rw [hact] at hwithin
      exact if_neg fun heq => hne (heq.symm.trans hwithin)
  | _ => rfl

def InStep (f : FsmDefinition) (index : Nat) (time : Int64) (r r' : Run) : Prop :=
  Lockstep f index time r.emitted.toList r'.emitted.toList r r'

/-- Two runs are in step after some moments of the one, and the other one has emitted since what
the fsm has emitted in these moments. -/
structure Tandem (f : FsmDefinition) (index : Nat) (time : Int64) (r' : Run) (ms : List Moment)
    (next next' : Run) : Prop where
  inStep : InStep f index time next next'
  emitted : next'.emitted.toList = r'.emitted.toList ++ ms.filterMap (Moment.emittedBy? f.id)

section Tandem

variable {f : FsmDefinition} {index : Nat} {time time' : Int64} {sent sent' : List SyntheticEvent}
  {r r' next next' last last' : Run} {ms ms' : List Moment} {event : Option Event}

theorem Lockstep.inStep (h : Lockstep f index time sent sent' r r') : InStep f index time r r' :=
  ⟨h.left, h.right, h.locale, h.kindred, h.recorded, [], by simp, by simp⟩

theorem Tandem.nil (h : InStep f index time r r') : Tandem f index time r' [] r r' :=
  ⟨h, by simp⟩

theorem Tandem.append (h : Tandem f index time r' ms next next')
    (h' : Tandem f index time' next' ms' last last') :
    Tandem f index time' r' (ms ++ ms') last last' := by
  refine ⟨h'.inStep, ?_⟩
  rw [h'.emitted, h.emitted, List.filterMap_append, List.append_assoc]

theorem Tandem.own
    (hnext : Lockstep f index time r.emitted.toList r'.emitted.toList next next')
    (hpath : Path event r ms next) (hconcerns : Concerns f.id index ms) :
    Tandem f index time r' ms next next' := by
  refine ⟨hnext.inStep, ?_⟩
  obtain ⟨own, hown, hown'⟩ := hnext.emitted
  have hemitted := hpath.trace.emitted_eq
  rw [hown, List.append_cancel_left_eq] at hemitted
  rw [hown', hemitted, hconcerns.filterMap_emittedBy?]

theorem InStep.untouched (h : InStep f index time r r') (hpath : Path event r ms next)
    {g : FsmDefinition} {j : Nat} (hg : r.defs.fsms[j]? = some g) (hne : index ≠ j)
    (hconcerns : Concerns g.id j ms) (htime : ∀ e, event = some e → e.nanos ≤ time) :
    Untouched f index r next := by
  apply Untouched.of_path hpath h.left h.kindred.here hg hne hconcerns
  rw [h.recorded.endTime]
  exact htime

theorem Tandem.other (h : InStep f index time r r') (hpath : Path event r ms next)
    {g : FsmDefinition} {j : Nat} (hg : r.defs.fsms[j]? = some g) (hne : index ≠ j)
    (hconcerns : Concerns g.id j ms) (htime : ∀ e, event = some e → e.nanos ≤ time) :
    Tandem f index time r' ms next r' := by
  have hid : f.id ≠ g.id := fun heq =>
    hne (DefinitionSet.index_inj h.left.nodup_ids h.kindred.here hg heq)
  have huntouched := h.untouched hpath hg hne hconcerns htime
  refine ⟨⟨h.left.of_path hpath, h.right, ?_, ?_, ?_, [], by simp, by simp⟩, ?_⟩
  · rw [huntouched.defs]
    exact h.locale
  · refine h.kindred.congr huntouched.toSteady ⟨rfl, rfl, rfl, rfl, rfl⟩ huntouched.schedule rfl ?_
    rintro id id' ⟨s, s', hs, hs', halike, hfsm⟩
    exact ⟨s, s', huntouched.scenario? id s hs hfsm, hs', halike, hfsm⟩
  · exact h.recorded.of_untouched huntouched
  · rw [hconcerns.filterMap_emittedBy?_of_ne hid, List.append_nil]

theorem Tandem.single {act : Act} (r : Run)
    (hnext : InStep f index time next next') (hemitted : next'.emitted = r'.emitted)
    (hact : act.emitted? = none) : Tandem f index time r' [⟨r, event, act⟩] next next' := by
  refine ⟨hnext, ?_⟩
  rw [hemitted]
  cases act with
  | emit scope synthetic => cases hact
  | _ => exact (List.append_nil _).symm

theorem Tandem.guard
    (h : Tandem f index time r' ms next next') (h' : Tandem f index time next' ms' last last')
    (p : Bool) :
    Tandem f index time r' (ms ++ if p then ms' else []) (if p then last else next)
      (if p then last' else next') := by
  cases p with
  | false => exact h.append (.nil h.inStep)
  | true => exact h.append h'

theorem Tandem.fold {α : Type} {g g' : Run → α → Run} {moments : Run → α → List Moment}
    {P : Run → Run → Prop} {list : List α}
    (step : ∀ r r', ∀ a ∈ list, InStep f index time r r' → P r r' →
      Tandem f index time r' (moments r a) (g r a) (g' r' a) ∧ P (g r a) (g' r' a))
    (h : InStep f index time r r') (hp : P r r') :
    Tandem f index time r' (foldMoments g moments r list) (list.foldl g r) (list.foldl g' r') ∧
      P (list.foldl g r) (list.foldl g' r') := by
  induction list generalizing r r' with
  | nil => exact ⟨.nil h, hp⟩
  | cons a rest ih =>
      obtain ⟨hfirst, hpfirst⟩ := step r r' a List.mem_cons_self h hp
      obtain ⟨hrest, hplast⟩ :=
        ih (fun r r' b hb => step r r' b (List.mem_cons_of_mem _ hb)) hfirst.inStep hpfirst
      exact ⟨hfirst.append hrest, hplast⟩

theorem foldl_at {α β : Type} [DecidableEq α] (s : β → β) (a : α) (list : List α) (x : β) :
    list.foldl (fun x b => if b = a then s x else x) x = s^[list.count a] x := by
  induction list generalizing x with
  | nil => rfl
  | cons b rest ih =>
      rw [List.foldl_cons, ih]
      rcases eq_or_ne b a with rfl | hne
      · rw [if_pos rfl, List.count_cons_self, Function.iterate_succ_apply]
      · rw [if_neg hne, List.count_cons_of_ne hne]

theorem InStep.length_eq_one (h : InStep f index time r r') : r'.fsms.length = 1 := by
  rw [h.right.scheduled.length, h.kindred.defs]
  rfl

theorem InStep.sweep {g : Run → Nat → Run} {moments : Run → Nat → List Moment} {e : Event}
    (hpath : ∀ r i, r.Numbered → Path (some e) r (moments r i) (g r i))
    (hconcerns : ∀ r i k, r.Grounded → r.defs.Local → r.defs.fsms[i]? = some k →
      Concerns k.id i (moments r i))
    (hown : ∀ r r', InStep f index time r r' →
      Lockstep f index time r.emitted.toList r'.emitted.toList (g r index) (g r' 0))
    (h : InStep f index time r r') (htime : e.nanos ≤ time) {n : Nat}
    (hn : r.fsms.length = n) :
    Tandem f index time r' (foldMoments g moments r (List.range n)) ((List.range n).foldl g r)
      (g r' 0) ∧ ((List.range n).foldl g r).fsms.length = n := by
  obtain rfl : r.defs.fsms.length = n := h.left.scheduled.length.symm.trans hn
  have hfold : Tandem f index time r' (foldMoments g moments r (List.range r.defs.fsms.length))
      ((List.range r.defs.fsms.length).foldl g r)
      ((List.range r.defs.fsms.length).foldl (fun r' i => if i = index then g r' 0 else r') r') ∧
        ((List.range r.defs.fsms.length).foldl g r).defs = r.defs :=
    Tandem.fold (P := fun r₁ _ => r₁.defs = r.defs) (fun r₁ r₁' i hi h₁ hdefs => by
      have hsteps := hpath r₁ i h₁.left.numbered
      obtain ⟨k, hk⟩ : ∃ k, r₁.defs.fsms[i]? = some k := by
        rw [hdefs]
        exact ⟨_, List.getElem?_eq_getElem (List.mem_range.mp hi)⟩
      have habout := hconcerns r₁ i _ h₁.left h₁.locale hk
      refine ⟨?_, hsteps.follows.defs.trans hdefs⟩
      rcases eq_or_ne i index with rfl | hne
      · rw [if_pos rfl]
        rw [Option.some.inj (hk.symm.trans h₁.kindred.here)] at habout
        exact .own (hown r₁ r₁' h₁) hsteps habout
      · rw [if_neg hne]
        refine .other h₁ hsteps hk hne.symm habout fun e' he => ?_
        obtain rfl := Option.some.inj he
        exact htime) h rfl
  have hindex : index ∈ List.range r.defs.fsms.length :=
    List.mem_range.mpr (List.getElem?_eq_some_iff.mp h.kindred.here).1
  rw [foldl_at (fun r' => g r' 0), List.count_eq_one_of_mem List.nodup_range hindex] at hfold
  refine ⟨hfold.1, ?_⟩
  rw [hfold.1.inStep.left.scheduled.length, hfold.2]

end Tandem

end Run

end TraceAutomata
