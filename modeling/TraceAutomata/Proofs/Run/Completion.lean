import TraceAutomata.Proofs.Run.Call

/-!
The recursion of starts and steps comes to an end. Starts call for the handling of an event, and its
steps call for further starts and further steps. Here these calls are unfolded with two counters that
go up, how deeply a start is nested and how often a scenario has gone on, each of which is compared
with its limit where the recursion would go on. Every call has a finite unfolding, and its result is
that of the run.
-/

namespace TraceAutomata

/-- What is called for on the way. -/
inductive Work where
  /-- A scenario of an fsm is to be started, at some depth of nested starts. -/
  | start (depth : Nat) (parent : Option String) (trigger : Option Event) (index : Nat)
  /-- A scenario is to handle an event. -/
  | handle (depth : Nat) (event : Event) (id : ScenarioId)
  /-- A scenario that has gone on so many times is to take a step. -/
  | step (depth : Nat) (event : Event) (id : ScenarioId) (limit chained : Nat)

namespace Run

/-- A call comes to an end and leads from one run to another. While a scenario takes a step, all
starts that its actions may call for are one level deeper, and they come to an end themselves. -/
inductive Completes : Work → Run → Run → Prop
  | refuse {r : Run} {depth index : Nat} {parent : Option String} {trigger : Option Event}
      (hdepth : r.settings.spawnLimit < depth) :
      Completes (.start depth parent trigger index) r r
  | decline {r : Run} {depth index : Nat} {parent : Option String} {trigger : Option Event}
      (hdepth : depth ≤ r.settings.spawnLimit)
      (hfull : ∀ f c, r.defs.fsms[index]? = some f → r.fsms[index]? = some c →
        r.takesScenario index f c = false) : Completes (.start depth parent trigger index) r r
  | abort {r : Run} {depth index : Nat} {parent : Option String} {trigger : Option Event}
      {f : FsmDefinition} {c : FsmSchedule} {error : StoreError} {st : Store}
      (hdepth : depth ≤ r.settings.spawnLimit) (hf : r.defs.fsms[index]? = some f)
      (hc : r.fsms[index]? = some c) (htakes : r.takesScenario index f c = true)
      (hopen : History.openScenario r.root (Scenario.nameOf f.id (c.created + 1)) r.store =
        .error error st) :
      Completes (.start depth parent trigger index) r { r with store := st }
  | wait {r : Run} {depth index : Nat} {parent : Option String} {f : FsmDefinition}
      {c : FsmSchedule} {subtree : Quark} {st : Store}
      (hdepth : depth ≤ r.settings.spawnLimit) (hf : r.defs.fsms[index]? = some f)
      (hc : r.fsms[index]? = some c) (htakes : r.takesScenario index f c = true)
      (hopen : History.openScenario r.root (Scenario.nameOf f.id (c.created + 1)) r.store =
        .ok subtree st) :
      Completes (.start depth parent none index) r
        (r.admitted index f c parent r.store.endTime subtree st)
  | begin {r r' : Run} {depth index : Nat} {parent : Option String} {event : Event}
      {f : FsmDefinition} {c : FsmSchedule} {subtree : Quark} {st : Store}
      (hdepth : depth ≤ r.settings.spawnLimit) (hf : r.defs.fsms[index]? = some f)
      (hc : r.fsms[index]? = some c) (htakes : r.takesScenario index f c = true)
      (hopen : History.openScenario r.root (Scenario.nameOf f.id (c.created + 1)) r.store =
        .ok subtree st)
      (rest : Completes (.handle depth event (r.created + 1))
        (r.admitted index f c parent event.nanos subtree st) r') :
      Completes (.start depth parent (some event) index) r r'
  | handle {r r' : Run} {depth : Nat} {event : Event} {id : ScenarioId}
      (rest : Completes (.step depth event id (r.chainLimit id) 0) r r') :
      Completes (.handle depth event id) r r'
  | settle {r : Run} {depth : Nat} {event : Event} {id : ScenarioId} {limit chained : Nat}
      {spawn : Spawn}
      (hspawn : ∀ r' index parent, Follows r r' →
        Completes (.start (depth + 1) (some parent) (some event) index) r' (spawn r' index parent))
      (hstep : (r.step spawn event id).2 ≠ .again) :
      Completes (.step depth event id limit chained) r (r.step spawn event id).1
  | cut {r r' : Run} {depth : Nat} {event : Event} {id : ScenarioId} {limit chained : Nat}
      {spawn : Spawn}
      (hspawn : ∀ r' index parent, Follows r r' →
        Completes (.start (depth + 1) (some parent) (some event) index) r' (spawn r' index parent))
      (hstep : r.step spawn event id = (r', .again)) (hlimit : limit < chained + 1) :
      Completes (.step depth event id limit chained) r r'
  | again {r r' r'' : Run} {depth : Nat} {event : Event} {id : ScenarioId} {limit chained : Nat}
      {spawn : Spawn}
      (hspawn : ∀ r' index parent, Follows r r' →
        Completes (.start (depth + 1) (some parent) (some event) index) r' (spawn r' index parent))
      (hstep : r.step spawn event id = (r', .again)) (hlimit : chained + 1 ≤ limit)
      (rest : Completes (.step depth event id limit (chained + 1)) r' r'') :
      Completes (.step depth event id limit chained) r r''

/-- Nothing is started at a greater depth than is allowed. -/
theorem Completes.eq_of_deep {r r' : Run} {depth index : Nat} {parent : Option String}
    {trigger : Option Event} (h : Completes (.start depth parent trigger index) r r')
    (hdepth : r.settings.spawnLimit < depth) : r' = r := by
  cases h with
  | refuse _ => rfl
  | decline _ _ => rfl
  | abort hle => exact absurd hle (Nat.not_le_of_lt hdepth)
  | wait hle => exact absurd hle (Nat.not_le_of_lt hdepth)
  | begin hle => exact absurd hle (Nat.not_le_of_lt hdepth)

section Handling

variable {spawn : Spawn} {spawned : Run → Nat → String → List Moment} {event : Event}
  {depth : Nat} {r : Run}
  (hpassage : ∀ r index parent, r.Numbered →
    Passage event none r (spawned r index parent) (spawn r index parent))
  (hspawn : ∀ r' index parent, Follows r r' →
    Completes (.start (depth + 1) (some parent) (some event) index) r' (spawn r' index parent))

include hpassage hspawn

theorem chain_completes (hn : r.Numbered) (id : ScenarioId) {limit chained allowed : Nat}
    (hlimit : chained + allowed = limit) :
    Completes (.step depth event id limit chained) r (chain spawn event id allowed r) := by
  induction allowed generalizing r chained with
  | zero =>
      rw [chain]
      by_cases hagain : (r.step spawn event id).2 = .again
      · exact .cut hspawn (Prod.ext rfl hagain) (by omega)
      · exact .settle hspawn hagain
  | succ allowed ih =>
      have hkeeps := (step_passage hpassage hn id).keeps
      rw [chain]
      rcases hstep : r.step spawn event id with ⟨next, outcome⟩
      have hsettle : outcome ≠ .again →
          Completes (.step depth event id limit chained) r next := by
        intro hne
        have hsettled : Completes (.step depth event id limit chained) r
            (r.step spawn event id).1 :=
          .settle hspawn (by rw [hstep]; exact hne)
        rw [hstep] at hsettled
        exact hsettled
      rw [hstep] at hkeeps
      cases outcome with
      | again =>
          refine .again hspawn hstep (by omega) (ih (fun r' index parent hr' => ?_)
            (hkeeps.numbered hn) (by omega))
          exact hspawn r' index parent ((Follows.of_keeps hkeeps).trans hr')
      | settled => exact hsettle (by simp)
      | failed fault => exact hsettle (by simp)

theorem handle_completes (hn : r.Numbered) (id : ScenarioId) :
    Completes (.handle depth event id) r (handle spawn event id r) :=
  .handle (chain_completes hpassage hspawn hn id (Nat.zero_add _))

end Handling

theorem decline_of_not_takes {r : Run} {depth index : Nat} {parent : Option String}
    {trigger : Option Event} (hdepth : depth ≤ r.settings.spawnLimit)
    (h : ∀ f c, r.defs.fsms[index]? = some f → r.fsms[index]? = some c →
      ¬ r.takesScenario index f c = true) : Completes (.start depth parent trigger index) r r :=
  .decline hdepth fun f c hf hc => Bool.eq_false_iff.mpr (h f c hf hc)

theorem launch_completes {budget depth : Nat} (parent : Option String) (trigger : Option Event)
    {r : Run} (hn : r.Numbered) (hbudget : r.settings.spawnLimit + 1 - depth = budget)
    (index : Nat) :
    Completes (.start depth parent trigger index) r (launch budget parent trigger r index) := by
  -- The induction is on how many levels of nested starts are left.
  induction budget generalizing depth parent trigger r index with
  | zero => exact .refuse (by omega)
  | succ budget ih =>
      have hdepth : depth ≤ r.settings.spawnLimit := by omega
      rw [launch]
      cases hf : r.defs.fsms[index]? with
      | none => exact decline_of_not_takes hdepth fun f c hf' => by simp [hf] at hf'
      | some f =>
          cases hc : r.fsms[index]? with
          | none => exact decline_of_not_takes hdepth fun f c _ hc' => by simp [hc] at hc'
          | some c =>
              simp only
              split
              · next htakes =>
                cases hopen : History.openScenario r.root
                    (Scenario.nameOf f.id (c.created + 1)) r.store with
                | error error st => exact .abort hdepth hf hc htakes hopen
                | ok subtree st =>
                    cases trigger with
                    | none => exact .wait hdepth hf hc htakes hopen
                    | some event =>
                        have hkeeps :=
                          keeps_admitted (r := r) index f c parent event.nanos subtree st
                        refine .begin hdepth hf hc htakes hopen ?_
                        rw [← created_admitted r index f c parent event.nanos subtree st]
                        refine handle_completes (fun r index parent hn =>
                            launch_passage (.inr rfl) budget (some parent) hn index)
                          (fun r' index parent hr' => ?_) (hkeeps.numbered hn) _
                        have hn' := hr'.numbered (hkeeps.numbered hn)
                        refine ih (some parent) (some event) hn' ?_ index
                        rw [hr'.settings, hkeeps.settings]
                        omega
              · next hfull =>
                refine decline_of_not_takes hdepth fun f' c' hf' hc' => ?_
                obtain rfl : f = f' := Option.some.inj (hf.symm.trans hf')
                obtain rfl : c = c' := Option.some.inj (hc.symm.trans hc')
                exact hfull

theorem handle_spawnOn_completes {r : Run} (hn : r.Numbered) (event : Event) (id : ScenarioId) :
    Completes (.handle 0 event id) r (handle (spawnOn event) event id r) :=
  handle_completes (fun _ _ parent hn => launch_passage (.inr rfl) _ (some parent) hn _)
    (fun _ _ parent hr' => launch_completes (some parent) (some event) (hr'.numbered hn)
      (Nat.add_sub_cancel _ 1) _) hn id

end Run

end TraceAutomata
