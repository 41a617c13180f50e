import Mathlib.Data.List.Nodup
import Mathlib.Data.List.Perm.Subperm
import Mathlib.Logic.Relation
import Mathlib.Order.WellFounded
import TraceAutomata.Definition.Compile

/-!
Moves that automatic states force. An fsm is refused exactly if from some automatic state such moves
go on forever. The search for such a state is a loop that stops when it meets a state again, and it
does stop, since there are only finitely many.
-/

namespace TraceAutomata

namespace StateDefinition

/-- An automatic state is left on every event for the target of its first transition, if that asks
for nothing. A transition back to the state itself is no move: nothing is handled again after it. -/
def Forces (s : StateDefinition) (target : String) : Prop :=
  s.automatic = true ∧ ∃ t, s.transitions.head? = some t ∧
    (∀ id ∈ t.inputs, id = TransitionInput.other) ∧ t.target = target ∧ target ≠ s.name

theorem forcedTarget?_eq_some_iff (s : StateDefinition) (target : String) :
    s.forcedTarget? = some target ↔ s.Forces target := by
  rw [forcedTarget?, Forces]
  cases s.automatic with
  | false => simp
  | true =>
      cases s.transitions.head? with
      | none => simp
      | some t =>
          have hall : t.isUnconditional = true ↔ ∀ id ∈ t.inputs, id = TransitionInput.other := by
            simp [Transition.isUnconditional]
          simp only [if_true, Option.some.injEq, exists_eq_left', true_and, ← hall,
            Bool.and_eq_true, bne_iff_ne]
          constructor
          · intro h
            split at h
            · next hmoves =>
              obtain rfl := Option.some.inj h
              exact ⟨hmoves.1, rfl, hmoves.2⟩
            · cases h
          · rintro ⟨hinputs, rfl, hne⟩
            rw [if_pos ⟨hinputs, hne⟩]

end StateDefinition

namespace FsmDefinition

variable (f : FsmDefinition)

def Next (s next : StateDefinition) : Prop :=
  s.Forces next.name ∧ next ∈ f.states ∧ next.automatic = true

/-- From the state, forced moves go on forever. -/
def Endless (s : StateDefinition) : Prop :=
  ∃ chain : ℕ → StateDefinition, chain 0 = s ∧ ∀ n, f.Next (chain n) (chain (n + 1))

/-- From the state, that many forced moves follow each other. The last one may lead to any state. -/
inductive Moves : StateDefinition → ℕ → Prop
  | none (s : StateDefinition) : Moves s 0
  | last {s : StateDefinition} {target : String} (h : s.Forces target) : Moves s 1
  | more {s next : StateDefinition} {n : ℕ} (h : f.Next s next) (rest : Moves next n) :
      Moves s (n + 1)

/-- The loop that follows forced moves and remembers the names of the states that it has left, with
the number of its rounds. It stops with the name of a state that it meets again, or with none where
no move is forced or the target is not automatic. -/
inductive Loop : List String → StateDefinition → ℕ → Option String → Prop
  | rests {seen : List String} {s : StateDefinition} (h : s.forcedTarget? = none) :
      Loop seen s 0 none
  | meets {seen : List String} {s : StateDefinition} {target : String}
      (h : s.forcedTarget? = some target) (old : s.name ∈ seen) : Loop seen s 0 (some s.name)
  | leaves {seen : List String} {s : StateDefinition} {target : String}
      (h : s.forcedTarget? = some target) (new : s.name ∉ seen)
      (stops : ∀ next, f.state? target = some next → next.automatic = false) : Loop seen s 1 none
  | continues {seen : List String} {s next : StateDefinition} {target : String} {rounds : ℕ}
      {result : Option String} (h : s.forcedTarget? = some target) (new : s.name ∉ seen)
      (found : f.state? target = some next) (automatic : next.automatic = true)
      (rest : Loop (s.name :: seen) next rounds result) : Loop seen s (rounds + 1) result

variable {f}

theorem eq_of_name (hnodup : (f.states.map (·.name)).Nodup) {s s' : StateDefinition}
    (hs : s ∈ f.states) (hs' : s' ∈ f.states) (h : s.name = s'.name) : s = s' :=
  List.inj_on_of_nodup_map hnodup hs hs' h

theorem state?_of_mem (hnodup : (f.states.map (·.name)).Nodup) {s : StateDefinition}
    (hs : s ∈ f.states) : f.state? s.name = some s := by
  rw [state?]
  cases hfound : f.states.find? fun other => other.name == s.name with
  | none => simpa using List.find?_eq_none.mp hfound s hs
  | some other =>
      have hname : other.name = s.name := by simpa using List.find?_some hfound
      rw [eq_of_name hnodup (List.mem_of_find?_eq_some hfound) hs hname]

theorem next_iff (hnodup : (f.states.map (·.name)).Nodup) (s next : StateDefinition) :
    f.Next s next ↔ ∃ target, s.forcedTarget? = some target ∧ f.state? target = some next ∧
      next.automatic = true := by
  constructor
  · rintro ⟨hforces, hmem, hautomatic⟩
    exact ⟨next.name, (s.forcedTarget?_eq_some_iff _).mpr hforces, state?_of_mem hnodup hmem,
      hautomatic⟩
  · rintro ⟨target, htarget, hfound, hautomatic⟩
    have hname : next.name = target := by simpa using List.find?_some hfound
    subst hname
    exact ⟨(s.forcedTarget?_eq_some_iff _).mp htarget, List.mem_of_find?_eq_some hfound, hautomatic⟩

theorem endless_iff_not_acc (s : StateDefinition) :
    f.Endless s ↔ ¬ Acc (Function.swap f.Next) s :=
  (not_acc_iff_exists_descending_chain (r := Function.swap f.Next)).symm

theorem Endless.of_next {s next : StateDefinition} (hnodup : (f.states.map (·.name)).Nodup)
    (hnext : f.Next s next) (h : f.Endless s) : f.Endless next := by
  obtain ⟨chain, rfl, hchain⟩ := h
  obtain ⟨target, htarget, hfound, -⟩ := (next_iff hnodup _ _).mp hnext
  obtain ⟨target', htarget', hfound', -⟩ := (next_iff hnodup _ _).mp (hchain 0)
  rw [htarget, Option.some.injEq] at htarget'
  rw [← htarget', hfound, Option.some.injEq] at hfound'
  exact ⟨fun n => chain (n + 1), hfound'.symm, fun n => hchain (n + 1)⟩

theorem endless_of_cycle {s c : StateDefinition} (hway : Relation.ReflTransGen f.Next s c)
    (hcycle : Relation.TransGen f.Next c c) : f.Endless s := by
  rw [endless_iff_not_acc]
  intro hacc
  have hc : Acc (Function.swap f.Next) c := by
    clear hcycle
    induction hway with
    | refl => exact hacc
    | tail _ hnext ih => exact ih.inv hnext
  have hirrefl : ∀ c, Acc (Relation.TransGen (Function.swap f.Next)) c →
      ¬ Relation.TransGen (Function.swap f.Next) c c := by
    intro c h
    induction h with
    | intro c _ ih => exact fun hself => ih c hself hself
  exact hirrefl c hc.transGen (Relation.transGen_swap.mpr hcycle)

/-- What the search finds lies on a cycle that is reached from its start. The states that were left
before are known to lead to the present one. -/
theorem cycle_of_findCycle (hnodup : (f.states.map (·.name)).Nodup) {unvisited : List String}
    {s : StateDefinition} {name : String} (hs : s ∈ f.states)
    (hleft : ∀ x ∈ f.states, x.name ∉ unvisited → Relation.TransGen f.Next x s)
    (h : f.findCycle unvisited s = some name) :
    ∃ c ∈ f.states, c.name = name ∧ Relation.ReflTransGen f.Next s c ∧
      Relation.TransGen f.Next c c := by
  fun_induction findCycle f unvisited s with
  | case1 => cases h
  | case2 unvisited s target htarget hmem next hfound hautomatic ih =>
      have hnext : f.Next s next :=
        (next_iff hnodup s next).mpr ⟨target, htarget, hfound, hautomatic⟩
      have hleft' : ∀ x ∈ f.states, x.name ∉ unvisited.erase s.name →
          Relation.TransGen f.Next x next := by
        intro x hx hnot
        by_cases hxs : x.name = s.name
        · rw [eq_of_name hnodup hx hs hxs]
          exact .single hnext
        · exact .tail (hleft x hx fun hmem => hnot ((List.mem_erase_of_ne hxs).mpr hmem)) hnext
      obtain ⟨c, hc, hname, hway, hcycle⟩ := ih hnext.2.1 hleft' h
      exact ⟨c, hc, hname, .head hnext hway, hcycle⟩
  | case3 => cases h
  | case4 => cases h
  | case5 unvisited s target htarget hnot =>
      obtain rfl := Option.some.inj h
      exact ⟨s, hs, rfl, .refl, hleft s hs hnot⟩

theorem not_endless_of_findCycle (hnodup : (f.states.map (·.name)).Nodup)
    {unvisited : List String} {s : StateDefinition} (h : f.findCycle unvisited s = none) :
    ¬ f.Endless s := by
  have hstays : ∀ {s : StateDefinition}, (∀ target next, s.forcedTarget? = some target →
      f.state? target = some next → next.automatic = false) → ¬ f.Endless s := by
    rintro s hnone ⟨chain, rfl, hchain⟩
    obtain ⟨target, htarget, hfound, hautomatic⟩ := (next_iff hnodup _ _).mp (hchain 0)
    rw [hnone target _ htarget hfound] at hautomatic
    cases hautomatic
  fun_induction findCycle f unvisited s with
  | case1 unvisited s hrests =>
      refine hstays fun target next htarget _ => ?_
      rw [hrests] at htarget
      cases htarget
  | case2 unvisited s target htarget hmem next hfound hautomatic ih =>
      have hnext : f.Next s next :=
        (next_iff hnodup s next).mpr ⟨target, htarget, hfound, hautomatic⟩
      exact fun hendless => ih h (hendless.of_next hnodup hnext)
  | case3 unvisited s target htarget hmem next hfound hmanual =>
      refine hstays fun target' next' htarget' hfound' => ?_
      obtain rfl := Option.some.inj (htarget.symm.trans htarget')
      obtain rfl := Option.some.inj (hfound.symm.trans hfound')
      exact eq_false_of_ne_true hmanual
  | case4 unvisited s target htarget hmem hunknown =>
      refine hstays fun target' next' htarget' hfound' => ?_
      obtain rfl := Option.some.inj (htarget.symm.trans htarget')
      rw [hunknown] at hfound'
      cases hfound'
  | case5 => cases h

theorem cycle_of_search (hnodup : (f.states.map (·.name)).Nodup) {s : StateDefinition}
    {name : String} (hs : s ∈ f.states)
    (h : f.findCycle (f.states.map (·.name)) s = some name) :
    ∃ c ∈ f.states, c.name = name ∧ Relation.ReflTransGen f.Next s c ∧
      Relation.TransGen f.Next c c :=
  cycle_of_findCycle hnodup hs (fun _ hx hnot => (hnot (List.mem_map_of_mem hx)).elim) h

theorem checkCycles_eq_ok_iff (hnodup : (f.states.map (·.name)).Nodup) :
    f.checkCycles = .ok () ↔ ∀ s ∈ f.states, s.automatic = true → ¬ f.Endless s := by
  rw [checkCycles]
  split
  · next name hfound =>
    obtain ⟨s, hs, hname⟩ := List.exists_of_findSome?_eq_some hfound
    obtain ⟨hs, hautomatic⟩ := List.mem_filter.mp hs
    obtain ⟨c, -, -, hway, hcycle⟩ := cycle_of_search hnodup hs hname
    simp only [reduceCtorEq, false_iff]
    exact fun hall => hall s hs hautomatic (endless_of_cycle hway hcycle)
  · next hnone =>
    simp only [true_iff]
    intro s hs hautomatic
    have hsearch : f.findCycle (f.states.map (·.name)) s = none :=
      List.findSome?_eq_none_iff.mp hnone s (List.mem_filter.mpr ⟨hs, hautomatic⟩)
    exact not_endless_of_findCycle hnodup hsearch

theorem exists_checkCycles_eq_error (hnodup : (f.states.map (·.name)).Nodup)
    (h : f.checkCycles ≠ .ok ()) :
    ∃ c ∈ f.states, f.checkCycles = .error (.automaticCycle f.id c.name) ∧
      Relation.TransGen f.Next c c := by
  rw [checkCycles] at h ⊢
  split at h
  · next name hfound =>
    obtain ⟨s, hs, hname⟩ := List.exists_of_findSome?_eq_some hfound
    obtain ⟨c, hc, rfl, -, hcycle⟩ := cycle_of_search hnodup (List.mem_filter.mp hs).1 hname
    exact ⟨c, hc, rfl, hcycle⟩
  · exact (h rfl).elim

theorem Moves.exists_left {s : StateDefinition} {n : ℕ} (h : f.Moves s n) (hs : s ∈ f.states) :
    ∃ left : List StateDefinition, left.length = n ∧ left ⊆ f.states ∧
      left.Pairwise (Relation.TransGen f.Next) ∧
      ∀ x ∈ left, Relation.ReflTransGen f.Next s x := by
  induction h with
  | none s => exact ⟨[], rfl, List.nil_subset _, .nil, List.forall_mem_nil _⟩
  | @last s target =>
      refine ⟨[s], rfl, List.cons_subset.mpr ⟨hs, List.nil_subset _⟩, List.pairwise_singleton _ _,
        ?_⟩
      intro x hx
      rw [List.mem_singleton.mp hx]
  | @more s next n hnext _ ih =>
      obtain ⟨left, hlength, hsubset, hpairwise, hway⟩ := ih hnext.2.1
      refine ⟨s :: left, congrArg (· + 1) hlength, List.cons_subset.mpr ⟨hs, hsubset⟩,
        List.pairwise_cons.mpr ⟨fun x hx => .head' hnext (hway x hx), hpairwise⟩, ?_⟩
      intro x hx
      rcases List.mem_cons.mp hx with rfl | hx
      · exact .refl
      · exact .head hnext (hway x hx)

theorem Moves.le_length (hall : ∀ s ∈ f.states, s.automatic = true → ¬ f.Endless s)
    {s : StateDefinition} {n : ℕ} (hs : s ∈ f.states) (h : f.Moves s n) :
    n ≤ f.states.length := by
  obtain ⟨left, rfl, hsubset, hpairwise, -⟩ := h.exists_left hs
  have hirrefl : ∀ x ∈ f.states, ¬ Relation.TransGen f.Next x x := by
    intro x hx hcycle
    obtain ⟨next, hnext, -⟩ := Relation.TransGen.head'_iff.mp hcycle
    exact hall x hx hnext.1.1 (endless_of_cycle .refl hcycle)
  have hnodup : left.Nodup := by
    refine hpairwise.imp_of_mem fun {x y} hx _ hxy heq => ?_
    exact hirrefl x (hsubset hx) (heq ▸ hxy)
  exact (hnodup.subperm hsubset).length_le

theorem Loop.unique {seen : List String} {s : StateDefinition} {rounds rounds' : ℕ}
    {result result' : Option String} (h : f.Loop seen s rounds result)
    (h' : f.Loop seen s rounds' result') : rounds' = rounds ∧ result' = result := by
  induction h generalizing rounds' result' with
  | rests h => cases h' <;> simp_all
  | meets h old => cases h' <;> simp_all
  | leaves h new stops => cases h' <;> simp_all
  | continues h new found automatic _ ih =>
      cases h' with
      | continues h' _ found' _ rest' =>
          obtain rfl := Option.some.inj (h.symm.trans h')
          obtain rfl := Option.some.inj (found.symm.trans found')
          obtain ⟨rfl, rfl⟩ := ih rest'
          exact ⟨rfl, rfl⟩
      | rests | meets | leaves => simp_all

/-- The loop ends with what the search gives. Each of its rounds leaves a state that it has not left
before. -/
theorem exists_loop {unvisited seen : List String} {s : StateDefinition} (hs : s ∈ f.states)
    (hunvisited : unvisited.Nodup)
    (hseen : ∀ x ∈ f.states, x.name ∈ seen ↔ x.name ∉ unvisited) :
    ∃ rounds ≤ unvisited.length, f.Loop seen s rounds (f.findCycle unvisited s) := by
  have hnew : s.name ∈ unvisited → s.name ∉ seen := fun hmem hold => (hseen s hs).mp hold hmem
  fun_induction findCycle f unvisited s generalizing seen with
  | case1 unvisited s hrests => exact ⟨0, Nat.zero_le _, .rests hrests⟩
  | case2 unvisited s target htarget hmem next hfound hautomatic ih =>
      have hseen' : ∀ x ∈ f.states, x.name ∈ s.name :: seen ↔ x.name ∉ unvisited.erase s.name := by
        intro x hx
        rw [List.mem_cons, hunvisited.mem_erase_iff, hseen x hx]
        tauto
      obtain ⟨rounds, hle, hloop⟩ := ih (List.mem_of_find?_eq_some hfound)
        (hunvisited.erase _) hseen' fun hmem' hold =>
          (hseen' next (List.mem_of_find?_eq_some hfound)).mp hold hmem'
      rw [List.length_erase_of_mem hmem] at hle
      have hpos := List.length_pos_of_mem hmem
      exact ⟨rounds + 1, by omega, .continues htarget (hnew hmem) hfound hautomatic hloop⟩
  | case3 unvisited s target htarget hmem next hfound hmanual =>
      refine ⟨1, List.length_pos_of_mem hmem, .leaves htarget (hnew hmem) fun next' hfound' => ?_⟩
      obtain rfl := Option.some.inj (hfound.symm.trans hfound')
      exact eq_false_of_ne_true hmanual
  | case4 unvisited s target htarget hmem hunknown =>
      refine ⟨1, List.length_pos_of_mem hmem, .leaves htarget (hnew hmem) fun next' hfound' => ?_⟩
      rw [hunknown] at hfound'
      cases hfound'
  | case5 unvisited s target htarget hnot =>
      exact ⟨0, Nat.zero_le _, .meets htarget ((hseen s hs).mpr hnot)⟩

theorem loop_iff (hnodup : (f.states.map (·.name)).Nodup) {s : StateDefinition}
    (hs : s ∈ f.states) :
    ∃ rounds ≤ f.states.length, ∀ rounds' result, f.Loop [] s rounds' result ↔
      rounds' = rounds ∧ result = f.findCycle (f.states.map (·.name)) s := by
  have hseen : ∀ x ∈ f.states, x.name ∈ [] ↔ x.name ∉ f.states.map (·.name) := by
    intro x hx
    simp [List.mem_map_of_mem hx]
  obtain ⟨rounds, hle, hloop⟩ := exists_loop hs hnodup hseen
  refine ⟨rounds, by simpa using hle, fun rounds' result => ⟨hloop.unique, ?_⟩⟩
  rintro ⟨rfl, rfl⟩
  exact hloop

/-- The search for moves that go on forever is exact. From every state, the loop that follows the
moves ends after at most as many rounds as there are states. An fsm is refused exactly if moves go on
forever from some automatic state; if it is accepted, no more moves follow each other than there are
states. -/
theorem checkCycles_exact (f : FsmDefinition) (hnodup : (f.states.map (·.name)).Nodup) :
    (∀ s ∈ f.states, ∃ rounds ≤ f.states.length, ∀ rounds' result,
      f.Loop [] s rounds' result ↔
        rounds' = rounds ∧ result = f.findCycle (f.states.map (·.name)) s) ∧
    ((∃ state, f.checkCycles = .error (.automaticCycle f.id state)) ↔
      ∃ s ∈ f.states, s.automatic = true ∧ f.Endless s) ∧
    (f.checkCycles = .ok () ↔ ¬ ∃ s ∈ f.states, s.automatic = true ∧ f.Endless s) ∧
    (f.checkCycles = .ok () →
      ∀ s ∈ f.states, s.automatic = true → ∀ n, f.Moves s n → n ≤ f.states.length) := by
  have haccepts := checkCycles_eq_ok_iff hnodup
  have hok : f.checkCycles = .ok () ↔ ¬ ∃ s ∈ f.states, s.automatic = true ∧ f.Endless s := by
    simp only [haccepts, not_exists, not_and]
  refine ⟨fun s hs => loop_iff hnodup hs, ?_, hok, fun h s hs _ n hmoves => ?_⟩
  · constructor
    · rintro ⟨state, herror⟩
      by_contra hnone
      rw [hok.mpr hnone] at herror
      cases herror
    · intro hendless
      obtain ⟨c, -, herror, -⟩ := exists_checkCycles_eq_error hnodup fun h => hok.mp h hendless
      exact ⟨c.name, herror⟩
  · exact hmoves.le_length (haccepts.mp h) hs

/-- The way into a cycle is no part of it. Where the last state is not automatic, the way through all
three states ends there. -/
theorem checkCycles_exact_sample :
    let moving (name target : String) : StateDefinition :=
      { name, automatic := true, transitions := [{ inputs := ["other"], target }] }
    let f : FsmDefinition :=
      { id := "job", initial := "A", states := [moving "A" "B", moving "B" "C", moving "C" "B"] }
    let g : FsmDefinition := { f with states := [moving "A" "B", moving "B" "C", { name := "C" }] }
    (f.states.map (·.name)).Nodup ∧ f.checkCycles = .error (.automaticCycle "job" "B") ∧
      (∃ s ∈ f.states, s.automatic = true ∧ f.Endless s) ∧
      (g.states.map (·.name)).Nodup ∧ g.checkCycles = .ok () ∧
      ∀ n, g.Moves (moving "A" "B") n → n ≤ 3 := by
  intro moving f g
  have hf : (f.states.map (·.name)).Nodup := by decide
  have hg : (g.states.map (·.name)).Nodup := by decide
  have hrefused : f.checkCycles = .error (.automaticCycle "job" "B") := by cbv
  have haccepted : g.checkCycles = .ok () := by cbv
  obtain ⟨-, hendless, -, -⟩ := checkCycles_exact f hf
  obtain ⟨-, -, -, hbound⟩ := checkCycles_exact g hg
  exact ⟨hf, hrefused, hendless.mp ⟨"B", hrefused⟩, hg, haccepted,
    hbound haccepted (moving "A" "B") List.mem_cons_self rfl⟩

end FsmDefinition

end TraceAutomata
