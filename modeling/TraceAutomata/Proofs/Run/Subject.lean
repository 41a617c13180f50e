import Mathlib.Algebra.GroupWithZero.Nat
import TraceAutomata.Proofs.Run.Call

namespace TraceAutomata

namespace Moment

def About (P : ScenarioId → Prop) (m : Moment) : Prop :=
  match m.act with
  | .handle id => P id
  | .receive _ s | .enter _ _ s _ | .cancel s => P s.id
  | .operate scope _ | .change scope _ _ | .save scope _ _ | .emit scope _ =>
      ∃ s, m.run.scenario? s.id = some s ∧ s.scope = scope ∧ P s.id
  | _ => True

/-- If the act changes a state, an action of the definitions asks for it. -/
def Asked (m : Moment) : Prop :=
  match m.act with
  | .change _ names _ => ∃ ctx id ops path value, m.run.defs.action id = .ok ops ∧
      Operation.stateChange path value ∈ ops ∧ AttributePath.names ctx path = .ok names
  | _ => True

def transitions (id : ScenarioId) (m : Moment) : Nat :=
  match m.act with
  | .enter _ _ s _ => if s.id = id then 1 else 0
  | _ => 0

def allowance (id : ScenarioId) (m : Moment) : Nat :=
  match m.act with
  | .handle x => if x = id then m.run.chainLimit id + 1 else 0
  | _ => 0

theorem About.mono {P Q : ScenarioId → Prop} {m : Moment} (h : m.About P)
    (hPQ : ∀ id, P id → Q id) : m.About Q := by
  obtain ⟨r, event, act⟩ := m
  cases act with
  | handle id => exact hPQ id h
  | receive f s => exact hPQ s.id h
  | enter index f s next => exact hPQ s.id h
  | cancel s => exact hPQ s.id h
  | operate scope op =>
      obtain ⟨s, hs, hscope, hid⟩ := h
      exact ⟨s, hs, hscope, hPQ s.id hid⟩
  | change scope names value =>
      obtain ⟨s, hs, hscope, hid⟩ := h
      exact ⟨s, hs, hscope, hPQ s.id hid⟩
  | save scope slot value =>
      obtain ⟨s, hs, hscope, hid⟩ := h
      exact ⟨s, hs, hscope, hPQ s.id hid⟩
  | emit scope synthetic =>
      obtain ⟨s, hs, hscope, hid⟩ := h
      exact ⟨s, hs, hscope, hPQ s.id hid⟩
  | _ => trivial

end Moment

namespace Run

def total (f : Moment → Nat) (ms : List Moment) : Nat :=
  (ms.map f).sum

@[simp] theorem total_nil (f : Moment → Nat) : total f [] = 0 := rfl

@[simp] theorem total_cons (f : Moment → Nat) (m : Moment) (ms : List Moment) :
    total f (m :: ms) = f m + total f ms := by
  rw [total, List.map_cons, List.sum_cons, total]

@[simp] theorem total_append (f : Moment → Nat) (ms ms' : List Moment) :
    total f (ms ++ ms') = total f ms + total f ms' := by
  rw [total, List.map_append, List.sum_append, total, total]

/-- The acts are about one scenario and those that have been started since. No scenario takes more
transitions than it is allowed, but for some further ones of that scenario. -/
structure Tends (own : Option ScenarioId) (further since : Nat) (ms : List Moment) : Prop where
  about : ∀ m ∈ ms, m.About fun id => own = some id ∨ since < id
  asked : ∀ m ∈ ms, m.Asked
  transitions : ∀ id, total (·.transitions id) ms ≤
    total (·.allowance id) ms + if own = some id then further else 0

namespace Tends

variable {own : Option ScenarioId} {further further' since since' : Nat} {ms ms' : List Moment}

theorem nil (own : Option ScenarioId) (further since : Nat) : Tends own further since [] :=
  ⟨List.forall_mem_nil _, List.forall_mem_nil _, fun _ => Nat.zero_le _⟩

theorem append (h : Tends own further since ms) (h' : Tends own further' since ms') :
    Tends own (further + further') since (ms ++ ms') where
  about := List.forall_mem_append.mpr ⟨h.about, h'.about⟩
  asked := List.forall_mem_append.mpr ⟨h.asked, h'.asked⟩
  transitions id := by
    have hfirst := h.transitions id
    have hrest := h'.transitions id
    rw [total_append, total_append]
    by_cases hown : own = some id
    · simp only [if_pos hown] at hfirst hrest ⊢
      omega
    · simp only [if_neg hown] at hfirst hrest ⊢
      omega

theorem single {m : Moment} (habout : m.About fun id => own = some id ∨ since < id)
    (hasked : m.Asked) (htransitions : ∀ id, m.transitions id ≤
      m.allowance id + if own = some id then further else 0) : Tends own further since [m] where
  about := List.forall_mem_singleton.mpr habout
  asked := List.forall_mem_singleton.mpr hasked
  transitions id := by simpa using htransitions id

theorem quiet {m : Moment} (habout : m.About fun id => own = some id ∨ since < id)
    (hasked : m.Asked) (hnone : ∀ id, m.transitions id = 0) : Tends own 0 since [m] :=
  single habout hasked fun id => by rw [hnone]; exact Nat.zero_le _

theorem cons {m : Moment} (hm : Tends own 0 since [m]) (h : Tends own further since ms) :
    Tends own further since (m :: ms) :=
  Nat.zero_add further ▸ hm.append h

theorem mono (h : Tends own further since' ms) (hle : since ≤ since') :
    Tends own further since ms where
  about m hm := (h.about m hm).mono fun _ hid => hid.imp_right (Nat.lt_of_le_of_lt hle)
  asked := h.asked
  transitions := h.transitions

theorem weaken (h : Tends none 0 since ms) (own : Option ScenarioId) : Tends own 0 since ms where
  about m hm := (h.about m hm).mono fun _ hid =>
    .inr (hid.resolve_left (Option.some_ne_none _).symm)
  asked := h.asked
  transitions id := by simpa using h.transitions id

theorem fold {α : Type} {f : Run → α → Run} {moments : Run → α → List Moment} {I : Run → Prop}
    {list : List α} {r : Run}
    (step : ∀ r, ∀ a ∈ list, I r → Tends own 0 since (moments r a) ∧ I (f r a)) (hr : I r) :
    Tends own 0 since (foldMoments f moments r list) := by
  induction list generalizing r with
  | nil => exact nil own 0 since
  | cons a rest ih =>
      obtain ⟨hfirst, hnext⟩ := step r a List.mem_cons_self hr
      exact hfirst.append (ih (fun r b hb => step r b (List.mem_cons_of_mem _ hb)) hnext)

end Tends

section Handling

variable {spawn : Spawn} {spawned : Run → Nat → String → List Moment} {event : Event}
  {since : Nat}

theorem tends_operation {s : Scenario} {r : Run} (hs : r.scenario? s.id = some s)
    (now : Option Event) {act : Act}
    (hact : (∃ op, act = .operate s.scope op) ∨ (∃ names value, act = .change s.scope names value) ∨
      (∃ slot value, act = .save s.scope slot value) ∨ ∃ synthetic, act = .emit s.scope synthetic)
    (hasked : (⟨r, now, act⟩ : Moment).Asked) : Tends (some s.id) 0 since [⟨r, now, act⟩] := by
  rcases hact with ⟨op, rfl⟩ | ⟨names, value, rfl⟩ | ⟨slot, value, rfl⟩ | ⟨synthetic, rfl⟩ <;>
    exact .quiet ⟨s, hs, rfl, .inl rfl⟩ hasked fun _ => rfl

theorem slots_tend {s : Scenario} {r : Run} (hs : Busy s r) (slots : List (String × Value)) :
    Tends (some s.id) 0 since (slotMoments event s.scope r slots) := by
  apply Tends.fold (I := Busy s) _ hs
  intro r entry _ hs
  exact ⟨tends_operation hs.2.1 _ (.inr (.inr (.inl ⟨_, _, rfl⟩))) trivial,
    Busy.keep (keeps_record none r _) hs⟩

variable
  (hspawn : ∀ r index parent, r.Numbered →
    Passage event none r (spawned r index parent) (spawn r index parent))
  (htends : ∀ r index parent, r.Numbered → Tends none 0 r.created (spawned r index parent))

include hspawn htends

theorem spawnAll_tends {r : Run} (hn : r.Numbered) (parent : String) (fsms : List String) :
    Tends none 0 r.created (spawnAllMoments spawn spawned parent fsms r) := by
  induction fsms generalizing r with
  | nil => exact .nil none 0 _
  | cons fsm rest ih =>
      rw [spawnAllMoments]
      cases r.defs.fsmIndex? fsm with
      | none => exact .nil none 0 _
      | some index =>
          have hkeeps := (hspawn r index parent hn).keeps
          exact (htends r index parent hn).append
            ((ih (hkeeps.numbered hn)).mono hkeeps.created_le)

theorem operate_tends {s : Scenario} {r : Run} (hs : Busy s r) (hsince : since ≤ r.created)
    {id : String} {ops : List Operation} (haction : r.defs.action id = .ok ops) {op : Operation}
    (hop : op ∈ ops) :
    Tends (some s.id) 0 since (operateMoments spawn spawned event s.scope r op) := by
  unfold operateMoments
  refine .cons (tends_operation hs.2.1 _ (.inl ⟨op, rfl⟩) trivial) ?_
  cases op with
  | stateChange path value =>
      simp only
      split
      · next names _ hnames _ =>
        exact tends_operation hs.2.1 _ (.inr (.inl ⟨_, _, rfl⟩))
          ⟨_, id, ops, path, value, haction, hop, hnames⟩
      · exact .nil _ 0 since
  | saveScratch => exact slots_tend hs _
  | clearScratch => exact slots_tend hs _
  | synthetic name fields =>
      simp only
      split
      · exact tends_operation hs.2.1 _ (.inr (.inr (.inr ⟨_, rfl⟩))) trivial
      · exact .nil _ 0 since
  | spawn fsms =>
      exact ((spawnAll_tends hspawn htends hs.1 s.scope.fsm fsms).mono hsince).weaken _

theorem action_tends {s : Scenario} {r : Run} (hs : Busy s r) (hsince : since ≤ r.created)
    (id : String) : Tends (some s.id) 0 since (actionMoments spawn spawned event s.scope r id) := by
  rw [actionMoments]
  cases haction : r.defs.action id with
  | error e => exact .nil _ 0 since
  | ok ops =>
      apply Tends.fold (I := fun q => Busy s q ∧ since ≤ q.created ∧ q.defs = r.defs) _
        ⟨hs, hsince, rfl⟩
      rintro q op hop ⟨hs, hsince, hdefs⟩
      have hkeeps := (operate_passage hspawn hs op).keeps
      exact ⟨operate_tends hspawn htends hs hsince (hdefs ▸ haction) hop, Busy.keep hkeeps hs,
        Nat.le_trans hsince hkeeps.created_le, hkeeps.defs.trans hdefs⟩

theorem actions_tend {s : Scenario} {r : Run} (hs : Busy s r) (hsince : since ≤ r.created)
    (actions : List String) :
    Tends (some s.id) 0 since (actionsMoments spawn spawned event s.id actions r) := by
  rw [actionsMoments, hs.2.1]
  apply Tends.fold (I := fun r => Busy s r ∧ since ≤ r.created) _ ⟨hs, hsince⟩
  rintro r id _ ⟨hs, hsince⟩
  have hkeeps := (action_passage hspawn hs id).keeps
  exact ⟨action_tends hspawn htends hs hsince id, Busy.keep hkeeps hs,
    Nat.le_trans hsince hkeeps.created_le⟩

theorem step_tends {r : Run} (hn : r.Numbered) (hsince : since ≤ r.created) (id : ScenarioId) :
    Tends (some id) 1 since (stepMoments spawn spawned event id r) := by
  rw [stepMoments]
  cases hfound : (r.scenario? id).filter Scenario.isLive with
  | none => exact .nil _ 1 since
  | some s =>
      obtain ⟨rfl, hs, hlive⟩ := scenario?_of_filter hfound
      simp only
      split
      · next index f hindex hf =>
        refine .cons (.quiet (.inl rfl) trivial fun _ => rfl) ?_
        split
        · exact .nil _ 1 since
        · split
          · have hbusy := busy_receive hn (f := f) hs hlive event
            have hsince' := Nat.le_trans hsince (keeps_receive r f s event).created_le
            refine (Nat.zero_add 1 ▸ (actions_tend hspawn htends hbusy hsince' _).append
              (.single (.inl rfl) trivial fun id => ?_))
            simp only [Moment.transitions, Moment.allowance, Nat.zero_add, Option.some.injEq]
            exact Nat.le_refl _
          · exact .nil _ 1 since
      · exact .nil _ 1 since

theorem chain_tends {r : Run} (hn : r.Numbered) (hsince : since ≤ r.created) (id : ScenarioId)
    (allowed : Nat) :
    Tends (some id) (allowed + 1) since (chainMoments spawn spawned event id allowed r) := by
  induction allowed generalizing r with
  | zero => exact step_tends hspawn htends hn hsince id
  | succ allowed ih =>
      have hkeeps := (step_passage hspawn hn id).keeps
      rw [chainMoments, Nat.add_comm]
      refine (step_tends hspawn htends hn hsince id).append ?_
      rcases hres : r.step spawn event id with ⟨next, outcome⟩
      rw [hres] at hkeeps
      cases outcome with
      | again => exact ih (hkeeps.numbered hn) (Nat.le_trans hsince hkeeps.created_le)
      | settled => exact .nil _ _ since
      | failed fault => exact .nil _ _ since

theorem handle_tends {r : Run} (hn : r.Numbered) (id : ScenarioId) :
    Tends (some id) 0 r.created (handleMoments spawn spawned event id r) := by
  have hchain := chain_tends hspawn htends hn (Nat.le_refl r.created) id (r.chainLimit id)
  refine ⟨List.forall_mem_cons.mpr ⟨.inl rfl, hchain.about⟩,
    List.forall_mem_cons.mpr ⟨trivial, hchain.asked⟩, fun x => ?_⟩
  have htransitions := hchain.transitions x
  simp only [handleMoments, total_cons, Moment.transitions, Moment.allowance, Option.some.injEq]
    at htransitions ⊢
  by_cases hx : id = x
  · subst hx
    simp only [if_true] at htransitions ⊢
    omega
  · simp only [if_neg hx] at htransitions ⊢
    omega

end Handling

theorem launch_tends {event : Event} {trigger : Option Event}
    (htrigger : trigger = none ∨ trigger = some event) (budget : Nat) (parent : Option String)
    {r : Run} (hn : r.Numbered) (index : Nat) :
    Tends none 0 r.created (launchMoments event budget parent trigger r index) := by
  induction budget generalizing parent trigger r index with
  | zero => exact .quiet trivial trivial fun _ => rfl
  | succ budget ih =>
      rw [launchMoments]
      refine .cons (.quiet trivial trivial fun _ => rfl) ?_
      cases hf : r.defs.fsms[index]? with
      | none => exact .nil none 0 _
      | some f =>
          cases hc : r.fsms[index]? with
          | none => exact .nil none 0 _
          | some c =>
              simp only
              split
              · split
                · exact .quiet trivial trivial fun _ => rfl
                · next subtree st hopen =>
                  refine .cons (.quiet trivial trivial fun _ => rfl) ?_
                  rcases htrigger with rfl | rfl
                  · exact .nil none 0 _
                  · have hkeeps := keeps_admitted (r := r) index f c parent event.nanos subtree st
                    have hcreated := created_admitted r index f c parent event.nanos subtree st
                    have hhandle := handle_tends
                      (fun r index parent hn =>
                        launch_passage (.inr rfl) budget (some parent) hn index)
                      (fun r index parent hn => ih (.inr rfl) (some parent) hn index)
                      (hkeeps.numbered hn)
                      (r.admitted index f c parent event.nanos subtree st).created
                    refine ⟨fun m hm => (hhandle.about m hm).mono ?_, hhandle.asked,
                      fun id => ?_⟩
                    · rintro id (hid | hid)
                      · exact .inr (by rw [← Option.some.inj hid, hcreated]; omega)
                      · exact .inr (by omega)
                    · simpa using hhandle.transitions id
              · exact .nil none 0 _

end Run

end TraceAutomata
