import TraceAutomata.Proofs.Run.Supply

namespace TraceAutomata

open Run

section Shift

variable {act : Act} {i : Nat} {f : FsmDefinition} {c c' : FsmSchedule}

theorem Shift.isRoot (h : Shift act i f c c') (hroot : c.isRoot = true) : c'.isRoot = true := by
  cases h with
  | rest => exact hroot
  | appoint _ => rfl
  | takeDue _ => exact hroot
  | enroll _ => exact hroot
  | moves _ _ => rwa [isRoot_counted]
  | ends _ => rwa [FsmSchedule.isRoot_rearmed, isRoot_counted]
  | cancel _ _ => rwa [FsmSchedule.isRoot_rearmed]

theorem live_or_startNext_rearmed (hroot : c.isRoot = true) :
    0 < c.rearmed.live ∨ c.rearmed.startNext = true := by
  rw [FsmSchedule.live_rearmed, FsmSchedule.startNext_rearmed, hroot]
  rcases Nat.eq_zero_or_pos c.live with hzero | hpos
  · exact .inr (by simp [hzero])
  · exact .inl hpos

theorem Shift.live (h : Shift act i f c c') (hact : act ≠ .takeDue i)
    (hle : c.matched + c.abandoned ≤ c.created) (hroot : c.isRoot = true)
    (hs : 0 < c.live ∨ c.startNext = true) : 0 < c'.live ∨ c'.startNext = true := by
  cases h with
  | rest => exact hs
  | appoint _ => exact hs
  | takeDue h => exact (hact h).elim
  | enroll _ => exact .inl (Nat.sub_pos_of_lt (Nat.lt_succ_of_le hle))
  | moves _ hgoes =>
      rw [live_counted _ _ _ _ hgoes, startNext_counted, Bool.or_eq_true]
      exact hs.imp_right .inl
  | ends _ => exact live_or_startNext_rearmed ((isRoot_counted _ _ _ c).trans hroot)
  | cancel _ _ => exact live_or_startNext_rearmed hroot

theorem waiting_or_startNext_counted {left : Bool} {status : ScenarioStatus}
    (hconc : f.concurrent = true) (hs : 0 < c.waiting ∨ c.startNext = true) :
    0 < (counted f left status c).waiting ∨ (counted f left status c).startNext = true := by
  rw [waiting_counted, startNext_counted, hconc]
  cases left with
  | false => simpa using hs
  | true => exact .inr (by simp)

theorem waiting_or_startNext_rearmed (hs : 0 < c.waiting ∨ c.startNext = true) :
    0 < c.rearmed.waiting ∨ c.rearmed.startNext = true := by
  rw [FsmSchedule.waiting_rearmed, FsmSchedule.startNext_rearmed, Bool.or_eq_true]
  exact hs.imp_right .inl

theorem Shift.waiting (h : Shift act i f c c') (hact : act ≠ .takeDue i)
    (hconc : f.concurrent = true) (hroot : c.isRoot = true)
    (hcancel : ∀ s, act = .cancel s → s.fsm = f.id → s.isWaiting = true →
      c.live ≤ 1 ∨ c.startNext = true)
    (hs : 0 < c.waiting ∨ c.startNext = true) : 0 < c'.waiting ∨ c'.startNext = true := by
  cases h with
  | rest => exact hs
  | appoint _ => exact hs
  | takeDue h => exact (hact h).elim
  | enroll _ => exact .inl (Nat.succ_pos _)
  | moves _ _ => exact waiting_or_startNext_counted hconc hs
  | ends _ => exact waiting_or_startNext_rearmed (waiting_or_startNext_counted hconc hs)
  | @cancel s h hfsm =>
      by_cases hwaiting : s.isWaiting = true
      · rw [if_pos hwaiting]
        rcases hcancel s h hfsm hwaiting with hlast | hdue
        · refine .inr ?_
          have hidle : c.created - (c.matched + (c.abandoned + 1)) = 0 := by
            rw [FsmSchedule.live] at hlast
            omega
          simp [FsmSchedule.live, hroot, hidle]
        · exact waiting_or_startNext_rearmed (.inr hdue)
      · rw [if_neg hwaiting]
        exact waiting_or_startNext_rearmed hs

end Shift

/-- A count that tells whether an fsm needs another scenario: it is positive if the fsm takes none,
and no act of a visit uses it up without another start becoming due. -/
structure Gauge (f : FsmDefinition) (stock : FsmSchedule → Nat) : Prop where
  settled : ∀ {r : Run} {i : Nat} {c : FsmSchedule}, r.Grounded → r.defs.fsms[i]? = some f →
    r.fsms[i]? = some c → r.takesScenario i f c = false → 0 < stock c
  visiting : ∀ {act : Act} {i : Nat} {c c' : FsmSchedule}, Shift act i f c c' → act.Visiting →
    c.matched + c.abandoned ≤ c.created → c.isRoot = true →
    0 < stock c ∨ c.startNext = true → 0 < stock c' ∨ c'.startNext = true

theorem gauge_live (f : FsmDefinition) : Gauge f FsmSchedule.live where
  settled hground hf hc htakes := by
    rw [takesScenario, Bool.or_eq_false_iff, beq_eq_false_iff_ne,
      hground.scheduled.liveCount_eq hf hc] at htakes
    exact Nat.pos_of_ne_zero htakes.1
  visiting h hvisiting hle hroot hs := h.live (by rintro rfl; exact hvisiting) hle hroot hs

theorem gauge_waiting {f : FsmDefinition} (hconc : f.concurrent = true) :
    Gauge f FsmSchedule.waiting where
  settled _ _ _ htakes := by
    rw [takesScenario, hconc, Bool.true_and, Bool.or_eq_false_iff, beq_eq_false_iff_ne,
      beq_eq_false_iff_ne] at htakes
    exact Nat.pos_of_ne_zero htakes.2
  visiting h hvisiting _ hroot hs := by
    refine h.waiting (by rintro rfl; exact hvisiting) hconc hroot ?_ hs
    rintro s rfl
    exact hvisiting.elim

namespace Run

/-- The fsm at a place is an initial one, and the count of its scenarios is positive. -/
def Stocked (r : Run) (i : Nat) (stock : FsmSchedule → Nat) : Prop :=
  ∃ c, r.fsms[i]? = some c ∧ c.isRoot = true ∧ 0 < stock c

/-- The fsm at a place is an initial one, and the count of its scenarios is positive or another start
is due. -/
def Supplied (r : Run) (i : Nat) (stock : FsmSchedule → Nat) : Prop :=
  ∃ c, r.fsms[i]? = some c ∧ c.isRoot = true ∧ (0 < stock c ∨ c.startNext = true)

theorem Stocked.supplied {r : Run} {i : Nat} {stock : FsmSchedule → Nat} (h : r.Stocked i stock) :
    r.Supplied i stock := by
  obtain ⟨c, hc, hroot, hpos⟩ := h
  exact ⟨c, hc, hroot, .inl hpos⟩

theorem getElem?_launchRoot_of_ne {r : Run} {i j : Nat} (hi : i ≠ j) :
    (r.launchRoot j).fsms[i]? = r.fsms[i]? := by
  rw [launchRoot, launch]
  split
  · next f c hf hc =>
    split
    · simp only
      split
      · rfl
      · rw [addScenario, getElem?_modifyFsm_of_ne hi]
        exact congrArg (fun fsms : List FsmSchedule => fsms[i]?) (record_fsms _ _)
    · rfl
  · rfl

theorem foldl_reaches {α β : Type} {g : β → α → β} {I J : β → Prop} {list : List α} {a : α}
    (ha : a ∈ list) (keep : ∀ b, ∀ x ∈ list, I b → I (g b x)) (reach : ∀ b, I b → J (g b a))
    (stay : ∀ b, ∀ x ∈ list, I b → J b → J (g b x)) {b : β} (hb : I b) :
    I (list.foldl g b) ∧ J (list.foldl g b) := by
  obtain ⟨before, after, rfl⟩ := List.append_of_mem ha
  rw [List.foldl_append, List.foldl_cons]
  have hbefore : I (before.foldl g b) :=
    List.foldlRecOn before g hb fun b hb x hx => keep b x (List.mem_append_left _ hx) hb
  refine List.foldlRecOn (motive := fun b => I b ∧ J b) after g
    ⟨keep _ a ha hbefore, reach _ hbefore⟩ fun b hb x hx => ?_
  have hx' : x ∈ before ++ a :: after := List.mem_append_right _ (List.mem_cons_of_mem _ hx)
  exact ⟨keep b x hx' hb.1, stay b x hx' hb.1 hb.2⟩

section Events

variable {r : Run} {i j : Nat} {f : FsmDefinition} {c : FsmSchedule} {stock : FsmSchedule → Nat}

theorem launchRoot_stocked (hg : Gauge f stock) (hground : r.Grounded) (now : Event)
    (hf : r.defs.fsms[i]? = some f) (hc : r.fsms[i]? = some c) (hroot : c.isRoot = true) :
    (r.launchRoot i).Stocked i stock := by
  obtain ⟨c', hc', hroot', htakes⟩ := launchRoot_settles hground now hf hc
  have hpath := launchRoot_path hground.numbered now i
  refine ⟨c', hc', hroot'.trans hroot, hg.settled (.of_path hpath hground) ?_ hc' htakes⟩
  rw [hpath.follows.defs]
  exact hf

theorem appoint_stocked (hg : Gauge f stock) (hground : r.Grounded) (now : Event)
    (hf : r.defs.fsms[i]? = some f) (hinitial : f.id ∈ r.defs.initial) :
    (r.appoint f.id).Stocked i stock := by
  have hindex : r.defs.fsmIndex? f.id = some i :=
    DefinitionSet.fsmIndex?_of_getElem? hground.nodup_ids hf
  have hnoted := hground.move (Move.appoint (e := now) hinitial hindex)
  obtain ⟨c, hc⟩ := hground.scheduled.exists_schedule hf
  rw [appoint_eq hindex]
  exact launchRoot_stocked hg hnoted now hf (getElem?_modifyFsm _ hc) (by rw [if_pos rfl])

theorem Stocked.appoint (h : r.Stocked i stock) (hg : Gauge f stock) (hground : r.Grounded)
    (now : Event) (hf : r.defs.fsms[i]? = some f) {id : String} (hid : id ∈ r.defs.initial) :
    (r.appoint id).Stocked i stock := by
  cases hindex : r.defs.fsmIndex? id with
  | none =>
      rw [Run.appoint, hindex]
      exact h
  | some j =>
      obtain ⟨g, hgj, rfl⟩ := (DefinitionSet.fsmIndex?_eq_some_iff hground.nodup_ids).mp hindex
      by_cases hj : j = i
      · subst hj
        obtain rfl := Option.some.inj (hf.symm.trans hgj)
        exact appoint_stocked hg hground now hf hid
      · obtain ⟨c, hc, hroot, hpos⟩ := h
        refine ⟨c, ?_, hroot, hpos⟩
        rw [appoint_eq hindex, getElem?_launchRoot_of_ne (Ne.symm hj),
          getElem?_modifyFsm_of_ne (Ne.symm hj)]
        exact hc

theorem begin_stocked (hg : Gauge f stock) (hground : r.Grounded) (now : Event)
    (hf : r.defs.fsms[i]? = some f) (hinitial : f.id ∈ r.defs.initial) (hbegun : r.begun = false) :
    r.begin.Stocked i stock := by
  have hstarted := hground.move (Move.begin (e := now) hbegun)
  have hstep : ∀ r' : Run, ∀ id ∈ r.defs.initial, r'.Grounded ∧ r'.defs = r.defs →
      (r'.appoint id).Grounded ∧ (r'.appoint id).defs = r.defs := by
    rintro r' id hid ⟨hground', hdefs⟩
    have hpath := appoint_path hground'.numbered now (hdefs ▸ hid)
    exact ⟨.of_path hpath hground', hpath.follows.defs.trans hdefs⟩
  exact (foldl_reaches (J := fun r' => r'.Stocked i stock) hinitial hstep
    (fun r' h => appoint_stocked hg h.1 now (h.2 ▸ hf) (h.2 ▸ hinitial))
    (fun r' id hid h hs => hs.appoint hg h.1 now (h.2 ▸ hf) (h.2 ▸ hid)) ⟨hstarted, rfl⟩).2

theorem getElem?_startDue_of_ne (hi : i ≠ j) : (r.startDue j).fsms[i]? = r.fsms[i]? := by
  rw [startDue]
  split
  · split
    · rw [getElem?_launchRoot_of_ne hi, getElem?_modifyFsm_of_ne hi]
    · rfl
  · rfl

theorem Supplied.startDue_self (h : r.Supplied i stock) (hg : Gauge f stock) (hground : r.Grounded)
    (now : Event) (hf : r.defs.fsms[i]? = some f) : (r.startDue i).Stocked i stock := by
  obtain ⟨c, hc, hroot, hs⟩ := h
  rw [startDue, hc]
  simp only
  split
  · next hdue =>
    have htaken := hground.move (Move.takeDue (e := now) hc hdue)
    exact launchRoot_stocked hg htaken now hf (getElem?_modifyFsm _ hc) (by rw [if_pos rfl]; exact hroot)
  · next hnot => exact ⟨c, hc, hroot, hs.resolve_right hnot⟩

theorem Stocked.startDue (h : r.Stocked i stock) (hg : Gauge f stock) (hground : r.Grounded)
    (now : Event) (hf : r.defs.fsms[i]? = some f) (j : Nat) : (r.startDue j).Stocked i stock := by
  by_cases hj : j = i
  · exact hj ▸ (hj ▸ h.supplied : r.Supplied j stock).startDue_self hg hground now (hj ▸ hf)
  · rw [Stocked, getElem?_startDue_of_ne (Ne.symm hj)]
    exact h

theorem Supplied.startDue (h : r.Supplied i stock) (hg : Gauge f stock) (hground : r.Grounded)
    (now : Event) (hf : r.defs.fsms[i]? = some f) (j : Nat) : (r.startDue j).Supplied i stock := by
  by_cases hj : j = i
  · exact hj ▸ ((hj ▸ h : r.Supplied j stock).startDue_self hg hground now (hj ▸ hf)).supplied
  · rw [Supplied, getElem?_startDue_of_ne (Ne.symm hj)]
    exact h

theorem readied_stocked (hg : Gauge f stock) (hground : r.Grounded) (hdisposed : r.disposed = false)
    (event : Event) (hf : r.defs.fsms[i]? = some f) (hinitial : f.id ∈ r.defs.initial)
    (h : r.begun = true → r.Supplied i stock) :
    (r.readied event).Grounded ∧ (r.readied event).defs = r.defs ∧
      (r.readied event).Stocked i stock := by
  have harrived : (r.arrived event).Grounded := hground.move (Move.arrive hdisposed)
  have hpath := opened_path harrived.numbered event
  have hopened := Grounded.of_path hpath harrived
  have hdefs : (r.arrived event).opened.defs = r.defs := hpath.follows.defs
  have hsupplied : (r.arrived event).opened.Supplied i stock := by
    rw [opened]
    split
    · next hbegun => exact h hbegun
    · next hnew =>
      exact (begin_stocked hg harrived event hf hinitial (eq_false_of_ne_true hnew)).supplied
  have hi : i ∈ List.range (r.arrived event).opened.fsms.length := by
    obtain ⟨c, hc, -⟩ := hsupplied
    exact List.mem_range.mpr (List.getElem?_eq_some_iff.mp hc).1
  have hstep : ∀ r' : Run, ∀ j, r'.Grounded ∧ r'.defs = r.defs →
      (r'.startDue j).Grounded ∧ (r'.startDue j).defs = r.defs := by
    rintro r' j ⟨hground', hdefs'⟩
    have hpath := startDue_path hground'.numbered event j
    exact ⟨.of_path hpath hground', hpath.follows.defs.trans hdefs'⟩
  obtain ⟨⟨⟨hground', hdefs'⟩, -⟩, hstocked⟩ := foldl_reaches
    (I := fun r' => (r'.Grounded ∧ r'.defs = r.defs) ∧ r'.Supplied i stock)
    (J := fun r' => r'.Stocked i stock) hi
    (fun r' j _ h => ⟨hstep r' j h.1, h.2.startDue hg h.1.1 event (h.1.2 ▸ hf) j⟩)
    (fun r' h => h.2.startDue_self hg h.1.1 event (h.1.2 ▸ hf))
    (fun r' j _ h hs => hs.startDue hg h.1.1 event (h.1.2 ▸ hf) j)
    ⟨⟨hopened, hdefs⟩, hsupplied⟩
  exact ⟨hground', hdefs', hstocked⟩

theorem Supplied.path {event : Option Event} {r' : Run} {ms : List Moment}
    (hpath : Path event r ms r') (hg : Gauge f stock) (hvisiting : ∀ m ∈ ms, m.act.Visiting)
    (hground : r.Grounded) (hf : r.defs.fsms[i]? = some f) (h : r.Supplied i stock) :
    r'.Supplied i stock := by
  induction hpath with
  | nil r => exact h
  | cons move _ ih =>
      obtain ⟨hfirst, hrest⟩ := List.forall_mem_cons.mp hvisiting
      obtain ⟨c, hc, hroot, hs⟩ := h
      obtain ⟨c', hc', hshift⟩ := move.shift hground hf hc
      have hle := (hground.scheduled.sound i f c hf hc).ended_le
      exact ih hrest (hground.move move) (move.follows.defs ▸ hf)
        ⟨c', hc', hshift.isRoot hroot, hg.visiting hshift hfirst hle hroot hs⟩

theorem onEvent_supplied (hg : Gauge f stock) (hground : r.Grounded) (hdisposed : r.disposed = false)
    (event : Event) (hf : r.defs.fsms[i]? = some f) (hinitial : f.id ∈ r.defs.initial)
    (h : r.begun = true → r.Supplied i stock) : (r.onEvent event).Supplied i stock := by
  obtain ⟨hground', hdefs, hstocked⟩ :=
    readied_stocked hg hground hdisposed event hf hinitial h
  cases hdispatch : (r.readied event).dispatches event with
  | true =>
      rw [(onEvent_of_dispatches hdisposed hdispatch).2]
      exact hstocked.supplied.path
        (Path.fold _ (fun r' index _ hn _ => visit_path hn event index) hground'.numbered) hg
        (forall_mem_foldMoments (visit_visiting event) _ _) hground' (hdefs ▸ hf)
  | false =>
      rw [(onEvent_of_not_dispatches hdisposed hdispatch).2]
      exact hstocked.supplied

end Events

theorem Grounded.performAll {r : Run} (h : r.Grounded) (calls : List Call) :
    (r.performAll calls).Grounded ∧ (r.performAll calls).defs = r.defs :=
  ((performAll_trace h.numbered calls).invariant (I := fun r' => r'.Grounded ∧ r'.defs = r.defs)
    (fun _ _ _ move hm => ⟨hm.1.move move, move.follows.defs.trans hm.2⟩) ⟨h, rfl⟩).1

theorem performAll_concat (r : Run) (calls : List Call) (call : Call) :
    r.performAll (calls ++ [call]) = (r.performAll calls).perform call := by
  rw [performAll, List.foldl_append]
  rfl

end Run

theorem Move.disposed {m : Moment} {r' : Run} (move : Move m r') (h : m.event ≠ none) :
    r'.disposed = m.run.disposed := by
  cases move with
  | arrive _ | begin _ | decide | abort _ | handle | operate _ | emit _ _ => rfl
  | appoint _ _ | takeDue _ _ | merge => rfl
  | enroll _ _ _ _ _ => exact (keeps_admitted _ _ _ _ _ _ _).disposed
  | receive _ _ _ => exact (keeps_receive _ _ _ _).disposed
  | change _ | save _ => exact record_disposed _ _
  | enter _ _ _ _ => exact (keeps_enter _ _ _ _ _ _ _).disposed
  | @retire r e j =>
      cases hj : r.fsms[j]? with
      | none => rw [Run.retire, hj]
      | some c =>
          rw [retire_eq hj]
          rfl
  | cancel _ _ | dispose => exact (h rfl).elim

theorem Path.disposed {event : Event} {r r' : Run} {ms : List Moment}
    (h : Path (some event) r ms r') : r'.disposed = r.disposed := by
  induction h with
  | nil r => rfl
  | cons move _ ih => exact ih.trans (move.disposed nofun)

namespace Run

section Calls

variable {r : Run} {i : Nat} {f : FsmDefinition} {stock : FsmSchedule → Nat}

theorem keeps_cancel (r : Run) (id : ScenarioId) : Keeps (some id) r (r.cancel id).1 := by
  rw [cancel]
  cases hfound : (r.scenario? id).filter Scenario.isLive with
  | none => exact .refl _ r
  | some s =>
      obtain ⟨rfl, -, -⟩ := scenario?_of_filter hfound
      exact keeps_cancelLive r s

/-- The induction is on the calls from the last one backwards. Before the first event nothing is
known of the fsm, and a cancellation keeps what is known. -/
theorem performAll_supplied (hg : Gauge f stock) (hground : r.Grounded)
    (hf : r.defs.fsms[i]? = some f) (hinitial : f.id ∈ r.defs.initial) (hbegun : r.begun = false)
    (hdisposed : r.disposed = false) (calls : List Call) (hcalls : Call.dispose ∉ calls)
    (hcancel : ∀ before id after, calls = before ++ Call.cancel id :: after →
      (r.performAll before).Supplied i stock → ((r.performAll before).cancel id).1.Supplied i stock) :
    (r.performAll calls).disposed = false ∧
      ((r.performAll calls).begun = true → (r.performAll calls).Supplied i stock) ∧
      ((∃ event, Call.event event ∈ calls) → (r.performAll calls).Supplied i stock) := by
  induction calls using List.reverseRecOn with
  | nil =>
      refine ⟨hdisposed, fun h => ?_, fun ⟨_, h⟩ => (List.not_mem_nil h).elim⟩
      cases hbegun.symm.trans h
  | append_singleton calls call ih =>
      obtain ⟨hopen, hagain, hsupplied⟩ := ih (fun h => hcalls (List.mem_append_left _ h))
        fun before id after heq => hcancel before id (after ++ [call]) (by rw [heq]; simp)
      obtain ⟨hground', hdefs⟩ := hground.performAll calls
      rw [performAll_concat]
      cases call with
      | event e =>
          have hnext := onEvent_supplied hg hground' hopen e (hdefs ▸ hf) (hdefs ▸ hinitial) hagain
          exact ⟨(onEvent_path hground'.numbered e).disposed.trans hopen, fun _ => hnext,
            fun _ => hnext⟩
      | cancel id =>
          have hkeeps := keeps_cancel (r.performAll calls) id
          have hlast := hcancel calls id [] rfl
          refine ⟨hkeeps.disposed.trans hopen, fun h => hlast (hagain (hkeeps.begun ▸ h)), ?_⟩
          rintro ⟨e, he⟩
          rcases List.mem_append.mp he with he | he
          · exact hlast (hsupplied ⟨e, he⟩)
          · cases List.mem_singleton.mp he
      | dispose => exact (hcalls (List.mem_append_right _ (List.mem_singleton_self _))).elim

end Calls

end Run

end TraceAutomata
