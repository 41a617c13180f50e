import TraceAutomata.Proofs.Run.Tandem

namespace TraceAutomata

namespace Run

section Begin

variable {f : FsmDefinition} {index : Nat} {r : Run} {c : FsmSchedule} {event : Event}

theorem modifyFsm_eq_self {g : FsmSchedule → FsmSchedule} (hc : r.fsms[index]? = some c)
    (hg : g c = c) : r.modifyFsm index g = r := by
  have hsame : r.fsms.modify index g = r.fsms := by
    apply List.ext_getElem?
    intro i
    rw [List.getElem?_modify]
    rcases eq_or_ne index i with rfl | hne
    · rw [hc]
      simp [hg]
    · simp [hne]
  rw [modifyFsm, hsame]

theorem Grounded.waiting_eq_zero (h : r.Grounded) (hf : r.defs.fsms[index]? = some f)
    (hc : r.fsms[index]? = some c) (htakes : r.takesScenario index f c = true) :
    c.waiting = 0 := by
  have hsound := h.scheduled.sound index f c hf hc
  simp only [takesScenario, liveCount, hc, Bool.or_eq_true, Bool.and_eq_true, beq_iff_eq] at htakes
  rcases htakes with hidle | ⟨-, hwaiting⟩
  · rw [hsound.waiting]
    exact countP_waiting_eq_zero hidle
  · exact hwaiting

theorem launchRoot_settles (h : r.Grounded) (now : Event) (hf : r.defs.fsms[index]? = some f)
    (hc : r.fsms[index]? = some c) :
    ∃ c', (r.launchRoot index).fsms[index]? = some c' ∧ c'.isRoot = c.isRoot ∧
      (r.launchRoot index).takesScenario index f c' = false := by
  have hpath := launchRoot_path h.numbered now index
  have hlaunched := h.of_path hpath
  have hdefs := hpath.follows.defs
  rw [launchRoot_eq hf hc] at hlaunched hdefs ⊢
  cases htakes : r.takesScenario index f c with
  | false => exact ⟨c, hc, rfl, htakes⟩
  | true =>
      obtain ⟨subtree, st, hopen⟩ :=
        exists_open h.anchored (Scenario.nameOf f.id (c.created + 1))
      rw [if_pos htakes, hopen] at hlaunched hdefs
      rw [if_pos rfl, hopen]
      refine ⟨_, getElem?_admitted hc, rfl, ?_⟩
      rw [Bool.eq_false_iff]
      intro hagain
      exact Nat.succ_ne_zero _ (hlaunched.waiting_eq_zero (by rw [hdefs]; exact hf)
        (getElem?_admitted hc) hagain)

theorem launchRoot_of_not_takes (hf : r.defs.fsms[index]? = some f)
    (hc : r.fsms[index]? = some c) (htakes : r.takesScenario index f c = false) :
    r.launchRoot index = r := by
  rw [launchRoot_eq hf hc, htakes]
  rfl

def appoint (r : Run) (id : String) : Run :=
  match r.defs.fsmIndex? id with
  | some index => (r.modifyFsm index fun c => { c with isRoot := true }).launchRoot index
  | none => r

def appointMoments (event : Event) (r : Run) (id : String) : List Moment :=
  match r.defs.fsmIndex? id with
  | some index =>
      ⟨r, some event, .appoint index⟩ ::
        launchRootMoments event (r.modifyFsm index fun c => { c with isRoot := true }) index
  | none => []

theorem appoint_eq (hindex : r.defs.fsmIndex? f.id = some index) :
    r.appoint f.id =
      (r.modifyFsm index fun c => { c with isRoot := true }).launchRoot index := by
  rw [appoint, hindex]

theorem appoint_path (h : r.Numbered) (now : Event) {id : String} (hid : id ∈ r.defs.initial) :
    Path (some now) r (appointMoments now r id) (r.appoint id) := by
  rw [appointMoments, appoint]
  cases hindex : r.defs.fsmIndex? id with
  | none => exact .nil r
  | some index =>
      exact .cons (.appoint hid hindex) (launchRoot_path (numbered_modifyFsm h _ _) now index)

theorem appoint_concern (now : Event) {id : String} (hindex : r.defs.fsmIndex? id = some index) :
    Concerns id index (appointMoments now r id) := by
  rw [appointMoments, hindex]
  exact .cons rfl (launchRoot_concern now _)

theorem appoint_appoint (h : r.Grounded) (now : Event) (hf : r.defs.fsms[index]? = some f)
    (hinitial : f.id ∈ r.defs.initial) : (r.appoint f.id).appoint f.id = r.appoint f.id := by
  have hindex : r.defs.fsmIndex? f.id = some index :=
    DefinitionSet.fsmIndex?_of_getElem? h.nodup_ids hf
  have hdefs := (appoint_path h.numbered now hinitial).follows.defs
  have hnoted := h.move (Move.appoint (e := now) hinitial hindex)
  obtain ⟨c, hc⟩ := h.scheduled.exists_schedule hf
  obtain ⟨c', hc', hroot, htakes⟩ := launchRoot_settles hnoted now hf
    (c := { c with isRoot := true }) (by rw [modifyFsm, List.getElem?_modify, hc]; simp)
  rw [← appoint_eq hindex] at hc' htakes
  have hsame : (r.appoint f.id).modifyFsm index (fun c => { c with isRoot := true }) =
      r.appoint f.id := by
    have hroot' : c'.isRoot = true := hroot
    apply modifyFsm_eq_self hc'
    rw [← hroot']
  rw [appoint_eq (hdefs ▸ hindex), hsame]
  exact launchRoot_of_not_takes (hdefs ▸ hf) hc' htakes

end Begin

namespace InStep

variable {f : FsmDefinition} {index : Nat} {time : Int64} {r r' : Run} {event : Event}

theorem appoint (h : InStep f index time r r') (htime : event.nanos ≤ time) {id : String}
    (hid : id ∈ r.defs.initial) :
    Tandem f index time r' (appointMoments event r id) (r.appoint id)
      (if id = f.id then r'.appoint f.id else r') := by
  have hpath := appoint_path h.left.numbered event hid
  have hindex : r.defs.fsmIndex? f.id = some index :=
    DefinitionSet.fsmIndex?_of_getElem? h.left.nodup_ids h.kindred.here
  have hindex' : r'.defs.fsmIndex? f.id = some 0 :=
    DefinitionSet.fsmIndex?_of_getElem? h.right.nodup_ids h.kindred.here'
  split
  · next heq =>
    subst heq
    have hown := (Lockstep.appoint h event hid).toLockstep
    rw [← appoint_eq hindex, ← appoint_eq hindex'] at hown
    exact .own hown hpath (appoint_concern event hindex)
  · next hne =>
    cases hj : r.defs.fsmIndex? id with
    | none =>
        rw [appointMoments, Run.appoint, hj]
        exact .nil h
    | some j =>
        obtain ⟨k, hk, rfl⟩ := (DefinitionSet.fsmIndex?_eq_some_iff h.left.nodup_ids).mp hj
        refine .other h hpath hk ?_ (appoint_concern event hj) fun e he => ?_
        · rintro rfl
          obtain rfl : k = f := Option.some.inj (hk.symm.trans h.kindred.here)
          exact hne rfl
        · obtain rfl := Option.some.inj he
          exact htime

theorem begin (h : InStep f index time r r') (htime : event.nanos ≤ time)
    (hbegun : r.begun = false) (hinitial : f.id ∈ r.defs.initial) :
    Tandem f index time r' (beginMoments event r) r.begin r'.begin := by
  have hbegun' : r'.begun = false := h.kindred.begun.trans hbegun
  have hstarted : InStep f index time { r with begun := true } { r' with begun := true } :=
    (Lockstep.step h (.begin (e := event) hbegun) (.begin (e := event) hbegun') rfl rfl
      ⟨h.kindred.here, h.kindred.defs, h.kindred.settings, h.kindred.received, rfl,
        h.kindred.disposed, h.kindred.line⟩
      (h.recorded.congr rfl rfl rfl rfl)).inStep
  have hfold : Tandem f index time { r' with begun := true }
      (foldMoments Run.appoint (appointMoments event) { r with begun := true } r.defs.initial)
      (r.defs.initial.foldl Run.appoint { r with begun := true })
      (r.defs.initial.foldl (fun r' id => if id = f.id then r'.appoint f.id else r')
        { r' with begun := true }) ∧ _ :=
    Tandem.fold (P := fun r₁ _ => r₁.defs = r.defs) (fun r₁ r₁' id hid h₁ hdefs => by
      rw [← hdefs] at hid
      exact ⟨h₁.appoint htime hid,
        (appoint_path h₁.left.numbered event hid).follows.defs.trans hdefs⟩) hstarted rfl
  have hinitial' : r'.defs.initial = [f.id] := by
    rw [h.kindred.defs]
    rfl
  have honce : (({ r' with begun := true } : Run).appoint f.id).appoint f.id =
      ({ r' with begun := true } : Run).appoint f.id :=
    appoint_appoint hstarted.right event hstarted.kindred.here' (by
      change f.id ∈ r'.defs.initial
      rw [hinitial']
      exact List.mem_singleton_self f.id)
  obtain ⟨n, hn⟩ := Nat.exists_eq_succ_of_ne_zero
    (Nat.ne_of_gt (List.count_pos_iff.mpr hinitial))
  have hright : r'.begin = ({ r' with begun := true } : Run).appoint f.id := by
    rw [Run.begin, hinitial']
    rfl
  rw [foldl_at (fun r' : Run => r'.appoint f.id), hn, Function.iterate_succ_apply,
    Function.iterate_fixed honce n, ← hright] at hfold
  have hfirst : Tandem f index time r' [⟨r, some event, .begin⟩] { r with begun := true }
      { r' with begun := true } := .single r hstarted rfl rfl
  exact hfirst.append hfold.1

theorem opened (h : InStep f index time r r') (htime : event.nanos ≤ time)
    (hinitial : f.id ∈ r.defs.initial) :
    Tandem f index time r' (if r.begun then [] else beginMoments event r) r.opened r'.opened := by
  rw [Run.opened, Run.opened, h.kindred.begun]
  cases hbegun : r.begun with
  | false => exact h.begin htime hbegun hinitial
  | true => exact .nil h

end InStep

end Run

end TraceAutomata
