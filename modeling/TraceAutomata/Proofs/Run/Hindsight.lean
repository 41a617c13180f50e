import TraceAutomata.Proofs.Run.Anchor

namespace TraceAutomata

namespace Trace

variable {r q : Run} {m : Moment} {ms : List Moment}

theorem of_cons (h : Trace r (m :: ms) q) : r = m.run ∧ ∃ r', Move m r' ∧ Trace r' ms q := by
  cases h with
  | cons move rest => exact ⟨rfl, _, move, rest⟩

theorem of_append {ms' : List Moment} (h : Trace r (ms ++ ms') q) :
    ∃ r', Trace r ms r' ∧ Trace r' ms' q := by
  induction ms generalizing r with
  | nil => exact ⟨r, .nil r, h⟩
  | cons m ms ih =>
      obtain ⟨rfl, r', move, rest⟩ := of_cons h
      obtain ⟨mid, hbefore, hafter⟩ := ih rest
      exact ⟨mid, .cons move hbefore, hafter⟩

theorem of_concat (h : Trace r (ms ++ [m]) q) : Trace r ms m.run ∧ Move m q := by
  obtain ⟨mid, hbefore, hlast⟩ := of_append h
  obtain ⟨rfl, r', move, hnil⟩ := of_cons hlast
  cases hnil
  exact ⟨hbefore, move⟩

theorem before {past rest : List Moment} (h : Trace r (past ++ m :: rest) q) :
    Trace r past m.run := by
  obtain ⟨mid, hbefore, hlast⟩ := of_append h
  obtain ⟨rfl, -⟩ := of_cons hlast
  exact hbefore

/-- What each act keeps, together with all that has happened before, holds in the end. -/
theorem invariant_past {I : List Moment → Run → Prop} (h : Trace r ms q)
    (step : ∀ past m rest r', ms = past ++ m :: rest → Move m r' → I past m.run →
      I (past ++ [m]) r') (hr : I [] r) : I ms q := by
  induction ms using List.reverseRecOn generalizing q with
  | nil =>
      cases h
      exact hr
  | append_singleton ms m ih =>
      obtain ⟨hbefore, move⟩ := of_concat h
      refine step ms m [] q rfl move (ih hbefore fun past m' rest r' heq => ?_)
      exact step past m' (rest ++ [m]) r' (by rw [heq, List.append_assoc, List.cons_append])

end Trace

namespace Run

/-- The times of the events on which a change was made, on the way to a run. -/
def timesOf (change : Run → Run → Bool) : List Moment → Run → List Int64
  | [], _ => []
  | m :: ms, q =>
      (if change m.run ((ms.head?.map (·.run)).getD q) then (m.event.map Event.nanos).toList
        else []) ++ timesOf change ms q

variable {change : Run → Run → Bool} {m : Moment} {ms : List Moment} {q : Run}

theorem timesOf_concat (change : Run → Run → Bool) (ms : List Moment) (m : Moment) (q : Run) :
    timesOf change (ms ++ [m]) q =
      timesOf change ms m.run ++
        if change m.run q then (m.event.map Event.nanos).toList else [] := by
  induction ms with
  | nil => exact List.append_nil _
  | cons first ms ih =>
      have hnext : (((ms ++ [m]).head?).map (·.run)).getD q =
          ((ms.head?).map (·.run)).getD m.run := by
        cases ms <;> rfl
      rw [List.cons_append, timesOf, ih, hnext, ← List.append_assoc]
      rfl

theorem timesOf_concat_of_not (h : change m.run q = false) :
    timesOf change (ms ++ [m]) q = timesOf change ms m.run := by
  rw [timesOf_concat, h, if_neg Bool.false_ne_true, List.append_nil]

theorem timesOf_concat_of_event (h : change m.run q = true) {e : Event} (he : m.event = some e) :
    timesOf change (ms ++ [m]) q = timesOf change ms m.run ++ [e.nanos] := by
  rw [timesOf_concat, h, if_pos rfl, he]
  rfl

theorem exists_of_mem_timesOf {t : Int64} (h : t ∈ timesOf change ms q) :
    ∃ m ∈ ms, ∃ e, m.event = some e ∧ e.nanos = t := by
  induction ms using List.reverseRecOn generalizing q with
  | nil => cases h
  | append_singleton ms m ih =>
      rw [timesOf_concat, List.mem_append] at h
      rcases h with h | h
      · obtain ⟨m', hm', hfound⟩ := ih h
        exact ⟨m', List.mem_append_left _ hm', hfound⟩
      · split at h
        · obtain ⟨e, he, rfl⟩ := Option.map_eq_some_iff.mp (Option.mem_toList.mp h)
          exact ⟨m, List.mem_append_right _ List.mem_cons_self, e, he, rfl⟩
        · cases h

/-- What an act does to the scenario with a number. -/
inductive Fate (m : Moment) (r' : Run) (id : ScenarioId) : Prop
  | same (h : r'.scenario? id = m.run.scenario? id)
  | gone (h : r'.scenario? id = none)
  | alters (s s' : Scenario) (groups : List (List Write)) (hid : s.id = id)
      (hs : m.run.scenario? s.id = some s) (hlive : s.isLive = true)
      (halters : Alters m s s' groups)
      (h : r'.scenario? id = some s')
  | admits (f : FsmDefinition) (sequence : Nat) (parent : Option String) (subtree : Quark)
      (hid : id = m.run.created + 1)
      (h : r'.scenario? id = some (m.run.added f sequence parent subtree))

theorem Numbered.scenario?_eq_none {r : Run} (hn : r.Numbered) {id : ScenarioId}
    (h : r.created < id) : r.scenario? id = none := by
  rw [Option.eq_none_iff_forall_ne_some]
  intro s hs
  have hle := hn.le_created s (mem_of_scenario? hs)
  rw [id_of_scenario? hs] at hle
  exact Nat.not_lt.mpr hle h

theorem scenario?_of_modified {r r' : Run} {s s' : Scenario} (hs : r.scenario? s.id = some s)
    (hid : s'.id = s.id) (scenarios : r'.scenarios = (r.modifyScenario s.id fun _ => s').scenarios)
    (id : ScenarioId) : r'.scenario? id = if id = s.id then some s' else r.scenario? id := by
  have hfind : r'.scenario? id = (r.modifyScenario s.id fun _ => s').scenario? id := by
    rw [scenario?, scenarios, scenario?]
  rw [hfind]
  split
  · next heq =>
    rw [heq, scenario?_modifyScenario_self r fun _ _ => hid, hs]
    rfl
  · next hne => exact scenario?_modifyScenario_ne (fun _ _ => hid) hne

theorem scenario?_admitted {r : Run} (hn : r.Numbered) (index : Nat) (f : FsmDefinition)
    (c : FsmSchedule) (parent : Option String) (time : Int64) (subtree : Quark) (st : Store)
    (id : ScenarioId) :
    (r.admitted index f c parent time subtree st).scenario? id =
      if id = r.created + 1 then some (r.added f (c.created + 1) parent subtree)
      else r.scenario? id := by
  have hnew : (r.added f (c.created + 1) parent subtree).id = r.created + 1 := rfl
  rw [scenario?, admitted_eq, List.find?_append, ← scenario?, List.find?_singleton, hnew]
  rcases eq_or_ne id (r.created + 1) with rfl | hne
  · rw [hn.scenario?_eq_none (Nat.lt_succ_self _), Option.none_or, if_pos (beq_self_eq_true _),
      if_pos rfl]
  · rw [if_neg (by simpa using hne.symm), Option.or_none, if_neg hne]

theorem scenario?_of_sublist {r r' : Run} (hn : r.Numbered)
    (h : r'.scenarios.Sublist r.scenarios) (id : ScenarioId) :
    r'.scenario? id = r.scenario? id ∨ r'.scenario? id = none := by
  cases hs : r'.scenario? id with
  | none => exact .inr rfl
  | some s =>
      left
      have hmem := h.subset (mem_of_scenario? hs)
      rw [← id_of_scenario? hs, hn.scenario?_of_mem hmem]

theorem Fate.of_move {m : Moment} {r' : Run} (hn : m.run.Numbered) (move : Move m r')
    (id : ScenarioId) : Fate m r' id := by
  cases Effect.of_move hn move with
  | quiet scenarios =>
      rcases scenario?_of_sublist hn scenarios id with hsame | hgone
      · exact .same hsame
      · exact .gone hgone
  | alters s s' groups hs hlive halters scenarios =>
      have hlookup := scenario?_of_modified hs halters.sameCard.id scenarios id
      rcases eq_or_ne id s.id with rfl | hne
      · exact .alters s s' groups rfl hs hlive halters (hlookup.trans (if_pos rfl))
      · exact .same (hlookup.trans (if_neg hne))
  | admits index f c parent trigger subtree st _ _ _ _ _ heq =>
      have hlookup := scenario?_admitted hn index f c parent
        ((trigger.map Event.nanos).getD m.run.store.endTime) subtree st id
      rw [← heq] at hlookup
      rcases eq_or_ne id (m.run.created + 1) with hid | hne
      · exact .admits f (c.created + 1) parent subtree hid (hlookup.trans (if_pos hid))
      · exact .same (hlookup.trans (if_neg hne))
  | aborts _ _ _ _ _ _ heq =>
      rw [heq]
      exact .same rfl

end Run

end TraceAutomata
