import TraceAutomata.Proofs.Run.Anchor

/-!
What is known of the scenarios that a run has forgotten. Each scenario that was ever started is
remembered as it was when a run last had it, under the number that it was given.
-/

namespace TraceAutomata.Run

/-- The scenarios of a run, and those that were known before. -/
def note (known : ScenarioId → Option Scenario) (r : Run) : ScenarioId → Option Scenario :=
  fun id => (r.scenario? id).or (known id)

/-- What is known once scenarios have been noted: each of them that was ever started has a number
and a name of its own, and only those that have ended may be forgotten. -/
structure Remembered (known : ScenarioId → Option Scenario) (r : Run) : Prop where
  present : ∀ s ∈ r.scenarios, known s.id = some s
  id_eq : ∀ id s, known id = some s → s.id = id
  isSome_iff : ∀ id, (known id).isSome ↔ 1 ≤ id ∧ id ≤ r.created
  ended : ∀ id s, known id = some s → s ∈ r.scenarios ∨ s.isLive = false
  named : ∀ id s, known id = some s → ∃ sequence, r.StartedAs s.fsm sequence ∧
    s.name = Scenario.nameOf s.fsm sequence
  complete : ∀ name, r.Started name → ∃ id s, known id = some s ∧ s.name = name
  increasing : ∀ id s id' s' fsm sequence sequence', known id = some s → known id' = some s' →
    s.name = Scenario.nameOf fsm sequence → s'.name = Scenario.nameOf fsm sequence' →
      id < id' → sequence < sequence'

namespace Remembered

variable {r r' : Run} {known : ScenarioId → Option Scenario}

theorem name_injective (h : r.Remembered known) {id id' : ScenarioId} {s s' : Scenario}
    (hs : known id = some s) (hs' : known id' = some s') (hname : s.name = s'.name) :
    id = id' := by
  obtain ⟨sequence, -, heq⟩ := h.named id s hs
  rcases Nat.lt_trichotomy id id' with hlt | heq' | hlt
  · exact absurd (h.increasing _ _ _ _ _ _ _ hs hs' heq (hname ▸ heq) hlt) (Nat.lt_irrefl _)
  · exact heq'
  · exact absurd (h.increasing _ _ _ _ _ _ _ hs' hs (hname ▸ heq) heq hlt) (Nat.lt_irrefl _)

theorem started (h : r.Remembered known) {id : ScenarioId} {s : Scenario}
    (hs : known id = some s) : r.Started s.name := by
  obtain ⟨sequence, hsequence, hname⟩ := h.named id s hs
  exact ⟨s.fsm, sequence, hsequence, hname⟩

theorem congr (h : r.Remembered known) {known' : ScenarioId → Option Scenario}
    (defs : r'.defs = r.defs) (counts : r'.fsms.map (·.created) = r.fsms.map (·.created))
    (created : r'.created = r.created) (hsome : ∀ id, (known' id).isSome = (known id).isSome)
    (hcard : ∀ id s s', known id = some s → known' id = some s' → SameCard s s')
    (present : ∀ s ∈ r'.scenarios, known' s.id = some s)
    (ended : ∀ id s, known' id = some s → s ∈ r'.scenarios ∨ s.isLive = false) :
    r'.Remembered known' := by
  have hold : ∀ id s', known' id = some s' → ∃ s, known id = some s ∧ SameCard s s' := by
    intro id s' hs'
    have hknown := hsome id
    rw [hs', Option.isSome_some] at hknown
    obtain ⟨s, hs⟩ := Option.isSome_iff_exists.mp hknown.symm
    exact ⟨s, hs, hcard id s s' hs hs'⟩
  refine ⟨present, fun id s' hs' => ?_, fun id => ?_, ended, fun id s' hs' => ?_,
    fun name hname => ?_, fun id s' id' t' fsm n n' hs' ht' hname hname' hlt => ?_⟩
  · obtain ⟨s, hs, card⟩ := hold id s' hs'
    rw [card.id]
    exact h.id_eq id s hs
  · rw [hsome, created]
    exact h.isSome_iff id
  · obtain ⟨s, hs, card⟩ := hold id s' hs'
    simp only [StartedAs.congr defs counts, card.fsm, card.name]
    exact h.named id s hs
  · rw [Started.congr defs counts] at hname
    obtain ⟨id, s, hs, rfl⟩ := h.complete name hname
    have hknown := hsome id
    rw [hs, Option.isSome_some] at hknown
    obtain ⟨s', hs'⟩ := Option.isSome_iff_exists.mp hknown
    exact ⟨id, s', hs', (hcard id s s' hs hs').name⟩
  · obtain ⟨s, hs, card⟩ := hold id s' hs'
    obtain ⟨t, ht, card'⟩ := hold id' t' ht'
    exact h.increasing id s id' t fsm n n' hs ht (card.name ▸ hname) (card'.name ▸ hname') hlt

theorem note_eq (h : r.Remembered known) (id : ScenarioId) :
    (r.scenario? id).or (known id) = known id := by
  cases hs : r.scenario? id with
  | none => rfl
  | some s =>
      have hknown := h.present s (mem_of_scenario? hs)
      rw [id_of_scenario? hs] at hknown
      rw [hknown, Option.some_or]

end Remembered

section Noted

variable {r r' : Run} {known : ScenarioId → Option Scenario}

theorem note_of_sublist (h : r.Remembered known) (scenarios : r'.scenarios.Sublist r.scenarios) :
    note known r' = known := by
  funext id
  rw [note]
  cases hs : r'.scenario? id with
  | none => rfl
  | some s =>
      have hknown := h.present s (scenarios.subset (mem_of_scenario? hs))
      rw [id_of_scenario? hs] at hknown
      rw [hknown, Option.some_or]

theorem note_of_modify (h : r.Remembered known) {s s' : Scenario} (hs : r.scenario? s.id = some s)
    (hid : s'.id = s.id)
    (scenarios : r'.scenarios = (r.modifyScenario s.id fun _ => s').scenarios) :
    note known r' = Function.update known s.id (some s') := by
  have hfind : ∀ id, r'.scenario? id = (r.modifyScenario s.id fun _ => s').scenario? id := by
    intro id
    rw [scenario?, scenarios, scenario?]
  funext id
  rw [note, hfind]
  rcases eq_or_ne id s.id with rfl | hne
  · rw [scenario?_modifyScenario_self r fun _ _ => hid, hs, Function.update_self]
    rfl
  · rw [scenario?_modifyScenario_ne (fun _ _ => hid) hne, Function.update_of_ne hne]
    exact h.note_eq id

theorem note_of_admitted (h : r.Remembered known) {index : Nat} {f : FsmDefinition}
    {c : FsmSchedule} {parent : Option String} {time : Int64} {subtree : Quark} {st : Store} :
    note known (r.admitted index f c parent time subtree st) =
      Function.update known (r.created + 1)
        (some (r.added f (c.created + 1) parent subtree)) := by
  funext id
  have hnew : (r.added f (c.created + 1) parent subtree).id = r.created + 1 := rfl
  rw [note, scenario?, admitted_eq, List.find?_append, ← scenario?]
  rcases eq_or_ne id (r.created + 1) with rfl | hne
  · have hnone : r.scenario? (r.created + 1) = none := by
      cases hs : r.scenario? (r.created + 1) with
      | none => rfl
      | some s =>
          have hknown := h.present s (mem_of_scenario? hs)
          rw [id_of_scenario? hs] at hknown
          have hle := (h.isSome_iff (r.created + 1)).mp (by rw [hknown]; rfl)
          exact absurd hle.2 (Nat.not_succ_le_self _)
    rw [hnone, Function.update_self, Option.none_or, List.find?_singleton, hnew]
    simp
  · rw [Function.update_of_ne hne, List.find?_singleton, hnew, if_neg (by simpa using hne.symm),
      Option.or_none]
    exact h.note_eq id

theorem Remembered.modify (h : r.Remembered known) {s s' : Scenario}
    (hs : r.scenario? s.id = some s) (card : SameCard s s') (defs : r'.defs = r.defs)
    (counts : r'.fsms.map (·.created) = r.fsms.map (·.created)) (created : r'.created = r.created)
    (scenarios : r'.scenarios = (r.modifyScenario s.id fun _ => s').scenarios) :
    r'.Remembered (Function.update known s.id (some s')) := by
  have hknown := h.present s (mem_of_scenario? hs)
  have hmem : ∀ x, x ∈ r'.scenarios ↔ x = s' ∨ x ∈ r.scenarios ∧ x.id ≠ s.id := by
    intro x
    rw [scenarios]
    exact mem_modifyScenario hs x
  refine h.congr defs counts created (fun id => ?_) (fun id x x' hx hx' => ?_) (fun x hx => ?_)
    (fun id x hx => ?_)
  · rcases eq_or_ne id s.id with rfl | hne
    · rw [Function.update_self, hknown]
      rfl
    · rw [Function.update_of_ne hne]
  · rcases eq_or_ne id s.id with rfl | hne
    · rw [Function.update_self, Option.some.injEq] at hx'
      obtain rfl : s = x := Option.some.inj (hknown.symm.trans hx)
      exact hx' ▸ card
    · rw [Function.update_of_ne hne, hx, Option.some.injEq] at hx'
      exact hx' ▸ .refl x
  · rcases (hmem x).mp hx with rfl | ⟨hx, hne⟩
    · rw [card.id, Function.update_self]
    · rw [Function.update_of_ne hne]
      exact h.present x hx
  · rcases eq_or_ne id s.id with rfl | hne
    · rw [Function.update_self, Option.some.injEq] at hx
      exact .inl ((hmem x).mpr (.inl hx.symm))
    · rw [Function.update_of_ne hne] at hx
      refine (h.ended id x hx).imp (fun hold => (hmem x).mpr (.inr ⟨hold, ?_⟩)) fun hdead => hdead
      rw [h.id_eq id x hx]
      exact hne

theorem Remembered.admitted (h : r.Remembered known) (hnodup : (r.defs.fsms.map (·.id)).Nodup)
    {index : Nat} {f : FsmDefinition} {c : FsmSchedule} (hf : r.defs.fsms[index]? = some f)
    (hc : r.fsms[index]? = some c) {parent : Option String} {time : Int64} {subtree : Quark}
    {st : Store} :
    (r.admitted index f c parent time subtree st).Remembered
      (Function.update known (r.created + 1)
        (some (r.added f (c.created + 1) parent subtree))) := by
  have hnone : known (r.created + 1) = none := by
    rw [← Option.not_isSome_iff_eq_none, h.isSome_iff]
    intro hle
    exact absurd hle.2 (Nat.not_succ_le_self _)
  have hlookup : ∀ id x, Function.update known (r.created + 1)
      (some (r.added f (c.created + 1) parent subtree)) id = some x ↔
        id = r.created + 1 ∧ x = r.added f (c.created + 1) parent subtree ∨
          known id = some x := by
    intro id x
    rcases eq_or_ne id (r.created + 1) with rfl | hne
    · simp [hnone, eq_comm]
    · simp [hne]
  have hcreated : (r.admitted index f c parent time subtree st).created = r.created + 1 := by
    rw [admitted_eq]
  refine ⟨fun x hx => ?_, fun id x hx => ?_, fun id => ?_, fun id x hx => ?_, fun id x hx => ?_,
    fun name hname => ?_, fun id x id' x' fsm n n' hx hx' hname hname' hlt => ?_⟩
  · rw [hlookup]
    rcases mem_admitted.mp hx with hx | rfl
    · exact .inr (h.present x hx)
    · exact .inl ⟨rfl, rfl⟩
  · rcases (hlookup id x).mp hx with ⟨rfl, rfl⟩ | hx
    · rfl
    · exact h.id_eq id x hx
  · rw [hcreated]
    rcases eq_or_ne id (r.created + 1) with rfl | hne
    · simp
    · rw [Function.update_of_ne hne, h.isSome_iff]
      constructor
      · rintro ⟨hlow, hhigh⟩
        exact ⟨hlow, Nat.le_succ_of_le hhigh⟩
      · rintro ⟨hlow, hhigh⟩
        exact ⟨hlow, Nat.le_of_lt_succ (Nat.lt_of_le_of_ne hhigh hne)⟩
  · rcases (hlookup id x).mp hx with ⟨rfl, rfl⟩ | hx
    · exact .inl (mem_admitted.mpr (.inr rfl))
    · exact (h.ended id x hx).imp (fun hold => mem_admitted.mpr (.inl hold)) fun hdead => hdead
  · simp only [startedAs_admitted hf hc]
    rcases (hlookup id x).mp hx with ⟨rfl, rfl⟩ | hx
    · exact ⟨c.created + 1, .inr ⟨rfl, rfl⟩, rfl⟩
    · obtain ⟨sequence, hsequence, heq⟩ := h.named id x hx
      exact ⟨sequence, .inl hsequence, heq⟩
  · rcases (started_admitted hf hc).mp hname with hstart | rfl
    · obtain ⟨id, x, hx, heq⟩ := h.complete name hstart
      exact ⟨id, x, (hlookup id x).mpr (.inr hx), heq⟩
    · exact ⟨r.created + 1, _, (hlookup _ _).mpr (.inl ⟨rfl, rfl⟩), rfl⟩
  · rcases (hlookup id' x').mp hx' with ⟨rfl, rfl⟩ | hx'
    · rcases (hlookup id x).mp hx with ⟨rfl, rfl⟩ | hx
      · exact absurd hlt (Nat.lt_irrefl _)
      · -- All earlier scenarios of the fsm have a smaller number than the next one.
        obtain ⟨sequence, ⟨i, g, hg, hid, k, hk, -, hle⟩, heq⟩ := h.named id x hx
        obtain ⟨hfsm, rfl⟩ := Scenario.nameOf_injective (heq.symm.trans hname)
        obtain ⟨rfl, rfl⟩ := Scenario.nameOf_injective
          (show Scenario.nameOf f.id (c.created + 1) = Scenario.nameOf fsm n' from hname')
        obtain rfl := DefinitionSet.index_inj hnodup hg hf (hid.trans hfsm)
        have hcount : k = c.created := by simpa [hc] using hk.symm
        omega
    · rcases (hlookup id x).mp hx with ⟨rfl, rfl⟩ | hx
      · have hle := (h.isSome_iff id').mp (by rw [hx']; rfl)
        exact absurd (Nat.lt_of_lt_of_le hlt hle.2) (by omega)
      · exact h.increasing id x id' x' fsm n n' hx hx' hname hname' hlt

/-- Every act keeps what is known, once the scenarios have been noted after it. -/
theorem Remembered.move {m : Moment} (hn : m.run.Numbered)
    (hnodup : (m.run.defs.fsms.map (·.id)).Nodup) (hanchored : m.run.Anchored)
    (move : Move m r') (h : m.run.Remembered known) : r'.Remembered (note known r') := by
  have hfollows := move.follows
  cases Effect.of_move hn move with
  | quiet scenarios gone counts created _ =>
      rw [note_of_sublist h scenarios]
      refine h.congr hfollows.defs counts created (fun _ => rfl) (fun id s s' hs hs' => ?_)
        (fun s hs => h.present s (scenarios.subset hs)) (fun id s hs => ?_)
      · obtain rfl := Option.some.inj (hs.symm.trans hs')
        exact .refl s
      · rcases h.ended id s hs with hold | hdead
        · by_cases hstays : s ∈ r'.scenarios
          · exact .inl hstays
          · exact .inr (gone s hold hstays).1
        · exact .inr hdead
  | alters s s' groups hs _ halters scenarios counts created _ =>
      rw [note_of_modify h hs halters.sameCard.id scenarios]
      exact h.modify hs halters.sameCard hfollows.defs counts created scenarios
  | admits index f c parent trigger subtree st _ _ hf hc _ heq =>
      rw [heq, note_of_admitted h]
      exact h.admitted hnodup hf hc
  | aborts index name error st _ hopen _ =>
      exact (hanchored.openScenario_ne_error name error st hopen).elim

theorem Fresh.remembered {d : DefinitionSet} {settings : RunSettings} {time : Int64}
    (h : r.Fresh d settings time) : r.Remembered fun _ => none where
  present s hs := by simp [h.scenarios] at hs
  id_eq id s hs := by cases hs
  isSome_iff id := by
    rw [h.created]
    constructor
    · intro hsome
      cases hsome
    · rintro ⟨hlow, hhigh⟩
      exact absurd (Nat.le_trans hlow hhigh) (by decide)
  ended id s hs := by cases hs
  named id s hs := by cases hs
  complete name hname := by
    have hsome := (h.anchored.exists_iff name).mpr hname
    rw [← h.tree.historyAt?_isSome_iff, h.historyAt?, pathOf, h.defs] at hsome
    simp [Layout.scenarioPath] at hsome
  increasing id s id' s' fsm n n' hs := by cases hs

end Noted

end TraceAutomata.Run
