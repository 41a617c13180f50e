import TraceAutomata.Proofs.Condition.Local
import TraceAutomata.Proofs.Definition.Compiled
import TraceAutomata.Proofs.Text

namespace TraceAutomata

namespace DefinitionDocument

theorem initialNames_of_mem {entry name : String} (h : name ∈ initialNames entry) :
    initialNames name = [name] := by
  rw [initialNames, List.mem_filterMap] at h
  obtain ⟨trimmed, hmem, hname⟩ := h
  obtain ⟨part, hpart, rfl⟩ := List.mem_map.mp hmem
  split at hname
  · cases hname
  · next hne =>
    obtain rfl := Option.some.inj hname
    have hplain : ∀ c ∈ Text.trimChars part, (c == ',' || c == '|') = false := fun c hc =>
      Text.separates_of_mem_split hpart (Text.mem_of_mem_trimChars hc)
    rw [initialNames, String.toList_ofList, Text.split_eq_singleton hplain, List.map_singleton,
      Text.trimChars_trimChars, List.filterMap_cons, if_neg hne]
    rfl

def only (d : DefinitionDocument) (id : String) : DefinitionDocument :=
  { d with initial := [id], fsms := d.fsms.filter (·.id == id) }

theorem compileFsms_filter {earlier earlier' : List String} {fsms fsms' : List FsmDefinition}
    (p : String → Bool) (h : compileFsms earlier fsms = .ok fsms')
    (hearlier : ∀ id ∈ earlier', id ∈ earlier) :
    compileFsms earlier' (fsms.filter fun f => p f.id) = .ok (fsms'.filter fun f => p f.id) := by
  induction fsms generalizing earlier earlier' fsms' with
  | nil =>
      obtain rfl : [] = fsms' := Except.ok.inj h
      rfl
  | cons f rest ih =>
      rw [compileFsms] at h
      simp only [bind_eq_ok_iff, check_bind_eq_ok_iff] at h
      obtain ⟨f', hf, hnew, rest', hrest, heq⟩ := h
      obtain rfl : f' :: rest' = fsms' := Except.ok.inj heq
      have hid : f'.id = f.id := by
        rw [(FsmDefinition.compile_eq_ok hf).1]
        rfl
      rw [List.filter_cons, List.filter_cons, hid]
      split
      · have hnew' : ¬ earlier'.contains f'.id = true := by
          simp only [List.contains_iff_mem] at hnew ⊢
          exact fun hmem => hnew (hearlier _ hmem)
        rw [compileFsms]
        simp only [bind_eq_ok_iff, check_bind_eq_ok_iff]
        refine ⟨f', hf, hnew', _, ih hrest fun id hmem => ?_, rfl⟩
        rcases List.mem_cons.mp hmem with rfl | hmem
        · exact List.mem_cons_self
        · exact List.mem_cons_of_mem _ (hearlier id hmem)
      · exact ih hrest fun id hmem => List.mem_cons_of_mem _ (hearlier id hmem)

end DefinitionDocument

/-- The same definitions with one fsm, which starts with the first event. -/
def DefinitionSet.only (d : DefinitionSet) (f : FsmDefinition) : DefinitionSet :=
  { d with document := d.document.only f.id, initial := [f.id], fsms := [f] }

theorem filter_id_eq_singleton {fsms : List FsmDefinition} (h : (fsms.map (·.id)).Nodup)
    {f : FsmDefinition} (hf : f ∈ fsms) : fsms.filter (fun g => g.id == f.id) = [f] := by
  obtain ⟨before, after, rfl⟩ := List.append_of_mem hf
  rw [List.map_append, List.map_cons, List.nodup_middle, List.nodup_cons, List.mem_append] at h
  obtain ⟨hbefore, hafter⟩ := not_or.mp h.1
  have hnone : ∀ list : List FsmDefinition, f.id ∉ list.map (·.id) →
      list.filter (fun g => g.id == f.id) = [] := by
    intro list hlist
    rw [List.filter_eq_nil_iff]
    intro g hg heq
    exact hlist (List.mem_map.mpr ⟨g, hg, beq_iff_eq.mp heq⟩)
  rw [List.filter_append, List.filter_cons, hnone before hbefore, hnone after hafter]
  simp

namespace DefinitionDocument

theorem Compiles.mem_values {d : DefinitionDocument} {defs : DefinitionSet} (h : d.Compiles defs)
    {entry : String × List Operation} (hentry : entry ∈ d.actions.entries) :
    entry.2 ∈ defs.actions.values := by
  have hfree : ∀ r ∈ reservedActions, entry.1 ≠ r.1 := by
    intro r hr heq
    have hfound := (Dict.mem_entries_iff d.actions entry.1 entry.2).mp hentry
    have hnone := h.actions_not_reserved r hr
    rw [Dict.contains, ← heq, hfound] at hnone
    cases hnone
  rw [Dict.mem_values_iff, h.actions]
  refine ⟨entry.1, ?_⟩
  have hall : ∀ (list : List (String × Operation)) (all : Dict (List Operation)),
      (∀ r ∈ list, entry.1 ≠ r.1) →
      (list.foldl (fun all r => all.insert r.1 [r.2]) all).find? entry.1 =
        all.find? entry.1 := by
    intro list
    induction list with
    | nil => exact fun _ _ => rfl
    | cons r rest ih =>
        intro all hne
        obtain ⟨hfirst, hrest⟩ := List.forall_mem_cons.mp hne
        rw [List.foldl_cons, ih _ hrest, Dict.find?_insert, if_neg hfirst]
  rw [hall reservedActions d.actions hfree]
  exact (Dict.mem_entries_iff d.actions entry.1 entry.2).mp hentry

theorem compile_only {d : DefinitionDocument} {defs : DefinitionSet} (h : d.compile = .ok defs)
    (hlocal : defs.Local) {f : FsmDefinition} (hf : f ∈ defs.fsms)
    (hinitial : f.id ∈ defs.initial) : (d.only f.id).compile = .ok (defs.only f) := by
  rw [compile_eq_ok_iff] at h ⊢
  have hone : ∀ {P : FsmDefinition → Prop}, (∀ g ∈ defs.fsms, P g) → ∀ g ∈ [f], P g := by
    intro P hall g hg
    obtain rfl := List.mem_singleton.mp hg
    exact hall g hf
  exact
    { document := congrArg (·.only f.id) h.document
      initial := by
        rw [h.initial] at hinitial
        obtain ⟨entry, -, hmem⟩ := List.mem_flatMap.mp hinitial
        change [f.id] = [f.id].flatMap initialNames
        rw [List.flatMap_singleton, initialNames_of_mem hmem]
      tests := h.tests
      actions := h.actions
      fsms := by
        have hfsms := compileFsms_filter (· == f.id) h.fsms fun id hid => hid
        rw [filter_id_eq_singleton h.wellFormed.nodup_ids hf] at hfsms
        exact hfsms
      id_not_blank := h.id_not_blank
      tests_not_reserved := h.tests_not_reserved
      actions_not_reserved := h.actions_not_reserved
      known_preconditions := h.known_preconditions
      initial_ne_nil := List.cons_ne_nil _ _
      known_initial := by
        intro id hid
        obtain rfl := List.mem_singleton.mp hid
        simp [DefinitionSet.only]
      operations := by
        intro entry hentry op hop
        have hop' := hlocal.actions entry.2 (h.mem_values hentry) op hop
        have hcheck := h.operations entry hentry op hop
        cases op with
        | spawn fsms => cases hop'
        | _ => exact hcheck
      known_fsm_preconditions := hone h.known_fsm_preconditions
      known_inputs := hone h.known_inputs
      known_actions := hone h.known_actions }

end DefinitionDocument

end TraceAutomata
