import Mathlib.Data.List.Forall2
import Mathlib.Data.List.Nodup
import TraceAutomata.Proofs.Scenario.Name
import TraceAutomata.Proofs.Store.Ongoing

namespace TraceAutomata

theorem exists_mapM_ok {α β ε : Type} {f : α → Except ε β} {R : α → β → Prop} {list : List α}
    (h : ∀ a ∈ list, ∃ b, f a = .ok b ∧ R a b) :
    ∃ bs, list.mapM f = .ok bs ∧ List.Forall₂ R list bs := by
  induction list with
  | nil => exact ⟨[], rfl, .nil⟩
  | cons a rest ih =>
      obtain ⟨⟨b, hb, hab⟩, hrest⟩ := List.forall_mem_cons.mp h
      obtain ⟨bs, hbs, hall⟩ := ih hrest
      refine ⟨b :: bs, ?_, .cons hab hall⟩
      rw [List.mapM_cons, hb, hbs]
      rfl

theorem foldlM_eq_ok {α β ε : Type} {f : β → α → Except ε β} {g : β → α → β} {list : List α}
    (h : ∀ a ∈ list, ∀ b, f b a = .ok (g b a)) (b : β) :
    list.foldlM f b = .ok (list.foldl g b) := by
  induction list generalizing b with
  | nil => rfl
  | cons a rest ih =>
      obtain ⟨hfirst, hrest⟩ := List.forall_mem_cons.mp h
      rw [List.foldlM_cons, hfirst b, List.foldl_cons]
      exact ih hrest (g b a)

namespace Store

variable {st : Store} {base : List String} {q : Quark}

theorem find?_child (hq : st.find? root base = some q) {name : String} {c : Quark}
    (hc : st.child? q name = some c) : st.find? root (base ++ [name]) = some c := by
  rw [find?_concat, hq]
  exact hc

theorem name_eq (t : st.Tree) {name : String} {c : Quark} (hc : st.child? q name = some c) :
    st.name c = .ok name := by
  obtain ⟨-, n, hn, -, hname⟩ := t.of_child q name c hc
  rw [Store.name, node, hn, ← hname]
  rfl

theorem ongoing_eq (t : st.Tree) (hq : st.find? root base = some q) :
    st.ongoing q = .ok ((st.below base).ongoing []) := by
  obtain ⟨n, hn⟩ := t.exists_node hq
  have hlog : (st.below base).intervalsAt [] = n.intervals.toList := by
    rw [View.intervalsAt, below, List.append_nil, historyAt?_of_find? hq hn]
    rfl
  rw [ongoing, node, hn, View.ongoing, hlog, Interval.ongoing, Array.getLast?_toList]
  rfl

theorem exists_children (t : st.Tree) (hq : st.find? root base = some q) :
    ∃ entries : List (String × Quark), st.children q = .ok (entries.map Prod.snd) ∧
      (entries.map Prod.fst).Pairwise (· < ·) ∧
      ∀ name c, (name, c) ∈ entries ↔ st.child? q name = some c := by
  obtain ⟨n, hn⟩ := t.exists_node hq
  refine ⟨n.children.entries, ?_, ?_, fun name c => ?_⟩
  · rw [children, node, hn]
    rfl
  · exact List.pairwise_map.mpr n.children.sorted
  · rw [Dict.mem_entries_iff, child?, hn]
    rfl

end Store

namespace History

open Store

def keep (value : String → Value) (found : Dict Value) (name : String) : Dict Value :=
  if (value name).isNull then found else found.insert name (value name)

theorem find?_foldl_keep (value : String → Value) (names : List String) (found : Dict Value)
    (name : String) :
    (names.foldl (keep value) found).find? name =
      if name ∈ names ∧ (value name).isNull = false then some (value name)
      else found.find? name := by
  induction names generalizing found with
  | nil => simp
  | cons other rest ih =>
      rw [List.foldl_cons, ih, keep]
      cases hnull : (value other).isNull with
      | true =>
          have hne : (value name).isNull = false → name ≠ other := by
            rintro hname rfl
            rw [hnull] at hname
            cases hname
          by_cases hmem : name ∈ rest
          · simp [hmem]
          · by_cases hother : name = other
            · subst hother
              simp [hnull]
            · simp [hmem, hother]
      | false =>
          by_cases hother : name = other
          · subst hother
            simp [hnull, Dict.find?_insert]
          · simp [hother, Dict.find?_insert]

theorem find?_slot {st : Store} {base : List String} {q : Quark}
    (hq : st.find? root base = some q) (slot : String) :
    st.find? root (base ++ Layout.slotPath slot) =
      (st.find? q [Layout.scratch]).bind fun scratch => st.child? scratch slot := by
  rw [Layout.slotPath, List.append_cons, find?_concat, find?_append, hq]
  rfl

theorem ongoing_eq_null {st : Store} {base path : List String}
    (h : st.find? root (base ++ path) = none) : (st.below base).ongoing path = .null := by
  simp [View.ongoing, View.intervalsAt, below, historyAt?, h, Interval.ongoing]

theorem scratchValue_eq {st : Store} (t : st.Tree) {base : List String} {scratch c : Quark}
    (hfind : st.find? root (base ++ [Layout.scratch]) = some scratch) {name : String}
    (hc : st.child? scratch name = some c) (found : Dict Value) :
    (do
      let value ← st.ongoing c
      if value.isNull then return found else return found.insert (← st.name c) value) =
    Except.ok (keep (fun slot => (st.below base).ongoing (Layout.slotPath slot)) found name) := by
  have hvalue : (st.below (base ++ [Layout.scratch] ++ [name])).ongoing [] =
      (st.below base).ongoing (Layout.slotPath name) := by
    simp [View.ongoing, View.intervalsAt, below, Layout.slotPath]
  simp only [ongoing_eq t (find?_child hfind hc), name_eq t hc, hvalue]
  rw [keep]
  change (if _ then pure found else pure (found.insert name _)) = Except.ok _
  split <;> rfl

theorem scratchValues_spec {st : Store} (t : st.Tree) {base : List String} {q : Quark}
    (hq : st.find? root base = some q) :
    ∃ values, scratchValues st q = .ok values ∧ ∀ slot, values.find? slot =
      if ((st.below base).ongoing (Layout.slotPath slot)).isNull then none
      else some ((st.below base).ongoing (Layout.slotPath slot)) := by
  let held := fun slot => (st.below base).ongoing (Layout.slotPath slot)
  rw [scratchValues]
  cases hscratch : st.resolve q [Layout.scratch] with
  | error e =>
      have hmissing : st.find? q [Layout.scratch] = none := by
        cases hfind : st.find? q [Layout.scratch] with
        | none => rfl
        | some c =>
            rw [(resolve_eq_ok_iff st q c _).mpr hfind] at hscratch
            cases hscratch
      refine ⟨∅, rfl, fun slot => ?_⟩
      rw [ongoing_eq_null (by rw [find?_slot hq, hmissing]; rfl)]
      rfl
  | ok scratch =>
      rw [resolve_eq_ok_iff] at hscratch
      have hfind : st.find? root (base ++ [Layout.scratch]) = some scratch := by
        rw [find?_append, hq]
        exact hscratch
      obtain ⟨entries, hchildren, -, hentries⟩ := exists_children t hfind
      refine ⟨(entries.map Prod.fst).foldl (keep held) ∅, ?_, fun slot => ?_⟩
      · simp only [hchildren]
        change List.foldlM _ ∅ (entries.map Prod.snd) = _
        rw [List.foldlM_map, foldlM_eq_ok (g := fun found e => keep held found e.1), List.foldl_map]
        rintro ⟨name, c⟩ hmem found
        exact scratchValue_eq t hfind ((hentries name c).mp hmem) found
      · have hnot : slot ∉ entries.map Prod.fst → (held slot).isNull = true := by
          intro hslot
          have hmissing : st.child? scratch slot = none := by
            cases hchild : st.child? scratch slot with
            | none => rfl
            | some c => exact (hslot (List.mem_map.mpr ⟨_, (hentries slot c).mpr hchild, rfl⟩)).elim
          have hnull : held slot = .null :=
            ongoing_eq_null (by rw [find?_slot hq, hscratch]; exact hmissing)
          rw [hnull]
          rfl
        rw [find?_foldl_keep, Dict.find?_empty]
        change _ = if (held slot).isNull then none else some (held slot)
        cases hnull : (held slot).isNull with
        | true => simp
        | false =>
            have hslot : slot ∈ entries.map Prod.fst := by
              by_contra hslot
              rw [hnot hslot] at hnull
              cases hnull
            simp [hslot]

end History

namespace ScenarioRecord

open Store

/-- A record has the values that hold in a view. -/
structure ReadFrom (v : View) (name : String) (record : ScenarioRecord) : Prop where
  name : record.name = name
  fsm : record.fsm = ((v.ongoing [Layout.fsm]).string?).getD ""
  parent : record.parent = (v.ongoing [Layout.parent]).string?
  state : record.state = ((v.ongoing [Layout.state]).string?).getD ""
  status : record.status = ((v.ongoing [Layout.status]).string?).getD ""
  startTime : record.startTime = (v.ongoing [Layout.startTime]).int64?
  endTime : record.endTime = (v.ongoing [Layout.endTime]).int64?
  scratch : ∀ slot, record.scratch.find? slot =
    if (v.ongoing (Layout.slotPath slot)).isNull then none
    else some (v.ongoing (Layout.slotPath slot))

theorem ReadFrom.unique {v : View} {name : String} {record record' : ScenarioRecord}
    (h : ReadFrom v name record) (h' : ReadFrom v name record') : record = record' := by
  obtain ⟨n, fsm, parent, state, status, startTime, endTime, scratch⟩ := record
  obtain ⟨n', fsm', parent', state', status', startTime', endTime', scratch'⟩ := record'
  have hscratch : scratch = scratch' :=
    Dict.ext_find? fun slot => (h.scratch slot).trans (h'.scratch slot).symm
  rw [mk.injEq]
  exact ⟨h.name.trans h'.name.symm, h.fsm.trans h'.fsm.symm, h.parent.trans h'.parent.symm,
    h.state.trans h'.state.symm, h.status.trans h'.status.symm,
    h.startTime.trans h'.startTime.symm, h.endTime.trans h'.endTime.symm, hscratch⟩

section Read

variable {st : Store} (t : st.Tree) {base : List String}

include t

theorem childValue_eq {q : Quark} (hq : st.find? root base = some q) (name : String) :
    childValue st q name = (st.below base).ongoing [name] := by
  have hfind : st.find? root (base ++ [name]) = st.find? q [name] := by
    rw [find?_append, hq]
    rfl
  rw [childValue]
  cases hresolve : st.resolve q [name] with
  | error e =>
      cases hchild : st.find? q [name] with
      | none => simp [View.ongoing, View.intervalsAt, below, historyAt?, hfind, hchild,
          Interval.ongoing]
      | some c =>
          rw [(resolve_eq_ok_iff st q c [name]).mpr hchild] at hresolve
          cases hresolve
  | ok c =>
      rw [resolve_eq_ok_iff, ← hfind] at hresolve
      simp only [ongoing_eq t hresolve, View.ongoing, View.intervalsAt, below, List.append_nil]

theorem exists_read {q c : Quark} {name : String} (hq : st.find? root base = some q)
    (hc : st.child? q name = some c) :
    ∃ record, read st c = .ok record ∧ ReadFrom (st.below (base ++ [name])) name record := by
  have hfind := find?_child hq hc
  obtain ⟨scratch, hscratch, hslots⟩ := History.scratchValues_spec t hfind
  rw [read, name_eq t hc, hscratch]
  simp only [childValue_eq t hfind]
  exact ⟨_, rfl, rfl, rfl, rfl, rfl, rfl, rfl, rfl, hslots⟩

theorem exists_scan {q : Quark} (hq : st.find? root base = some q) :
    ∃ entries : List (String × Quark),
      st.scan q [Layout.scenarios, wildcard] = .ok (entries.map Prod.snd) ∧
        (entries.map Prod.fst).Pairwise (· < ·) ∧ ∀ name c, (name, c) ∈ entries ↔
          (st.child? q Layout.scenarios).bind (fun all => st.child? all name) = some c := by
  have hfind : st.find? q [Layout.scenarios] = st.child? q Layout.scenarios := by
    rw [find?]
    cases st.child? q Layout.scenarios <;> rfl
  have hliteral : Layout.scenarios ≠ wildcard := by decide
  rw [scan, List.foldlM_cons, List.mapM_cons, matching, if_neg hliteral]
  cases hresolve : st.resolve q [Layout.scenarios] with
  | error e =>
      have hnone : st.child? q Layout.scenarios = none := by
        rw [← hfind]
        cases hchild : st.find? q [Layout.scenarios] with
        | none => rfl
        | some c =>
            rw [(resolve_eq_ok_iff st q c _).mpr hchild] at hresolve
            cases hresolve
      refine ⟨[], rfl, .nil, fun name c => ?_⟩
      simp [hnone]
  | ok all =>
      rw [resolve_eq_ok_iff, hfind] at hresolve
      obtain ⟨entries, hchildren, hsorted, hentries⟩ :=
        exists_children t (find?_child hq hresolve)
      refine ⟨entries, ?_, hsorted, fun name c => ?_⟩
      · simp [bind, Except.bind, pure, Except.pure, matching, hchildren]
      · rw [hentries, hresolve, Option.bind_some]

/-- There is a record for each attribute in the place of scenarios, and for nothing else. -/
theorem list_spec {q : Quark} (hq : st.find? root base = some q) :
    ∃ names : List String, names.Pairwise (· < ·) ∧
      (∀ name, name ∈ names ↔
        (st.find? root (base ++ Layout.scenarioPath name)).isSome) ∧
      ∃ records, list st q = .ok (records.mergeSort notAfter) ∧
        List.Forall₂ (fun name => ReadFrom (st.below (base ++ Layout.scenarioPath name)) name) names
          records := by
  obtain ⟨entries, hscan, hsorted, hentries⟩ := exists_scan t hq
  have hpath : ∀ name, st.find? root (base ++ Layout.scenarioPath name) =
      (st.child? q Layout.scenarios).bind fun all => st.child? all name := by
    intro name
    rw [Layout.scenarioPath, List.append_cons, find?_concat, find?_concat, hq]
    rfl
  refine ⟨entries.map Prod.fst, hsorted, fun name => ?_, ?_⟩
  · rw [hpath, Option.isSome_iff_exists, List.mem_map]
    simp only [← hentries, Prod.exists, exists_and_right, exists_eq_right]
  · have hread : ∀ e ∈ entries, ∃ record, read st e.2 = .ok record ∧
        ReadFrom (st.below (base ++ Layout.scenarioPath e.1)) e.1 record := by
      rintro ⟨name, c⟩ hmem
      obtain ⟨all, hall, hc⟩ := Option.bind_eq_some_iff.mp ((hentries name c).mp hmem)
      obtain ⟨record, hrecord, hfrom⟩ := exists_read t (find?_child hq hall) hc
      refine ⟨record, hrecord, ?_⟩
      rwa [List.append_assoc] at hfrom
    obtain ⟨records, hrecords, hall⟩ := exists_mapM_ok (f := read st ∘ Prod.snd) hread
    refine ⟨records, ?_, ?_⟩
    · rw [list, hscan]
      change (do return (← (entries.map Prod.snd).mapM (read st)).mergeSort notAfter) = _
      rw [List.mapM_map, hrecords]
      rfl
    · exact List.forall₂_map_left_iff.mpr hall

end Read

theorem notAfter_iff (a b : ScenarioRecord) :
    a.notAfter b = true ↔ a.fsm < b.fsm ∨ a.fsm = b.fsm ∧ a.sequence ≤ b.sequence := by
  simp [notAfter]

theorem notAfter_trans (a b c : ScenarioRecord) (h : a.notAfter b = true)
    (h' : b.notAfter c = true) : a.notAfter c = true := by
  rw [notAfter_iff] at *
  rcases h with hlt | ⟨heq, hle⟩
  · rcases h' with hlt' | ⟨heq', -⟩
    · exact .inl (String.lt_trans hlt hlt')
    · exact .inl (heq' ▸ hlt)
  · rcases h' with hlt' | ⟨heq', hle'⟩
    · exact .inl (heq ▸ hlt')
    · exact .inr ⟨heq.trans heq', Nat.le_trans hle hle'⟩

theorem notAfter_total (a b : ScenarioRecord) : (a.notAfter b || b.notAfter a) = true := by
  rw [Bool.or_eq_true, notAfter_iff, notAfter_iff]
  by_cases hlt : a.fsm < b.fsm
  · exact .inl (.inl hlt)
  · by_cases hgt : b.fsm < a.fsm
    · exact .inr (.inl hgt)
    · have heq := eq_of_not_lt hlt hgt
      rcases Nat.le_total a.sequence b.sequence with hle | hle
      · exact .inl (.inr ⟨heq, hle⟩)
      · exact .inr (.inr ⟨heq.symm, hle⟩)

theorem append_inj_of_split {α : Type} {p : α → Bool} {list₁ list₂ list₁' list₂' : List α}
    (h : list₁ ++ list₂ = list₁' ++ list₂') (h₁ : ∀ a ∈ list₁, p a = true)
    (h₂ : ∀ a ∈ list₂, p a = false) (h₁' : ∀ a ∈ list₁', p a = true)
    (h₂' : ∀ a ∈ list₂', p a = false) : list₁ = list₁' ∧ list₂ = list₂' := by
  have hfilter : ∀ front back : List α, (∀ a ∈ front, p a = true) → (∀ a ∈ back, p a = false) →
      (front ++ back).filter p = front := by
    intro front back hfront hback
    rw [List.filter_append, List.filter_eq_self.mpr hfront, List.filter_eq_nil_iff.mpr,
      List.append_nil]
    intro a ha
    simp [hback a ha]
  obtain rfl : list₁ = list₁' := by
    rw [← hfilter list₁ list₂ h₁ h₂, h, hfilter list₁' list₂' h₁' h₂']
  exact ⟨rfl, List.append_cancel_left h⟩

theorem filter_mergeSort {α : Type} {le : α → α → Bool}
    (trans : ∀ a b c, le a b = true → le b c = true → le a c = true)
    (total : ∀ a b, (le a b || le b a) = true) (p : α → Bool) (list : List α) :
    (list.mergeSort le).filter p = (list.filter p).mergeSort le := by
  have hafter : ∀ (a : α) (rest before after : List α),
      (a :: rest).mergeSort le = before ++ a :: after → ∀ b ∈ after, (!le a b) = false := by
    intro a rest before after hsort b hb
    have hpairwise := List.pairwise_mergeSort trans total (a :: rest)
    rw [hsort, List.pairwise_append, List.pairwise_cons] at hpairwise
    simp [hpairwise.2.1.1 b hb]
  induction list with
  | nil => simp
  | cons a rest ih =>
      obtain ⟨before, after, hsort, hrest, hbefore⟩ := List.mergeSort_cons trans total a rest
      rw [hrest, List.filter_append] at ih
      rw [hsort, List.filter_append]
      cases hp : p a with
      | false =>
          rw [List.filter_cons_of_neg (by simp [hp]), List.filter_cons_of_neg (by simp [hp])]
          exact ih
      | true =>
          rw [List.filter_cons_of_pos hp, List.filter_cons_of_pos hp]
          obtain ⟨before', after', hsort', hrest', hbefore'⟩ :=
            List.mergeSort_cons trans total a (rest.filter p)
          obtain ⟨hfront, hback⟩ := append_inj_of_split (p := fun b => !le a b)
            (ih.trans hrest') (fun b hb => hbefore b (List.mem_of_mem_filter hb))
            (fun b hb => hafter a rest before after hsort b (List.mem_of_mem_filter hb)) hbefore'
            (hafter a (rest.filter p) before' after' hsort')
          rw [hsort', hfront, hback]

end ScenarioRecord

end TraceAutomata
