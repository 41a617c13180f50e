import TraceAutomata.Dict

namespace TraceAutomata

universe u

variable {α : Type u}

theorem lookup_cons_eq_ite (name other : String) (value : α) (rest : List (String × α)) :
    ((name, value) :: rest).lookup other =
      if other = name then some value else rest.lookup other := by
  by_cases h : other = name
  · subst h
    simp
  · rw [List.lookup_cons, beq_false_of_ne h, if_neg h]

theorem lookup_insertEntry (name other : String) (value : α) (entries : List (String × α)) :
    (insertEntry name value entries).lookup other =
      if other = name then some value else entries.lookup other := by
  induction entries with
  | nil => simp [insertEntry, lookup_cons_eq_ite]
  | cons head rest ih =>
      obtain ⟨n, v⟩ := head
      rw [insertEntry]
      split
      · exact lookup_cons_eq_ite name other value _
      · split
        · next hlt =>
          have hne : n ≠ name := fun h => String.lt_irrefl n (h ▸ hlt)
          rw [lookup_cons_eq_ite, lookup_cons_eq_ite, ih]
          by_cases hn : other = n
          · subst hn
            simp [hne]
          · simp [hn]
        · next hnot hnot' =>
          obtain rfl := eq_of_not_lt hnot hnot'
          rw [lookup_cons_eq_ite, lookup_cons_eq_ite]
          by_cases h : other = name <;> simp [h]

theorem mem_of_lookup {name : String} {value : α} {entries : List (String × α)}
    (h : entries.lookup name = some value) : (name, value) ∈ entries := by
  induction entries with
  | nil => simp at h
  | cons head rest ih =>
      obtain ⟨n, v⟩ := head
      rw [lookup_cons_eq_ite] at h
      split at h
      · next hn =>
        subst hn
        obtain rfl := Option.some.inj h
        exact List.mem_cons_self
      · exact List.mem_cons_of_mem _ (ih h)

theorem lookup_of_mem {name : String} {value : α} {entries : List (String × α)}
    (sorted : entries.Pairwise fun a b => a.1 < b.1) (h : (name, value) ∈ entries) :
    entries.lookup name = some value := by
  induction entries with
  | nil => simp at h
  | cons head rest ih =>
      obtain ⟨n, v⟩ := head
      obtain ⟨hhead, hrest⟩ := List.pairwise_cons.mp sorted
      rw [lookup_cons_eq_ite]
      rcases List.mem_cons.mp h with heq | hmem
      · obtain ⟨rfl, rfl⟩ := Prod.mk.inj heq
        rw [if_pos rfl]
      · have hne : name ≠ n := fun hn => String.lt_irrefl n (hn ▸ hhead _ hmem)
        rw [if_neg hne]
        exact ih hrest hmem

theorem lookup_eq_none {name : String} {entries : List (String × α)}
    (h : name ∉ entries.map Prod.fst) : entries.lookup name = none := by
  rw [Option.eq_none_iff_forall_ne_some]
  exact fun value hvalue => h (List.mem_map.mpr ⟨_, mem_of_lookup hvalue, rfl⟩)

theorem lookup_foldl_insertEntry {entries : List (String × α)}
    (nodup : (entries.map Prod.fst).Nodup) (start : List (String × α)) (name : String) :
    (entries.foldl (fun found e => insertEntry e.1 e.2 found) start).lookup name =
      (entries.lookup name).or (start.lookup name) := by
  induction entries generalizing start with
  | nil => rfl
  | cons head rest ih =>
      obtain ⟨n, v⟩ := head
      obtain ⟨hnew, hrest⟩ := List.nodup_cons.mp nodup
      rw [List.foldl_cons, ih hrest, lookup_insertEntry, lookup_cons_eq_ite]
      split
      · next heq =>
        rw [lookup_eq_none (heq ▸ hnew)]
        rfl
      · rfl

theorem insertEntry_of_lt {name : String} {value : α} {entries : List (String × α)}
    (h : ∀ e ∈ entries, name < e.1) :
    insertEntry name value entries = (name, value) :: entries := by
  cases entries with
  | nil => rfl
  | cons head rest =>
      obtain ⟨n, v⟩ := head
      rw [insertEntry, if_pos (h _ List.mem_cons_self)]

namespace Dict

@[simp] theorem find?_empty (name : String) : (∅ : Dict α).find? name = none := rfl

theorem contains_eq_false_iff {d : Dict α} {name : String} :
    d.contains name = false ↔ d.find? name = none := by
  rw [contains, Option.isSome_eq_false_iff, Option.isNone_iff_eq_none]

theorem eq_empty {d : Dict α} (h : d.isEmpty = true) : d = ∅ :=
  ext (List.isEmpty_iff.mp h)

theorem find?_insert (d : Dict α) (name other : String) (value : α) :
    (d.insert name value).find? other = if other = name then some value else d.find? other :=
  lookup_insertEntry name other value d.entries

theorem mem_entries_iff (d : Dict α) (name : String) (value : α) :
    (name, value) ∈ d.entries ↔ d.find? name = some value :=
  ⟨lookup_of_mem d.sorted, mem_of_lookup⟩

theorem mem_values_iff (d : Dict α) (value : α) :
    value ∈ d.values ↔ ∃ name, d.find? name = some value := by
  simp only [values, List.mem_map, Prod.exists, exists_eq_right, mem_entries_iff]

theorem ext_find? {d d' : Dict α} (h : ∀ name, d.find? name = d'.find? name) : d = d' := by
  have hmem : ∀ e, e ∈ d.entries ↔ e ∈ d'.entries := by
    rintro ⟨name, value⟩
    rw [mem_entries_iff, mem_entries_iff, h]
  have hnodup : ∀ d : Dict α, d.entries.Nodup := by
    intro d
    refine List.Pairwise.imp ?_ d.sorted
    rintro a b hlt rfl
    exact String.lt_irrefl _ hlt
  have hperm : d.entries.Perm d'.entries :=
    (List.perm_ext_iff_of_nodup (hnodup d) (hnodup d')).mpr hmem
  apply ext
  refine hperm.eq_of_pairwise ?_ d.sorted d'.sorted
  intro a b _ _ hlt hgt
  exact (String.lt_irrefl _ (String.lt_trans hlt hgt)).elim

theorem entries_ofList (entries : List (String × α)) :
    (ofList entries).entries = entries.foldl (fun found e => insertEntry e.1 e.2 found) [] :=
  (List.foldl_hom Dict.entries fun _ _ => rfl).symm

theorem ofList_entries (d : Dict α) : ofList d.entries = d := by
  have hnodup : (d.entries.map Prod.fst).Nodup :=
    (List.pairwise_map.mpr d.sorted).imp String.ne_of_lt
  refine ext_find? fun name => ?_
  rw [find?, entries_ofList, lookup_foldl_insertEntry hnodup, List.lookup_nil, Option.or_none,
    find?]

theorem contains_ofList (entries : List (String × α)) (name : String) :
    (ofList entries).contains name = true ↔ name ∈ entries.map Prod.fst := by
  have hfold : ∀ base : Dict α,
      (entries.foldl (fun d e => d.insert e.1 e.2) base).contains name = true ↔
        base.contains name = true ∨ name ∈ entries.map Prod.fst := by
    induction entries with
    | nil => simp
    | cons e rest ih =>
        intro base
        rw [List.foldl_cons, ih, List.map_cons, List.mem_cons, contains, find?_insert]
        by_cases hname : name = e.1
        · simp [hname]
        · simp [hname, contains]
  rw [ofList, hfold]
  simp [contains]

end Dict

end TraceAutomata
