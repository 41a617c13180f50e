import Mathlib.Data.List.Forall2
import TraceAutomata.Proofs.Store.Ancestry
import TraceAutomata.Proofs.Store.Walk
import TraceAutomata.Store.Shared

namespace TraceAutomata.Store

/-- A segment of a pattern matches its own name, or every name if it is the wildcard. -/
def SegmentMatches (segment name : String) : Prop :=
  segment = wildcard ∨ name = segment

instance (segment name : String) : Decidable (SegmentMatches segment name) := by
  unfold SegmentMatches
  infer_instance

/-- The way down from an attribute to another one, as parents and names tell it. -/
inductive Descends (st : Store) (base : Quark) : List String → Quark → Prop
  | here : Descends st base [] base
  | down {q c : Quark} {n : Node} {path : List String} (h : Descends st base path q)
      (hn : st.nodes[c]? = some n) (hparent : n.parent = some q) :
      Descends st base (path ++ [n.name]) c

section Descends

variable {st : Store} {base q : Quark} {path : List String}

theorem Tree.descends_iff (t : st.Tree) :
    st.Descends base path q ↔ st.find? base path = some q := by
  constructor
  · intro h
    induction h with
    | here => rfl
    | @down q c n path _ hn hparent ih =>
        have hroot : c ≠ root := by
          rintro rfl
          obtain ⟨n', hn', hnone⟩ := t.root_node
          obtain rfl := Option.some.inj (hn.symm.trans hn')
          rw [hparent] at hnone
          cases hnone
        obtain ⟨p, hp, hchild⟩ := t.of_parent c n hn hroot
        obtain rfl : p = q := Option.some.inj (hp.symm.trans hparent)
        rw [find?_concat, ih, Option.bind_some, hchild]
  · intro h
    induction path using List.reverseRecOn generalizing q with
    | nil =>
        obtain rfl : base = q := Option.some.inj h
        exact .here
    | append_singleton path name ih =>
        rw [find?_concat] at h
        obtain ⟨p, hp, hchild⟩ := Option.bind_eq_some_iff.mp h
        obtain ⟨-, n, hn, hparent, rfl⟩ := t.of_child p name q hchild
        exact .down (ih hp) hn hparent

theorem Tree.descends_unique (t : st.Tree) (hbase : base < st.nodes.size) {path' : List String}
    (h : st.Descends base path q) (h' : st.Descends base path' q) : path = path' := by
  obtain ⟨-, hsegments⟩ := t.find?_lt_of_lt hbase (t.descends_iff.mp h)
  obtain ⟨-, hsegments'⟩ := t.find?_lt_of_lt hbase (t.descends_iff.mp h')
  exact List.append_cancel_left (hsegments.symm.trans hsegments')

end Descends

/-- The attributes one step further down that a segment matches, with their paths. -/
def stepDown (st : Store) (segment : String) (x : List String × Quark) :
    List (List String × Quark) :=
  match st.nodes[x.2]? with
  | some n =>
      (n.children.entries.filter fun e => SegmentMatches segment e.1).map fun e =>
        (x.1 ++ [e.1], e.2)
  | none => []

section StepDown

variable {st : Store} {segment : String} {x : List String × Quark}

theorem mem_stepDown {path : List String} {c : Quark} :
    (path, c) ∈ st.stepDown segment x ↔
      ∃ name, SegmentMatches segment name ∧ st.child? x.2 name = some c ∧ path = x.1 ++ [name] := by
  simp only [stepDown, child?]
  cases st.nodes[x.2]? with
  | none => simp
  | some n =>
      simp only [List.mem_map, List.mem_filter, decide_eq_true_eq, Prod.exists, Prod.mk.injEq,
        Option.bind_some, ← Dict.mem_entries_iff]
      constructor
      · rintro ⟨name, child, ⟨hmem, hmatches⟩, rfl, rfl⟩
        exact ⟨name, hmatches, hmem, rfl⟩
      · rintro ⟨name, hmatches, hmem, rfl⟩
        exact ⟨name, c, ⟨hmem, hmatches⟩, rfl, rfl⟩

theorem beside_stepDown (st : Store) (segment : String) (x : List String × Quark) :
    (st.stepDown segment x).Pairwise fun a b => Beside a.1 b.1 := by
  rw [stepDown]
  split
  · next n _ =>
    have hsorted := n.children.sorted.sublist
      (List.filter_sublist (p := fun e => decide (SegmentMatches segment e.1)))
    exact List.pairwise_map.mpr (hsorted.imp fun h => .children x.1 h)
  · exact .nil

theorem filter_eq_lookup {α : Type} {entries : List (String × α)}
    (h : entries.Pairwise fun a b => a.1 < b.1) (name : String) :
    entries.filter (fun e => decide (e.1 = name)) =
      (entries.lookup name).toList.map fun value => (name, value) := by
  induction entries with
  | nil => rfl
  | cons e rest ih =>
      obtain ⟨other, value⟩ := e
      obtain ⟨hless, hrest⟩ := List.pairwise_cons.mp h
      rw [lookup_cons_eq_ite, List.filter_cons, ih hrest]
      by_cases hname : other = name
      · subst hname
        have hnone : rest.lookup other = none := by
          rw [List.lookup_eq_none_iff]
          intro e he
          simpa using (String.ne_of_lt (hless e he))
        simp [hnone]
      · simp [hname, Ne.symm hname]

theorem matching_eq (hx : x.2 < st.nodes.size) :
    st.matching segment x.2 = .ok ((st.stepDown segment x).map Prod.snd) := by
  have hn := Array.getElem?_eq_getElem hx
  rw [matching, stepDown, hn]
  by_cases hsegment : segment = wildcard
  · simp [hsegment, children, node, hn, Dict.values, Except.map, SegmentMatches]
  · have hone : ∀ name, SegmentMatches segment name ↔ name = segment := fun name =>
      or_iff_right hsegment
    simp only [if_neg hsegment, hone, filter_eq_lookup st.nodes[x.2].children.sorted]
    cases hchild : st.nodes[x.2].children.find? segment with
    | none =>
        rw [Dict.find?] at hchild
        simp [resolve, node, hn, bind, Except.bind, Dict.find?, hchild]
    | some c =>
        rw [Dict.find?] at hchild
        simp [resolve, node, hn, bind, Except.bind, Dict.find?, hchild]

end StepDown

theorem forall₂_concat_iff {α β : Type} {R : α → β → Prop} {as : List α} {a : α} {bs : List β} :
    List.Forall₂ R (as ++ [a]) bs ↔ ∃ front b, bs = front ++ [b] ∧ List.Forall₂ R as front ∧ R a b := by
  rw [← List.forall₂_reverse_iff, List.reverse_append, List.reverse_singleton,
    List.singleton_append, List.forall₂_cons_left_iff]
  constructor
  · rintro ⟨b, rest, hb, hrest, hreverse⟩
    refine ⟨rest.reverse, b, ?_, ?_, hb⟩
    · rw [← List.reverse_reverse bs, hreverse, List.reverse_cons]
    · rwa [← List.forall₂_reverse_iff, List.reverse_reverse]
  · rintro ⟨front, b, rfl, hfront, hb⟩
    refine ⟨b, front.reverse, hb, List.forall₂_reverse_iff.mpr hfront, ?_⟩
    rw [List.reverse_append, List.reverse_singleton, List.singleton_append]

theorem mapM_eq_ok {α β ε : Type} {f : α → Except ε β} {g : α → β} {list : List α}
    (h : ∀ a ∈ list, f a = .ok (g a)) : list.mapM f = .ok (list.map g) := by
  induction list with
  | nil => rfl
  | cons a rest ih =>
      obtain ⟨hfirst, hrest⟩ := List.forall_mem_cons.mp h
      rw [List.mapM_cons, hfirst, ih hrest]
      rfl

/-- The attributes that a scan has found after some segments, with their paths. -/
structure Level (st : Store) (base : Quark) (pattern : List String)
    (entries : List (List String × Quark)) : Prop where
  mem_iff : ∀ path q, (path, q) ∈ entries ↔
    st.Descends base path q ∧ List.Forall₂ SegmentMatches pattern path
  sorted : entries.Pairwise fun a b => Beside a.1 b.1

section Level

variable {st : Store} {base : Quark} {pattern : List String} {entries : List (List String × Quark)}

theorem level_nil (st : Store) (base : Quark) (t : st.Tree) : st.Level base [] [([], base)] where
  mem_iff path q := by
    rw [List.mem_singleton, Prod.mk.injEq, List.forall₂_nil_left_iff, t.descends_iff]
    constructor
    · rintro ⟨rfl, rfl⟩
      exact ⟨rfl, rfl⟩
    · rintro ⟨h, rfl⟩
      exact ⟨rfl, (Option.some.inj h).symm⟩
  sorted := List.pairwise_singleton _ _

theorem Level.next (h : st.Level base pattern entries) (t : st.Tree) (segment : String) :
    st.Level base (pattern ++ [segment]) (entries.flatMap (st.stepDown segment)) where
  mem_iff path c := by
    simp only [List.mem_flatMap, Prod.exists, mem_stepDown, h.mem_iff, forall₂_concat_iff,
      t.descends_iff]
    constructor
    · rintro ⟨front, q, ⟨hq, hfront⟩, name, hmatches, hchild, rfl⟩
      refine ⟨?_, front, name, rfl, hfront, hmatches⟩
      rw [find?_concat, hq, Option.bind_some, hchild]
    · rintro ⟨hpath, front, name, rfl, hfront, hmatches⟩
      rw [find?_concat] at hpath
      obtain ⟨q, hq, hchild⟩ := Option.bind_eq_some_iff.mp hpath
      exact ⟨front, q, ⟨hq, hfront⟩, name, hmatches, hchild, rfl⟩
  sorted := by
    refine List.pairwise_flatMap.mpr ⟨fun x _ => st.beside_stepDown segment x, ?_⟩
    refine h.sorted.imp fun hab => ?_
    rintro ⟨path, q⟩ hpath ⟨path', q'⟩ hpath'
    obtain ⟨name, -, -, rfl⟩ := mem_stepDown.mp hpath
    obtain ⟨name', -, -, rfl⟩ := mem_stepDown.mp hpath'
    exact hab.append [name] [name']

/-- By induction on the pattern from its end: each segment takes the scan one level down. -/
theorem scan_level (t : st.Tree) (hbase : base < st.nodes.size) (pattern : List String) :
    ∃ entries, st.scan base pattern = .ok (entries.map Prod.snd) ∧ st.Level base pattern entries := by
  induction pattern using List.reverseRecOn with
  | nil => exact ⟨_, rfl, level_nil st base t⟩
  | append_singleton pattern segment ih =>
      obtain ⟨entries, hscan, hlevel⟩ := ih
      refine ⟨_, ?_, hlevel.next t segment⟩
      have hmatching : ∀ x ∈ entries, st.matching segment x.2 =
          .ok ((st.stepDown segment x).map Prod.snd) := by
        intro x hx
        have hdown := ((hlevel.mem_iff x.1 x.2).mp hx).1
        exact matching_eq (t.find?_lt_of_lt hbase (t.descends_iff.mp hdown)).1
      have hfound : (entries.map Prod.snd).mapM (st.matching segment) =
          .ok (entries.map fun x => (st.stepDown segment x).map Prod.snd) := by
        rw [List.mapM_map]
        exact mapM_eq_ok hmatching
      rw [scan] at hscan ⊢
      rw [List.foldlM_append, hscan]
      simp [bind, Except.bind, pure, Except.pure, hfound, List.flatMap_def, List.map_flatten,
        Function.comp_def]

end Level

theorem matching_eq_reader (st : Store) : st.matching = st.reader.matching := by
  funext segment q
  rw [matching, StoreReader.matching]
  split
  · rfl
  · change _ = tryCatch (st.resolve q [segment] >>= fun c => pure [c]) _
    cases st.resolve q [segment] <;> rfl

theorem scan_eq_reader (st : Store) (q : Quark) (pattern : List String) :
    st.scan q pattern = st.reader.scan q pattern := by
  rw [scan, matching_eq_reader, StoreReader.scan]

end TraceAutomata.Store

namespace TraceAutomata.SharedM

variable {α β : Type}

theorem read_bind (look : Store → Except StoreError α) (next : α → Store → Except StoreError β) :
    (read look >>= fun a => read (next a)) = read fun st => look st >>= fun a => next a st := by
  funext st
  simp only [read, bind, EStateM.bind, Except.bind]
  cases look st <;> rfl

theorem read_map (look : Store → Except StoreError α) (f : α → β) :
    (read look >>= fun a => pure (f a)) = read fun st => look st >>= fun a => pure (f a) :=
  read_bind look fun a _ => .ok (f a)

theorem read_mapM {look : α → Store → Except StoreError β} (list : List α) :
    (list.mapM fun a => read (look a)) = read fun st => list.mapM fun a => look a st := by
  induction list with
  | nil => rfl
  | cons a rest ih =>
      simp only [List.mapM_cons, ih, read_map, read_bind]

theorem read_foldlM {look : β → α → Store → Except StoreError β} (list : List α) (b : β) :
    (list.foldlM (fun b a => read (look b a)) b) =
      read fun st => list.foldlM (fun b a => look b a st) b := by
  induction list generalizing b with
  | nil => rfl
  | cons a rest ih => simp only [List.foldlM_cons, ih, read_bind]

theorem matching_eq (segment : String) :
    reader.matching segment = fun q => read fun st => st.reader.matching segment q := by
  funext q st
  simp only [StoreReader.matching, read]
  split
  · rfl
  · simp only [tryCatch, tryCatchThe, MonadExceptOf.tryCatch, EStateM.tryCatch, Except.tryCatch, bind,
      EStateM.bind, Except.bind, reader, Store.reader, read]
    cases st.resolve q [segment] <;> rfl

/-- A scan of a shared store, whose operations come one after the other, finds what a scan of the store
finds at once, and leaves the store as it is. -/
theorem scan_eq (q : Quark) (pattern : List String) :
    reader.scan q pattern = read fun st => st.scan q pattern := by
  have hlevel : (fun (found : List Quark) (segment : String) => (do
      return (← found.mapM (reader.matching segment)).flatten : SharedM (List Quark))) =
      fun found segment => read fun st => do
        return (← found.mapM (st.reader.matching segment)).flatten := by
    funext found segment
    rw [matching_eq, read_mapM, read_map]
  simp only [Store.scan_eq_reader]
  rw [StoreReader.scan, hlevel, read_foldlM]
  rfl

end TraceAutomata.SharedM

namespace TraceAutomata.Store

/-- In every store, however it came about, a scan below an attribute that there is finds those attributes
below it whose paths match the pattern segment by segment, in the order of the paths and each of them
once. A scan of a shared store finds the same. -/
theorem scan_exact {st : Store} (h : st.Built) {base : Quark} (hbase : base < st.size)
    (pattern : List String) :
    ∃ entries : List (List String × Quark),
      st.scan base pattern = .ok (entries.map Prod.snd) ∧
      SharedM.reader.scan base pattern st = .ok (entries.map Prod.snd) st ∧
      (∀ path q, (path, q) ∈ entries ↔
        st.Descends base path q ∧ List.Forall₂ SegmentMatches pattern path) ∧
      (entries.map Prod.fst).Pairwise (· < ·) ∧ (entries.map Prod.snd).Nodup := by
  have t := h.reached.tree
  obtain ⟨entries, hscan, hlevel⟩ := scan_level t hbase pattern
  have hsorted : entries.Pairwise fun a b => a.1 < b.1 := hlevel.sorted.imp Beside.lt
  refine ⟨entries, hscan, ?_, hlevel.mem_iff, List.pairwise_map.mpr hsorted, ?_⟩
  · rw [SharedM.scan_eq, SharedM.read, hscan]
  · refine List.pairwise_map.mpr (hsorted.imp_of_mem fun {a b} ha hb hlt heq => ?_)
    have hpath := t.descends_unique hbase ((hlevel.mem_iff a.1 a.2).mp ha).1
      (heq ▸ ((hlevel.mem_iff b.1 b.2).mp hb).1)
    exact List.lt_irrefl a.1 (hpath ▸ hlt)

/-- A wildcard goes to the children in the order of their names, not of their creation. -/
theorem scan_exact_sample :
    let st := (empty 0).updateAll [.create root ["p", "b", "x"], .create root ["p", "a", "x"],
      .create root ["p", "a", "y"]]
    st.Built ∧ 1 < st.size ∧ st.scan 1 [wildcard, "x"] = .ok [5, 3] ∧
      ∃ entries : List (List String × Quark), st.scan 1 [wildcard, "x"] = .ok (entries.map Prod.snd) ∧
        (entries.map Prod.fst).Pairwise (· < ·) := by
  intro st
  have hbuilt : st.Built := (Built.empty 0).updateAll _
  have hsize : 1 < st.size := by decide
  obtain ⟨entries, hscan, -, -, hsorted, -⟩ := scan_exact hbuilt hsize [wildcard, "x"]
  exact ⟨hbuilt, hsize, by decide, entries, hscan, hsorted⟩

end TraceAutomata.Store
