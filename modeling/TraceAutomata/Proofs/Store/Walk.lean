import Mathlib.Data.List.Perm.Subperm
import TraceAutomata.Proofs.Store.Update

namespace TraceAutomata

/-- Of the first names in which two paths differ, that of the first path is the smaller one. -/
def Beside (a b : List String) : Prop :=
  ∃ front x y rest rest', x < y ∧ a = front ++ x :: rest ∧ b = front ++ y :: rest'

/-- In depth-first order an attribute comes before those below it, and what lies below a child
comes before the children with greater names. -/
def Precedes (a b : List String) : Prop :=
  (∃ name rest, b = a ++ name :: rest) ∨ Beside a b

namespace Beside

variable {a b : List String}

theorem append (h : Beside a b) (more more' : List String) : Beside (a ++ more) (b ++ more') := by
  obtain ⟨front, x, y, rest, rest', hlt, rfl, rfl⟩ := h
  exact ⟨front, x, y, rest ++ more, rest' ++ more', hlt, by simp, by simp⟩

theorem children (path : List String) {x y : String} (h : x < y) :
    Beside (path ++ [x]) (path ++ [y]) :=
  ⟨path, x, y, [], [], h, rfl, rfl⟩

theorem lt (h : Beside a b) : a < b := by
  obtain ⟨front, x, y, ra, rb, hlt, rfl, rfl⟩ := h
  induction front with
  | nil => exact List.Lex.rel hlt
  | cons name front ih => exact List.Lex.cons ih

end Beside

namespace Precedes

variable {a b : List String}

theorem lt (h : Precedes a b) : a < b := by
  rcases h with ⟨name, rest, rfl⟩ | h
  · induction a with
    | nil => exact List.Lex.nil
    | cons x a ih => exact List.Lex.cons ih
  · exact h.lt

theorem irrefl : ¬ Precedes a a :=
  fun h => List.lt_irrefl a h.lt

theorem asymm (h : Precedes a b) (h' : Precedes b a) : False :=
  List.lt_irrefl a (List.lt_trans h.lt h'.lt)

end Precedes

namespace Store

/-- The history of an attribute with its path, if it was ever written. -/
def written? (st : Store) (q : Quark) : Option AttributeHistory :=
  match st.nodes[q]? with
  | some n => if n.intervals.isEmpty then none else some ⟨st.segments q, n.intervals.toList⟩
  | none => none

def WrittenAt (st : Store) (a : AttributeHistory) : Prop :=
  st.intervalsAt a.path = a.intervals ∧ a.intervals ≠ []

theorem WrittenAt.exists_find? {st : Store} {a : AttributeHistory} (h : st.WrittenAt a) :
    ∃ q, st.find? root a.path = some q := by
  apply Option.isSome_iff_exists.mp
  by_contra hnone
  refine h.2 (h.1.symm.trans ?_)
  rw [intervalsAt, historyAt?, Option.not_isSome_iff_eq_none.mp hnone]
  rfl

/-- What is known of a walk when some attributes have been visited, the latest one first. -/
structure Walked (st : Store) (visited : List (Quark × List String)) (w : Walk) : Prop where
  find? : ∀ v ∈ visited ++ w.waiting, st.find? root v.2 = some v.1
  found : ∀ a, a ∈ w.found ↔ st.WrittenAt a ∧ a.path ∈ visited.map Prod.snd
  found_sorted : w.found.Pairwise fun a b => Precedes b.path a.path
  ahead : ∀ v ∈ visited, ∀ x ∈ w.waiting, Precedes v.2 x.2
  visited_sorted : visited.Pairwise fun v v' => Precedes v'.2 v.2
  apart : w.waiting.Pairwise fun x y => Beside x.2 y.2
  covers : ∀ path q, st.find? root path = some q →
    (q, path) ∈ visited ∨ ∃ x ∈ w.waiting, x.2 <+: path

def childrenAt (n : Node) (path : List String) : List (Quark × List String) :=
  n.children.entries.map fun (name, child) => (child, path ++ [name])

theorem mem_childrenAt {st : Store} {q : Quark} {n : Node} (hn : st.nodes[q]? = some n)
    {path : List String} {x : Quark × List String} :
    x ∈ childrenAt n path ↔ ∃ name, x.2 = path ++ [name] ∧ st.child? q name = some x.1 := by
  simp only [childrenAt, List.mem_map, Prod.exists, child?, hn, Option.bind_some,
    ← Dict.mem_entries_iff]
  constructor
  · rintro ⟨name, child, hmem, rfl⟩
    exact ⟨name, rfl, hmem⟩
  · rintro ⟨name, hpath, hmem⟩
    exact ⟨name, x.1, hmem, Prod.ext rfl hpath.symm⟩

theorem apart_childrenAt (n : Node) (path : List String) :
    (childrenAt n path).Pairwise fun x y => Beside x.2 y.2 :=
  List.pairwise_map.mpr (n.children.sorted.imp fun h => .children path h)

theorem walked_start {st : Store} : st.Walked [] { waiting := [(root, [])] } where
  find? := by simp
  found := by simp
  found_sorted := .nil
  ahead := by simp
  visited_sorted := .nil
  apart := List.pairwise_singleton _ _
  covers path q h := .inr ⟨(root, []), List.mem_singleton_self _, List.nil_prefix⟩

theorem visitNext_cons {st : Store} {q : Quark} {path : List String} {n : Node}
    {rest : List (Quark × List String)} {found : List AttributeHistory}
    (hn : st.nodes[q]? = some n) :
    st.visitNext ⟨(q, path) :: rest, found⟩ =
      ⟨childrenAt n path ++ rest,
        if n.intervals.isEmpty then found else ⟨path, n.intervals.toList⟩ :: found⟩ := by
  simp only [visitNext, hn, childrenAt]

section Visit

variable {st : Store} {visited : List (Quark × List String)} {q : Quark} {path : List String}
  {rest : List (Quark × List String)} {found : List AttributeHistory}

theorem Walked.mem_found_visit (h : st.Walked visited ⟨(q, path) :: rest, found⟩) {n : Node}
    (hn : st.nodes[q]? = some n) (a : AttributeHistory) :
    (a ∈ if n.intervals.isEmpty then found else ⟨path, n.intervals.toList⟩ :: found) ↔
      st.WrittenAt a ∧ a.path ∈ ((q, path) :: visited).map Prod.snd := by
  have hq : st.find? root path = some q := h.find? (q, path) (by simp)
  have hlog := intervalsAt_of_find? hq hn
  have hself : st.WrittenAt a → a.path = path → a = ⟨path, n.intervals.toList⟩ := by
    rintro ⟨hat, -⟩ rfl
    rw [hlog] at hat
    rw [hat]
  rw [List.map_cons, List.mem_cons]
  split
  · next hempty =>
    rw [h.found]
    refine and_congr_right fun hat => ⟨.inr, ?_⟩
    rintro (hpath | hmem)
    · have hnil := congrArg AttributeHistory.intervals (hself hat hpath)
      refine (hat.2 (hnil.trans ?_)).elim
      simpa using hempty
    · exact hmem
  · next hempty =>
    rw [List.mem_cons, h.found]
    constructor
    · rintro (rfl | ⟨hat, hmem⟩)
      · exact ⟨⟨hlog, by simpa using hempty⟩, .inl rfl⟩
      · exact ⟨hat, .inr hmem⟩
    · rintro ⟨hat, hpath | hmem⟩
      · exact .inl (hself hat hpath)
      · exact .inr ⟨hat, hmem⟩

theorem Walked.covers_visit (h : st.Walked visited ⟨(q, path) :: rest, found⟩) {n : Node}
    (hn : st.nodes[q]? = some n) {p : List String} {c : Quark}
    (hc : st.find? root p = some c) :
    (c, p) ∈ (q, path) :: visited ∨ ∃ x ∈ childrenAt n path ++ rest, x.2 <+: p := by
  have hq : st.find? root path = some q := h.find? (q, path) (by simp)
  rcases h.covers p c hc with hmem | ⟨x, hx, hprefix⟩
  · exact .inl (List.mem_cons_of_mem _ hmem)
  · rcases List.mem_cons.mp hx with rfl | hx
    · obtain ⟨tail, rfl⟩ := hprefix
      cases tail with
      | nil =>
          simp only [List.append_nil] at hc ⊢
          rw [hq, Option.some.injEq] at hc
          exact .inl (hc ▸ List.mem_cons_self)
      | cons name tail =>
          have hbelow : path ++ [name] <+: path ++ name :: tail := ⟨tail, by simp⟩
          obtain ⟨child, hchild⟩ := Option.isSome_iff_exists.mp
            (find?_isSome_of_le hbelow (Option.isSome_of_eq_some hc))
          rw [find?_concat, hq, Option.bind_some] at hchild
          refine .inr ⟨(child, path ++ [name]), List.mem_append_left _ ?_, hbelow⟩
          exact (mem_childrenAt hn).mpr ⟨name, rfl, hchild⟩
    · exact .inr ⟨x, List.mem_append_right _ hx, hprefix⟩

/-- What was visited comes before what waits after a visit: before the children too, since it
comes before their parent. -/
theorem Walked.ahead_visit (h : st.Walked visited ⟨(q, path) :: rest, found⟩) {n : Node}
    (hn : st.nodes[q]? = some n) {v x : Quark × List String} (hv : v ∈ (q, path) :: visited)
    (hx : x ∈ childrenAt n path ++ rest) : Precedes v.2 x.2 := by
  rcases List.mem_append.mp hx with hx | hx
  · obtain ⟨name, hpath, -⟩ := (mem_childrenAt hn).mp hx
    rw [hpath]
    rcases List.mem_cons.mp hv with rfl | hv
    · exact .inl ⟨name, [], rfl⟩
    · rcases h.ahead v hv _ List.mem_cons_self with ⟨first, more, hbelow⟩ | hbeside
      · refine .inl ⟨first, more ++ [name], ?_⟩
        rw [show path = v.2 ++ first :: more from hbelow, List.append_assoc, List.cons_append]
      · exact .inr (by simpa using hbeside.append [] [name])
  · rcases List.mem_cons.mp hv with rfl | hv
    · exact .inr ((List.pairwise_cons.mp h.apart).1 x hx)
    · exact h.ahead v hv x (List.mem_cons_of_mem _ hx)

theorem Walked.visit (h : st.Walked visited ⟨(q, path) :: rest, found⟩) (t : st.Tree) :
    st.Walked ((q, path) :: visited) (st.visitNext ⟨(q, path) :: rest, found⟩) := by
  have hq : st.find? root path = some q := h.find? (q, path) (by simp)
  obtain ⟨n, hn⟩ := t.exists_node hq
  have hahead : ∀ v ∈ visited, Precedes v.2 path := fun v hv => h.ahead v hv _ List.mem_cons_self
  rw [visitNext_cons hn]
  constructor
  case find? =>
    intro v hv
    rcases List.mem_append.mp hv with hv | hv
    · rcases List.mem_cons.mp hv with rfl | hv
      · exact hq
      · exact h.find? v (List.mem_append_left _ hv)
    · rcases List.mem_append.mp hv with hv | hv
      · obtain ⟨name, hpath, hchild⟩ := (mem_childrenAt hn).mp hv
        rw [hpath, find?_concat, hq, Option.bind_some, hchild]
      · exact h.find? v (List.mem_append_right _ (List.mem_cons_of_mem _ hv))
  case found => exact h.mem_found_visit hn
  case found_sorted =>
    split
    · exact h.found_sorted
    · refine List.pairwise_cons.mpr ⟨fun a ha => ?_, h.found_sorted⟩
      obtain ⟨v, hv, hpath⟩ := List.mem_map.mp ((h.found a).mp ha).2
      exact hpath ▸ hahead v hv
  case ahead => exact fun v hv x hx => h.ahead_visit hn hv hx
  case visited_sorted => exact List.pairwise_cons.mpr ⟨hahead, h.visited_sorted⟩
  case apart =>
    obtain ⟨hbeside, hapart⟩ := List.pairwise_cons.mp h.apart
    refine List.pairwise_append.mpr ⟨apart_childrenAt n path, hapart, fun x hx y hy => ?_⟩
    obtain ⟨name, hpath, -⟩ := (mem_childrenAt hn).mp hx
    rw [hpath]
    simpa using (hbeside y hy).append [name] []
  case covers => exact fun p c hc => h.covers_visit hn hc

end Visit

variable {st : Store}

theorem walked_walk (t : st.Tree) (visits : Nat) :
    ∃ visited, st.Walked visited (st.walk visits) ∧
      (visited.length = visits ∨ (st.walk visits).waiting = []) := by
  induction visits with
  | zero => exact ⟨[], walked_start, .inl rfl⟩
  | succ visits ih =>
      obtain ⟨visited, h, hcount⟩ := ih
      have hnext : st.walk (visits + 1) = st.visitNext (st.walk visits) := rfl
      rw [hnext]
      generalize st.walk visits = w at h hcount
      obtain ⟨waiting, found⟩ := w
      cases waiting with
      | nil => exact ⟨visited, h, .inr rfl⟩
      | cons x rest =>
          have hlength : visited.length = visits := hcount.resolve_right (List.cons_ne_nil _ _)
          exact ⟨x :: visited, h.visit t, .inl (congrArg (· + 1) hlength)⟩

theorem Walked.length_lt {visited : List (Quark × List String)} {w : Walk}
    (h : st.Walked visited w) (t : st.Tree) (hwaiting : w.waiting ≠ []) :
    visited.length < st.size := by
  obtain ⟨x, rest, hcons⟩ := List.exists_cons_of_ne_nil hwaiting
  have hx : x ∈ w.waiting := by simp [hcons]
  have hfind : ∀ v ∈ x :: visited, st.find? root v.2 = some v.1 := by
    intro v hv
    rcases List.mem_cons.mp hv with rfl | hv
    · exact h.find? _ (List.mem_append_right _ hx)
    · exact h.find? v (List.mem_append_left _ hv)
  have hsorted : (x :: visited).Pairwise fun v v' => Precedes v'.2 v.2 :=
    List.pairwise_cons.mpr ⟨fun v hv => h.ahead v hv x hx, h.visited_sorted⟩
  have hnodup : ((x :: visited).map Prod.fst).Nodup := by
    refine List.pairwise_map.mpr (hsorted.imp_of_mem fun {v v'} hv hv' hlt heq => ?_)
    have hpath := t.find?_injective (hfind v hv) (heq ▸ hfind v' hv')
    exact Precedes.irrefl (hpath ▸ hlt)
  have hsub : (x :: visited).map Prod.fst ⊆ List.range st.size := by
    intro q hq
    obtain ⟨v, hv, rfl⟩ := List.mem_map.mp hq
    exact List.mem_range.mpr (t.find?_lt (hfind v hv))
  have hle := (hnodup.subperm hsub).length_le
  rwa [List.length_map, List.length_cons, List.length_range] at hle

/-- The walk ends: after as many visits as there are attributes none waits. -/
theorem waiting_walk_size (t : st.Tree) : (st.walk st.size).waiting = [] := by
  obtain ⟨visited, h, hcount⟩ := walked_walk t st.size
  by_contra hwaiting
  exact absurd (hcount.resolve_right hwaiting) (Nat.ne_of_lt (h.length_lt t hwaiting))

theorem mem_written_iff (t : st.Tree) (a : AttributeHistory) :
    a ∈ st.written ↔ st.WrittenAt a := by
  obtain ⟨visited, h, -⟩ := walked_walk t st.size
  rw [written, List.mem_reverse, h.found]
  refine ⟨And.left, fun hat => ⟨hat, ?_⟩⟩
  obtain ⟨q, hfind⟩ := hat.exists_find?
  rcases h.covers a.path q hfind with hmem | ⟨x, hx, -⟩
  · exact List.mem_map.mpr ⟨_, hmem, rfl⟩
  · rw [waiting_walk_size t] at hx
    cases hx

theorem written_sorted (t : st.Tree) :
    st.written.Pairwise fun a b => Precedes a.path b.path := by
  obtain ⟨visited, h, -⟩ := walked_walk t st.size
  exact List.pairwise_reverse.mpr h.found_sorted

theorem written_nodup (t : st.Tree) : st.written.Nodup := by
  refine (written_sorted t).imp ?_
  rintro a b hlt rfl
  exact Precedes.irrefl hlt

theorem written?_eq_some_iff (t : st.Tree) {q : Quark} (hq : q < st.nodes.size)
    (a : AttributeHistory) :
    st.written? q = some a ↔ a.path = st.segments q ∧ st.WrittenAt a := by
  have hn := Array.getElem?_eq_getElem hq
  have hlog := intervalsAt_of_find? (t.find?_segments hq) hn
  obtain ⟨path, intervals⟩ := a
  rw [written?, hn, WrittenAt]
  simp only
  split
  · next hempty =>
    have hnil : st.nodes[q].intervals.toList = [] := by simpa using hempty
    constructor
    · rintro ⟨⟩
    · rintro ⟨rfl, rfl, hne⟩
      exact (hne (hlog.trans hnil)).elim
  · next hempty =>
    have hne : st.nodes[q].intervals.toList ≠ [] := by simpa using hempty
    rw [Option.some.injEq, AttributeHistory.mk.injEq]
    constructor
    · rintro ⟨rfl, rfl⟩
      exact ⟨rfl, hlog, hne⟩
    · rintro ⟨rfl, rfl, -⟩
      exact ⟨rfl, hlog.symm⟩

theorem written_perm (t : st.Tree) :
    st.written.Perm ((List.range st.size).filterMap st.written?) := by
  have hnodup : ((List.range st.size).filterMap st.written?).Nodup := by
    refine List.pairwise_filterMap.mpr (List.nodup_range.imp_of_mem ?_)
    intro q q' hq hq' hne a ha b hb heq
    have hq := List.mem_range.mp hq
    have hq' := List.mem_range.mp hq'
    have hpath := ((written?_eq_some_iff t hq a).mp ha).1
    have hpath' := ((written?_eq_some_iff t hq' b).mp hb).1
    refine hne (Option.some.inj ?_)
    rw [← t.find?_segments hq, ← t.find?_segments hq', ← hpath, ← hpath', heq]
  refine (List.perm_ext_iff_of_nodup (written_nodup t) hnodup).mpr fun a => ?_
  rw [mem_written_iff t, List.mem_filterMap]
  constructor
  · intro hat
    obtain ⟨q, hfind⟩ := hat.exists_find?
    have hq := t.find?_lt hfind
    refine ⟨q, List.mem_range.mpr hq, (written?_eq_some_iff t hq a).mpr ⟨?_, hat⟩⟩
    exact (t.segments_of_find? hfind).symm
  · rintro ⟨q, hq, ha⟩
    exact ((written?_eq_some_iff t (List.mem_range.mp hq) a).mp ha).2

end Store

end TraceAutomata
