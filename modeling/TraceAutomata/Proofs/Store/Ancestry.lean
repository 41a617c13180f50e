import TraceAutomata.Proofs.Store.Accepted
import TraceAutomata.Proofs.Store.RoundTrip
import TraceAutomata.Proofs.Store.Within

namespace TraceAutomata.Store

/-- The way up from an attribute, from parent to parent, and the names on it, the last one being the
attribute's own. Nothing is said of the numbers on the way. -/
inductive Climbs (st : Store) : Quark → List String → Prop
  | root {q : Quark} {n : Node} (hn : st.nodes[q]? = some n) (hparent : n.parent = none) :
      Climbs st q []
  | up {q p : Quark} {n : Node} {names : List String} (hn : st.nodes[q]? = some n)
      (hparent : n.parent = some p) (h : Climbs st p names) : Climbs st q (names ++ [n.name])

namespace Tree

variable {st : Store}

/-- Every way up ends, since a parent has a smaller number. -/
theorem climbs_segments (t : st.Tree) {q : Quark} (hq : q < st.nodes.size) :
    st.Climbs q (st.segments q) := by
  induction q using Nat.strongRecOn with
  | ind q ih =>
      have hn := Array.getElem?_eq_getElem hq
      rw [segments, hn]
      simp only
      by_cases hroot : q = root
      · subst hroot
        obtain ⟨n, hroot, hparent⟩ := t.root_node
        obtain rfl : st.nodes[Store.root] = n := Option.some.inj (hn.symm.trans hroot)
        rw [hparent]
        exact .root hn hparent
      · obtain ⟨p, hparent, hchild⟩ := t.of_parent q _ hn hroot
        have hlt := (t.of_child p _ q hchild).1
        rw [hparent]
        simp only [if_pos hlt]
        exact .up hn hparent (ih p hlt (Nat.lt_trans hlt hq))

theorem segments_injective (t : st.Tree) {q q' : Quark} (hq : q < st.nodes.size)
    (hq' : q' < st.nodes.size) (h : st.segments q = st.segments q') : q = q' := by
  have hfind := t.find?_segments hq
  rw [h, t.find?_segments hq', Option.some.injEq] at hfind
  exact hfind.symm

theorem find?_lt_of_lt (t : st.Tree) {q c : Quark} (hq : q < st.nodes.size) {path : List String}
    (h : st.find? q path = some c) :
    c < st.nodes.size ∧ st.segments c = st.segments q ++ path := by
  have hfind : st.find? root (st.segments q ++ path) = some c := by
    rw [find?_append, t.find?_segments hq]
    exact h
  exact ⟨t.find?_lt hfind, t.segments_of_find? hfind⟩

end Tree

/-- A store with more attributes: one for each missing name, each below the one before it, and all
others as they were. -/
structure Grown (st : Store) (base missing : List String) (st' : Store) : Prop where
  size : st'.size = st.size + missing.length
  added : ∀ i < missing.length, st'.segments (st.size + i) = base ++ missing.take (i + 1) ∧
    st'.log (st.size + i) = []
  kept : ∀ q < st.size, st'.segments q = st.segments q ∧ st'.log q = st.log q
  startTime : st'.startTime = st.startTime
  endTime : st'.endTime = st.endTime

section Create

variable {st : Store} {q : Quark} {name : String}

theorem size_addChild (st : Store) (q : Quark) (name : String) :
    (st.addChild q name).size = st.size + 1 := by
  simp [size, addChild]

theorem log_addChild (st : Store) (q : Quark) (name : String) (c : Quark) :
    (st.addChild q name).log c = st.log c := by
  rw [log, log, getElem?_addChild]
  split
  · next h => simp [h]
  · split
    · cases st.nodes[c]? <;> rfl
    · rfl

theorem extends_addChild (t : st.Tree) (hq : q < st.nodes.size) (hnew : st.child? q name = none) :
    st.Extends (st.addChild q name) := by
  have hfind := t.find?_segments hq
  refine ⟨tree_addChild t hfind hnew, fun path c hc => ?_, rfl, rfl⟩
  rw [find?_addChild t hfind hnew, if_neg, hc]
  rintro rfl
  rw [find?_concat, hfind, Option.bind_some, hnew] at hc
  cases hc

theorem segments_addChild (t : st.Tree) (hq : q < st.nodes.size) (hnew : st.child? q name = none) :
    (st.addChild q name).segments st.size = st.segments q ++ [name] := by
  have hfind := t.find?_segments hq
  apply (tree_addChild t hfind hnew).segments_of_find?
  rw [find?_addChild t hfind hnew, if_pos rfl, size]

theorem grown_addChild (t : st.Tree) (hq : q < st.nodes.size) (hnew : st.child? q name = none) :
    st.Grown (st.segments q) [name] (st.addChild q name) where
  size := size_addChild st q name
  added i hi := by
    obtain rfl : i = 0 := Nat.lt_one_iff.mp hi
    refine ⟨segments_addChild t hq hnew, (log_addChild st q name _).trans ?_⟩
    exact log_of_not_lt (Nat.lt_irrefl _)
  kept c hc := ⟨(extends_addChild t hq hnew).segments t hc, log_addChild st q name c⟩
  startTime := rfl
  endTime := rfl

theorem Grown.trans {mid st' : Store} {base rest : List String} (h : st.Grown base [name] mid)
    (h' : mid.Grown (base ++ [name]) rest st') : st.Grown base (name :: rest) st' := by
  have hsize : mid.size = st.size + 1 := h.size
  constructor
  case size =>
    rw [h'.size, hsize, List.length_cons]
    omega
  case added =>
    intro i hi
    cases i with
    | zero =>
        obtain ⟨hsegments, hlog⟩ := h.added 0 Nat.one_pos
        obtain ⟨hsegments', hlog'⟩ := h'.kept (st.size + 0) (by omega)
        exact ⟨hsegments'.trans hsegments, hlog'.trans hlog⟩
    | succ i =>
        obtain ⟨hsegments, hlog⟩ := h'.added i (Nat.lt_of_succ_lt_succ hi)
        rw [hsize, Nat.add_assoc, Nat.add_comm 1 i] at hsegments hlog
        exact ⟨by rw [hsegments, List.append_assoc]; rfl, hlog⟩
  case kept =>
    intro c hc
    obtain ⟨hsegments, hlog⟩ := h.kept c hc
    obtain ⟨hsegments', hlog'⟩ := h'.kept c (by omega)
    exact ⟨hsegments'.trans hsegments, hlog'.trans hlog⟩
  case startTime => exact h'.startTime.trans h.startTime
  case endTime => exact h'.endTime.trans h.endTime

theorem ensure_of_child? {c : Quark} (h : st.child? q name = some c) (rest : List String) :
    st.ensure q (name :: rest) = st.ensure c rest := by
  obtain ⟨n, hn, hchild⟩ := Option.bind_eq_some_iff.mp h
  simp [ensure, (node_eq_ok_iff st q n).mpr hn, hchild, bind, Except.bind]

theorem ensure_of_missing (hq : q < st.nodes.size) (h : st.child? q name = none)
    (rest : List String) :
    st.ensure q (name :: rest) = (st.addChild q name).ensure st.size rest := by
  have hn := Array.getElem?_eq_getElem hq
  rw [child?, hn, Option.bind_some] at h
  simp [ensure, (node_eq_ok_iff st q _).mpr hn, h, bind, Except.bind, size]

theorem ensure_append {known : List String} {c : Quark} (h : st.find? q known = some c)
    (rest : List String) : st.ensure q (known ++ rest) = st.ensure c rest := by
  induction known generalizing q with
  | nil =>
      obtain rfl := Option.some.inj h
      rfl
  | cons name known ih =>
      obtain ⟨child, hchild, hknown⟩ := Option.bind_eq_some_iff.mp h
      rw [List.cons_append, ensure_of_child? hchild]
      exact ih hknown

theorem ensure_missing (t : st.Tree) (hq : q < st.nodes.size) (hnew : st.child? q name = none)
    (rest : List String) :
    ∃ st', st.ensure q (name :: rest) = .ok (st', st.size + rest.length) ∧
      st.Grown (st.segments q) (name :: rest) st' := by
  induction rest generalizing st q name with
  | nil =>
      refine ⟨st.addChild q name, ?_, grown_addChild t hq hnew⟩
      rw [ensure_of_missing hq hnew]
      rfl
  | cons next rest ih =>
      have hgrown := grown_addChild t hq hnew
      have hlast : st.size < (st.addChild q name).nodes.size := by
        rw [← size, size_addChild]
        exact Nat.lt_succ_self _
      have hnext : (st.addChild q name).child? st.size next = none := by
        rw [child?_addChild hq, if_neg fun h => Nat.ne_of_gt hq h.1]
        exact Tree.child?_size st next
      obtain ⟨st', hensure, hrest⟩ := ih (extends_addChild t hq hnew).tree hlast hnext
      rw [segments_addChild t hq hnew] at hrest
      refine ⟨st', ?_, hgrown.trans hrest⟩
      rw [ensure_of_missing hq hnew, hensure, size_addChild, List.length_cons, Nat.add_right_comm,
        Nat.add_assoc]

theorem exists_known (st : Store) (q : Quark) (path : List String) :
    (∃ c, st.find? q path = some c) ∨ ∃ known last name rest, path = known ++ name :: rest ∧
      st.find? q known = some last ∧ st.child? last name = none := by
  induction path generalizing q with
  | nil => exact .inl ⟨q, rfl⟩
  | cons name rest ih =>
      cases hchild : st.child? q name with
      | none => exact .inr ⟨[], q, name, rest, rfl, rfl, hchild⟩
      | some child =>
          have hbelow : ∀ path, st.find? q (name :: path) = st.find? child path := by
            intro path
            rw [find?, hchild, Option.bind_some]
          rcases ih child with ⟨c, hc⟩ | ⟨known, last, missing, more, rfl, hlast, hmissing⟩
          · exact .inl ⟨c, (hbelow rest).trans hc⟩
          · refine .inr ⟨name :: known, last, missing, more, rfl, ?_, hmissing⟩
            exact (hbelow known).trans hlast

end Create

/-- A store that calls make of an empty one, or of one that was restored from a snapshot of another
such store. -/
inductive Built : Store → Prop
  | empty (time : Int64) : Built (empty time)
  | update {st : Store} (h : Built st) (u : Update) : Built (st.update u)
  | restore {st st' : Store} (h : Built st) {createdAt : Int64}
      (hrestore : (st.capture createdAt).restore = .ok st') : Built st'

theorem Built.updateAll {st : Store} (h : st.Built) (updates : List Update) :
    (st.updateAll updates).Built := by
  induction updates generalizing st with
  | nil => exact h
  | cons u rest ih => exact ih (h.update u)

theorem Built.reached {st : Store} (h : st.Built) : st.Reached := by
  induction h with
  | empty time => exact reached_empty time
  | update _ u ih => exact (ih.update u).1
  | @restore st st' _ createdAt hrestore ih =>
      obtain ⟨restored, hok, t, hstart, hend, -⟩ := restore_capture ih createdAt
      obtain rfl : restored = st' := Except.ok.inj (hok.symm.trans hrestore)
      obtain ⟨same, hsame, hlocked, -⟩ := exists_restore (st.capture createdAt)
      obtain rfl : same = restored := Except.ok.inj (hsame.symm.trans hok)
      refine ⟨t, hlocked, ?_⟩
      rw [hstart, hend]
      exact ih.startTime_le

/-- However a store came about, parents, children and names tell of one tree: each attribute but the
root is the child of an earlier one under its own name, and each child names its parent. The way up
from an attribute ends, the names on it lead back to the attribute, and two attributes never have
the same. A path that is there is found again and nothing is changed; of another one the missing end
is created, below what is there, and all other attributes keep their numbers, paths and
histories. -/
theorem attributes_form_tree {st : Store} (h : st.Built) :
    (∃ n, st.nodes[root]? = some n ∧ n.parent = none) ∧
    (∀ (c : Quark) (n : Node), st.nodes[c]? = some n → c ≠ root →
      ∃ (p : Quark) (parent : Node), n.parent = some p ∧ p < c ∧ st.nodes[p]? = some parent ∧
        parent.children.find? n.name = some c) ∧
    (∀ (q : Quark) (n : Node) (name : String) (c : Quark), st.nodes[q]? = some n →
      n.children.find? name = some c →
      ∃ child : Node, st.nodes[c]? = some child ∧ child.parent = some q ∧ child.name = name) ∧
    (∀ q < st.size, st.Climbs q (st.segments q) ∧ st.resolve root (st.segments q) = .ok q) ∧
    (∀ q < st.size, ∀ q' < st.size, st.segments q = st.segments q' → q = q') ∧
    (∀ base path c, st.resolve base path = .ok c → st.ensure base path = .ok (st, c)) ∧
    ∀ base < st.size, ∀ path, (∀ c, st.resolve base path ≠ .ok c) →
      ∃ known last missing st', path = known ++ missing ∧ st.resolve base known = .ok last ∧
        (∀ c, st.resolve last (missing.take 1) ≠ .ok c) ∧
        st.ensure base path = .ok (st', st'.size - 1) ∧
        st.Grown (st.segments base ++ known) missing st' := by
  have t := h.reached.tree
  refine ⟨t.root_node, ?_, ?_, ?_, ?_, ?_, ?_⟩
  · intro c n hn hc
    obtain ⟨p, hparent, hchild⟩ := t.of_parent c n hn hc
    obtain ⟨parent, hnode, hfind⟩ := Option.bind_eq_some_iff.mp hchild
    exact ⟨p, parent, hparent, (t.of_child p _ c hchild).1, hnode, hfind⟩
  · intro q n name c hn hfind
    exact (t.of_child q name c (Option.bind_eq_some_iff.mpr ⟨n, hn, hfind⟩)).2
  · intro q hq
    exact ⟨t.climbs_segments hq, (resolve_eq_ok_iff st root q _).mpr (t.find?_segments hq)⟩
  · intro q hq q' hq' heq
    exact t.segments_injective hq hq' heq
  · intro base path c hresolve
    have hensure := ensure_append ((resolve_eq_ok_iff st base c path).mp hresolve) []
    rwa [List.append_nil] at hensure
  · intro base hbase path hnot
    rcases exists_known st base path with ⟨c, hc⟩ | ⟨known, last, name, rest, rfl, hlast, hnew⟩
    · exact (hnot c ((resolve_eq_ok_iff st base c path).mpr hc)).elim
    · obtain ⟨hlt, hsegments⟩ := t.find?_lt_of_lt hbase hlast
      obtain ⟨st', hensure, hgrown⟩ := ensure_missing t hlt hnew rest
      rw [hsegments] at hgrown
      refine ⟨known, last, name :: rest, st', rfl, (resolve_eq_ok_iff st base last known).mpr hlast,
        fun c hc => ?_, ?_, hgrown⟩
      · have hchild := (resolve_eq_ok_iff st last c [name]).mp hc
        simp [find?, hnew] at hchild
      · rw [ensure_append hlast, hensure, hgrown.size, List.length_cons]
        rfl

theorem attributes_form_tree_sample :
    let st := (empty 0).updateAll
      [.create root ["a", "b"], .create 1 ["c"], .write 3 5 (.int 1), .extendTo 9]
    ∃ st', (st.capture 0).restore = .ok st' ∧ st'.Built ∧
      st'.resolve root ["a", "c"] = .ok 2 ∧ st'.ensure root ["a", "c"] = .ok (st', 2) := by
  intro st
  have hbuilt : st.Built := (Built.empty 0).updateAll _
  obtain ⟨st', hrestore, -⟩ := exists_restore (st.capture 0)
  have hresolve : (st.capture 0).restore.bind (fun st' => st'.resolve root ["a", "c"]) = .ok 2 :=
    rfl
  rw [hrestore] at hresolve
  obtain ⟨-, -, -, -, -, hagain, -⟩ := attributes_form_tree (hbuilt.restore hrestore)
  exact ⟨st', hrestore, hbuilt.restore hrestore, hresolve, hagain root _ 2 hresolve⟩

end TraceAutomata.Store
