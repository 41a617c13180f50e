import Mathlib.Data.List.Induction
import TraceAutomata.Proofs.Dict
import TraceAutomata.Store.Basic

namespace TraceAutomata.Store

def child? (st : Store) (q : Quark) (name : String) : Option Quark :=
  st.nodes[q]?.bind fun n => n.children.find? name

def find? (st : Store) (q : Quark) : List String → Option Quark
  | [] => some q
  | name :: rest => (st.child? q name).bind fun child => st.find? child rest

/-- The parent of an attribute and its name are what the parent has on record. -/
structure Tree (st : Store) : Prop where
  root_node : ∃ n, st.nodes[root]? = some n ∧ n.parent = none
  of_child : ∀ q name c, st.child? q name = some c →
    q < c ∧ ∃ n, st.nodes[c]? = some n ∧ n.parent = some q ∧ n.name = name
  of_parent : ∀ c n, st.nodes[c]? = some n → c ≠ root →
    ∃ p, n.parent = some p ∧ st.child? p n.name = some c

@[simp] theorem find?_nil (st : Store) (q : Quark) : st.find? q [] = some q := rfl

theorem find?_append (st : Store) (q : Quark) (path rest : List String) :
    st.find? q (path ++ rest) = (st.find? q path).bind fun c => st.find? c rest := by
  induction path generalizing q with
  | nil => rfl
  | cons name path ih =>
      cases h : st.child? q name with
      | none => simp [find?, h]
      | some c => simp [find?, h, ih]

theorem find?_concat (st : Store) (q : Quark) (path : List String) (name : String) :
    st.find? q (path ++ [name]) = (st.find? q path).bind fun c => st.child? c name := by
  rw [find?_append]
  congr
  funext c
  cases h : st.child? c name <;> simp [find?, h]

theorem node_eq_ok_iff (st : Store) (q : Quark) (n : Node) :
    st.node q = .ok n ↔ st.nodes[q]? = some n := by
  rw [node]
  cases st.nodes[q]? <;> simp

theorem resolve_eq_ok_iff (st : Store) (q c : Quark) (path : List String) :
    st.resolve q path = .ok c ↔ st.find? q path = some c := by
  induction path generalizing q with
  | nil => simp [resolve]
  | cons name path ih =>
      rw [resolve, find?, child?]
      cases hn : st.nodes[q]? with
      | none => simp [node, hn, bind, Except.bind]
      | some n =>
          cases hc : n.children.find? name with
          | none => simp [node, hn, hc, bind, Except.bind]
          | some child => simpa [node, hn, hc, bind, Except.bind] using ih child

namespace Tree

variable {st : Store}

theorem root_lt (t : st.Tree) : root < st.nodes.size := by
  obtain ⟨n, hn, -⟩ := t.root_node
  exact (Array.getElem?_eq_some_iff.mp hn).1

theorem child_lt (t : st.Tree) {q c : Quark} {name : String} (h : st.child? q name = some c) :
    c < st.nodes.size := by
  obtain ⟨-, n, hn, -⟩ := t.of_child q name c h
  exact (Array.getElem?_eq_some_iff.mp hn).1

theorem find?_lt (t : st.Tree) {path : List String} {c : Quark}
    (h : st.find? root path = some c) : c < st.nodes.size := by
  rcases List.eq_nil_or_concat path with rfl | ⟨front, name, rfl⟩
  · rw [find?_nil, Option.some.injEq] at h
    exact h ▸ t.root_lt
  · rw [List.concat_eq_append, find?_concat] at h
    obtain ⟨q, -, hchild⟩ := Option.bind_eq_some_iff.mp h
    exact t.child_lt hchild

theorem child?_ne_root (t : st.Tree) {q : Quark} {name : String} :
    st.child? q name ≠ some root := by
  intro h
  obtain ⟨-, n, hn, hp, -⟩ := t.of_child q name root h
  obtain ⟨m, hm, hnone⟩ := t.root_node
  rw [hn, Option.some.injEq] at hm
  rw [hm, hnone] at hp
  cases hp

theorem find?_injective (t : st.Tree) {path path' : List String} {c : Quark}
    (h : st.find? root path = some c) (h' : st.find? root path' = some c) : path = path' := by
  induction path using List.reverseRecOn generalizing path' c with
  | nil =>
      rw [find?_nil, Option.some.injEq] at h
      subst h
      rcases List.eq_nil_or_concat path' with rfl | ⟨front, name, rfl⟩
      · rfl
      · rw [List.concat_eq_append, find?_concat] at h'
        obtain ⟨q, -, hchild⟩ := Option.bind_eq_some_iff.mp h'
        exact (t.child?_ne_root hchild).elim
  | append_singleton front name ih =>
      rw [find?_concat] at h
      obtain ⟨q, hq, hchild⟩ := Option.bind_eq_some_iff.mp h
      rcases List.eq_nil_or_concat path' with rfl | ⟨front', name', rfl⟩
      · rw [find?_nil, Option.some.injEq] at h'
        exact (t.child?_ne_root (h' ▸ hchild)).elim
      · rw [List.concat_eq_append, find?_concat] at h'
        obtain ⟨q', hq', hchild'⟩ := Option.bind_eq_some_iff.mp h'
        obtain ⟨-, n, hn, hp, hname⟩ := t.of_child q name c hchild
        obtain ⟨-, n', hn', hp', hname'⟩ := t.of_child q' name' c hchild'
        obtain rfl : n = n' := Option.some.inj (hn.symm.trans hn')
        obtain rfl : q = q' := Option.some.inj (hp.symm.trans hp')
        rw [ih hq hq', ← hname, ← hname', List.concat_eq_append]

theorem child?_size (st : Store) (name : String) : st.child? st.nodes.size name = none := by
  rw [child?, Array.getElem?_eq_none (Nat.le_refl _), Option.bind_none]

end Tree

theorem tree_empty (time : Int64) : (empty time).Tree where
  root_node := ⟨_, rfl, rfl⟩
  of_child q name c h := by
    cases q with
    | zero => cases h
    | succ q => simp [child?, empty] at h
  of_parent c n h hc := by
    cases c with
    | zero => exact (hc rfl).elim
    | succ c => simp [empty] at h

end TraceAutomata.Store
