import TraceAutomata.Proofs.Store.Update
import TraceAutomata.Proofs.Store.View

namespace TraceAutomata

namespace Store

def Inside (base path : List String) : Prop :=
  base <+: path ∧ path ≠ base

theorem inside_append (base : List String) {path : List String} (h : path ≠ []) :
    Inside base (base ++ path) :=
  ⟨List.prefix_append base path, fun heq => h (List.append_right_eq_self.mp heq)⟩

theorem Tree.history_eq {st : Store} (t : st.Tree) {q : Quark} (hq : q < st.nodes.size) :
    st.history q = .ok (st.intervalsAt (st.segments q)) := by
  have hn := Array.getElem?_eq_getElem hq
  rw [intervalsAt_of_find? (t.find?_segments hq) hn, history, (node_eq_ok_iff st q _).mpr hn]
  rfl

namespace Extends

variable {st st' : Store}

theorem segments (h : st.Extends st') (t : st.Tree) {q : Quark} (hq : q < st.nodes.size) :
    st'.segments q = st.segments q :=
  h.tree.segments_of_find? (h.find? _ _ (t.find?_segments hq))

theorem lt_size (h : st.Extends st') (t : st.Tree) {q : Quark} (hq : q < st.nodes.size) :
    q < st'.nodes.size :=
  h.tree.find?_lt (h.find? _ _ (t.find?_segments hq))

end Extends

/-- A later store has all attributes of an earlier one in their places, and the same intervals but
for some paths. -/
structure Within (st : Store) (P : List String → Prop) (st' : Store) : Prop
    extends st.Extends st' where
  intervalsAt : ∀ p, ¬ P p → st'.intervalsAt p = st.intervalsAt p

namespace Within

variable {st st' st'' : Store} {P Q : List String → Prop}

theorem refl (t : st.Tree) (P : List String → Prop) : st.Within P st :=
  ⟨.refl t, fun _ _ => rfl⟩

theorem trans (h : st.Within P st') (h' : st'.Within P st'') : st.Within P st'' where
  toExtends := h.toExtends.trans h'.toExtends
  intervalsAt p hp := (h'.intervalsAt p hp).trans (h.intervalsAt p hp)

theorem mono (h : st.Within P st') (hPQ : ∀ p, P p → Q p) : st.Within Q st' where
  toExtends := h.toExtends
  intervalsAt p hp := h.intervalsAt p fun hP => hp (hPQ p hP)

end Within

theorem within_extendTo {st : Store} (t : st.Tree) (P : List String → Prop) (time : Int64) :
    st.Within P (st.extendTo time) where
  toExtends := extends_extendTo time t
  intervalsAt p _ := by rw [Store.intervalsAt, historyAt?_extendTo, Store.intervalsAt]

theorem write_eq_ok {st st' : Store} {q : Quark} {time : Int64} {value : Value}
    (h : st.write q time value = .ok st') :
    ∃ log, st' = (st.setHistory q log).extendTo time := by
  cases hnode : st.node q with
  | error e =>
      rw [write, hnode] at h
      cases h
  | ok n =>
      have hn := (node_eq_ok_iff st q n).mp hnode
      have hsame : st = st.setHistory q n.intervals.toList := (setHistory_self hn).symm
      simp only [write, hnode, bind, Except.bind, pure, Except.pure] at h
      split at h
      · cases h
      · split at h
        · split at h
          · cases h
          · split at h
            · exact ⟨_, by rw [← hsame]; exact (Except.ok.inj h).symm⟩
            · exact ⟨_, by rw [← addInterval_eq_setHistory hn]; exact (Except.ok.inj h).symm⟩
        · split at h
          · exact ⟨_, by rw [← hsame]; exact (Except.ok.inj h).symm⟩
          · exact ⟨_, by rw [← addInterval_eq_setHistory hn]; exact (Except.ok.inj h).symm⟩

end Store

namespace History

open Store

variable {st : Store} {base : List String} {subtree : Quark} {P : List String → Prop}

theorem write_within (t : st.Tree) (hq : st.find? root base = some subtree) (time : Int64)
    {path : List String} (hpath : P (base ++ path)) (value : Value) :
    st.Within P ((write subtree time path value).after st) := by
  obtain ⟨st₁, c, hensure, hext, -, hfind, hhist⟩ := ensure_spec t hq path
  have hcreated : st.Within P st₁ := by
    refine ⟨hext, fun p _ => ?_⟩
    rw [Store.intervalsAt, hhist]
    split
    · rfl
    · rfl
  cases hres : st₁.write c time value with
  | error e =>
      have hafter : (write subtree time path value).after st = st₁ := by
        simp [write, StoreM.after, StoreM.ensure, StoreM.write, hensure, hres, bind, EStateM.bind]
      rw [hafter]
      exact hcreated
  | ok st₂ =>
      have hafter : (write subtree time path value).after st = st₂ := by
        simp [write, StoreM.after, StoreM.ensure, StoreM.write, hensure, hres, bind, EStateM.bind]
      obtain ⟨log, rfl⟩ := write_eq_ok hres
      have hset : st₁.Within P (st₁.setHistory c log) := by
        refine ⟨⟨tree_setHistory hext.tree, fun p q hp => ?_, rfl, rfl⟩, fun p hp => ?_⟩
        · rw [find?_setHistory, hp]
        · have hne : p ≠ base ++ path := fun heq => hp (heq ▸ hpath)
          rw [Store.intervalsAt, historyAt?_setHistory hext.tree hfind, if_neg hne,
            Store.intervalsAt]
      rw [hafter]
      exact (hcreated.trans hset).trans (within_extendTo hset.tree P time)

theorem writeAll_within (t : st.Tree) (hq : st.find? root base = some subtree)
    {writes : List Write} (hpath : ∀ w ∈ writes, P (base ++ w.path)) :
    st.Within P ((writeAll subtree writes).after st) := by
  induction writes generalizing st with
  | nil => exact .refl t P
  | cons w rest ih =>
      obtain ⟨hfirst, hrest⟩ := List.forall_mem_cons.mp hpath
      have hwrite := write_within t hq w.time hfirst w.value
      rw [StoreM.after] at hwrite ⊢
      rw [writeAll_cons]
      cases hres : write subtree w.time w.path w.value st with
      | error e st' =>
          rw [hres] at hwrite
          exact hwrite
      | ok result st' =>
          rw [hres] at hwrite
          exact hwrite.trans (ih hwrite.tree (hwrite.find? _ _ hq) hrest)

theorem recordAll_within (t : st.Tree) (hq : st.find? root base = some subtree)
    {groups : List (List Write)} (hpath : ∀ writes ∈ groups, ∀ w ∈ writes, P (base ++ w.path)) :
    st.Within P (recordAll subtree groups st) := by
  induction groups generalizing st with
  | nil => exact .refl t P
  | cons writes rest ih =>
      obtain ⟨hfirst, hrest⟩ := List.forall_mem_cons.mp hpath
      have hwrites := writeAll_within t hq hfirst
      exact hwrites.trans (ih hwrites.tree (hwrites.find? _ _ hq) hrest)

end History

end TraceAutomata
