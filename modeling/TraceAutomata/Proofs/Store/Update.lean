import TraceAutomata.Proofs.Store.Write

namespace TraceAutomata

/-- A call that may change a store. -/
inductive Update where
  | create (base : Quark) (path : List String)
  | write (q : Quark) (time : Int64) (value : Value)
  | extendTo (time : Int64)

namespace Store

def update (st : Store) : Update → Store
  | .create base path =>
      match st.ensure base path with
      | .ok (st, _) => st
      | .error _ => st
  | .write q time value =>
      match st.write q time value with
      | .ok st => st
      | .error _ => st
  | .extendTo time => st.extendTo time

def updateAll (st : Store) (updates : List Update) : Store :=
  updates.foldl update st

theorem updateAll_cons (st : Store) (u : Update) (rest : List Update) :
    st.updateAll (u :: rest) = (st.update u).updateAll rest := rfl

namespace Tree

variable {st : Store}

theorem find?_segments (t : st.Tree) {q : Quark} (hq : q < st.nodes.size) :
    st.find? root (st.segments q) = some q := by
  induction q using Nat.strongRecOn with
  | ind q ih =>
      rw [segments, Array.getElem?_eq_getElem hq]
      simp only
      by_cases hroot : q = root
      · subst hroot
        obtain ⟨n, hn, hparent⟩ := t.root_node
        rw [Array.getElem?_eq_getElem hq, Option.some.injEq] at hn
        rw [hn, hparent]
        rfl
      · obtain ⟨p, hparent, hchild⟩ :=
          t.of_parent q _ (Array.getElem?_eq_getElem hq) hroot
        have hlt := (t.of_child p _ q hchild).1
        rw [hparent]
        simp only [if_pos hlt]
        rw [find?_concat, ih p hlt (Nat.lt_trans hlt hq), Option.bind_some, hchild]

theorem segments_of_find? (t : st.Tree) {path : List String} {q : Quark}
    (h : st.find? root path = some q) : st.segments q = path :=
  t.find?_injective (t.find?_segments (t.find?_lt h)) h

end Tree

/-- What holds of every store that is reached. -/
structure Reached (st : Store) : Prop where
  tree : st.Tree
  lockedName : st.lockedName = none
  startTime_le : st.startTime ≤ st.endTime

theorem reached_empty (time : Int64) : (empty time).Reached :=
  ⟨tree_empty time, rfl, Int64.le_refl time⟩

theorem ensure_of_lt {st : Store} (t : st.Tree) {base : Quark} (hbase : base < st.nodes.size)
    (path : List String) :
    ∃ st' c, st.ensure base path = .ok (st', c) ∧ st.Extends st' ∧ st'.endTime = st.endTime ∧
      ∀ p, st'.intervalsAt p = st.intervalsAt p := by
  obtain ⟨st', c, hensure, hext, hend, -, hhist⟩ := ensure_spec t (t.find?_segments hbase) path
  refine ⟨st', c, hensure, hext, hend, fun p => ?_⟩
  rw [intervalsAt, hhist]
  split
  · rfl
  · rfl

theorem update_create_of_not_lt {st : Store} {base : Quark} (hbase : ¬ base < st.nodes.size)
    (path : List String) : st.update (.create base path) = st := by
  rw [update]
  cases path with
  | nil => rfl
  | cons name rest =>
      rw [ensure, node, Array.getElem?_eq_none (Nat.not_lt.mp hbase)]
      rfl

theorem write_of_lt {st : Store} (h : st.Reached) {q : Quark} (hq : q < st.nodes.size)
    (time : Int64) (value : Value) :
    (st.write q time value).toOption =
      (Interval.extend? (st.intervalsAt (st.segments q)) time value).map fun log =>
        (st.setHistory q log).extendTo time := by
  have hn := Array.getElem?_eq_getElem hq
  rw [write_eq hn h.lockedName, intervalsAt_of_find? (h.tree.find?_segments hq) hn]

theorem write_of_not_lt {st : Store} {q : Quark} (hq : ¬ q < st.nodes.size) (time : Int64)
    (value : Value) : st.write q time value = .error (.invalidQuark q) := by
  rw [write, node, Array.getElem?_eq_none (Nat.not_lt.mp hq)]
  rfl

theorem Reached.update {st : Store} (h : st.Reached) (u : Update) :
    (st.update u).Reached ∧ st.Extends (st.update u) := by
  have hkeep : ∀ st', st.Extends st' → st.endTime ≤ st'.endTime →
      st'.Reached ∧ st.Extends st' := fun st' hext hend =>
    ⟨⟨hext.tree, hext.lockedName.trans h.lockedName, by
      rw [hext.startTime]
      exact Int64.le_trans h.startTime_le hend⟩, hext⟩
  have hsame := hkeep st (.refl h.tree) (Int64.le_refl _)
  cases u with
  | create base path =>
      by_cases hbase : base < st.nodes.size
      · obtain ⟨st', c, hensure, hext, hend, -⟩ := ensure_of_lt h.tree hbase path
        rw [Store.update, hensure]
        exact hkeep st' hext (hend ▸ Int64.le_refl _)
      · rw [update_create_of_not_lt hbase]
        exact hsame
  | write q time value =>
      rw [Store.update]
      cases hw : st.write q time value with
      | error e => exact hsame
      | ok st' =>
          by_cases hq : q < st.nodes.size
          · have hwrite := write_of_lt h hq time value
            rw [hw] at hwrite
            obtain ⟨log, -, rfl⟩ := Option.map_eq_some_iff.mp hwrite.symm
            have hext : st.Extends (st.setHistory q log) :=
              ⟨tree_setHistory h.tree, fun p c hp => by rw [find?_setHistory, hp], rfl, rfl⟩
            exact hkeep _ (hext.trans (extends_extendTo time hext.tree))
              (endTime_le_extendTo (st.setHistory q log) time)
          · rw [write_of_not_lt hq] at hw
            cases hw
  | extendTo time =>
      exact hkeep _ (extends_extendTo time h.tree) (endTime_le_extendTo st time)

theorem Reached.updateAll {st : Store} (h : st.Reached) (updates : List Update) :
    (st.updateAll updates).Reached := by
  induction updates generalizing st with
  | nil => exact h
  | cons u rest ih => exact ih (h.update u).1

end Store

end TraceAutomata
