import TraceAutomata.Proofs.Store.Growth
import TraceAutomata.Scenario.History

namespace TraceAutomata

namespace Interval

/-- The history after a write. A value that holds already adds nothing, and a write that is
earlier than the last interval is refused. -/
def extend? (log : List Interval) (time : Int64) (value : Value) : Option (List Interval) :=
  match log.getLast? with
  | some last =>
      if time < last.start then none
      else if last.value.coincides value then some log
      else some (log ++ [⟨time, value⟩])
  | none => if value.isNull then some log else some (log ++ [⟨time, value⟩])

end Interval

namespace Store

theorem isLocked_eq_false {st : Store} (hl : st.lockedName = none) (q : Quark) :
    st.isLocked q = false := by
  simp [isLocked, hl]

theorem write_eq {st : Store} {q : Quark} {n : Node} (hn : st.nodes[q]? = some n)
    (hl : st.lockedName = none) (time : Int64) (value : Value) :
    (st.write q time value).toOption =
      (Interval.extend? n.intervals.toList time value).map fun log =>
        (st.setHistory q log).extendTo time := by
  have hback : n.intervals.back? = n.intervals.toList.getLast? := by simp
  simp only [write, (node_eq_ok_iff st q n).mpr hn, isLocked_eq_false hl, hback,
    Interval.extend?, bind, Except.bind, Bool.false_eq_true, if_false, pure, Except.pure]
  cases n.intervals.toList.getLast? with
  | none =>
      by_cases hv : value.isNull
      · simp [hv, setHistory_self hn, Except.toOption]
      · simp [hv, addInterval_eq_setHistory hn, Except.toOption]
  | some last =>
      by_cases ht : time < last.start
      · simp [ht, throw, throwThe, MonadExceptOf.throw, Except.toOption]
      · by_cases hv : last.value.coincides value
        · simp [ht, hv, setHistory_self hn, Except.toOption]
        · simp [ht, hv, addInterval_eq_setHistory hn, Except.toOption]

/-- The second store has the given history at a path and is otherwise like the first one, but
for attributes without a history on the way to that path. -/
structure Wrote (st : Store) (path : List String) (log : List Interval) (st' : Store) : Prop
    extends st.Extends st' where
  historyAt? : ∀ p, st'.historyAt? p =
    if p = path then some log
    else if p <+: path then some (st.intervalsAt p)
    else st.historyAt? p

namespace Wrote

variable {st st' : Store} {path : List String} {log : List Interval}

theorem intervalsAt (h : st.Wrote path log st') (p : List String) :
    st'.intervalsAt p = if p = path then log else st.intervalsAt p := by
  rw [Store.intervalsAt, h.historyAt?]
  split
  · rfl
  · split <;> rfl

theorem historyAt?_of_outside (t : st.Tree) (h : st.Wrote path log st')
    {base p : List String} (hbase : (st.find? root base).isSome) (hpath : base <+: path)
    (hp : ¬ base <+: p) : st'.historyAt? p = st.historyAt? p := by
  rw [h.historyAt?]
  split
  · next heq => exact (hp (heq ▸ hpath)).elim
  · split
    · next hpp =>
      have hpb : p <+: base := (List.prefix_or_prefix_of_prefix hpp hpath).resolve_right hp
      have hsome := (t.historyAt?_isSome_iff p).mpr (find?_isSome_of_le hpb hbase)
      obtain ⟨old, hold⟩ := Option.isSome_iff_exists.mp hsome
      simp [Store.intervalsAt, hold]
    · rfl

end Wrote

end Store

namespace History

open Store

variable {st : Store} {base : List String} {subtree : Quark}

theorem write_spec (t : st.Tree) (hl : st.lockedName = none)
    (hq : st.find? root base = some subtree) (time : Int64) (path : List String)
    (value : Value) :
    match Interval.extend? (st.intervalsAt (base ++ path)) time value with
    | some log => ∃ st', write subtree time path value st = .ok () st' ∧
        st.Wrote (base ++ path) log st' ∧ st'.endTime = (st.extendTo time).endTime
    | none => ∃ e st', write subtree time path value st = .error e st' ∧
        st.Wrote (base ++ path) (st.intervalsAt (base ++ path)) st' ∧
        st'.endTime = st.endTime := by
  obtain ⟨st₁, c, hensure, hext, hend, hfind, hhist⟩ := ensure_spec t hq path
  obtain ⟨n, hn⟩ := hext.tree.exists_node hfind
  have hlog : n.intervals.toList = st.intervalsAt (base ++ path) := by
    have hsome := historyAt?_of_find? hfind hn
    rw [hhist, if_pos (List.prefix_refl _)] at hsome
    exact (Option.some.inj hsome).symm
  have hwrite := write_eq hn (hext.lockedName.trans hl) time value
  rw [hlog] at hwrite
  cases hlater : Interval.extend? (st.intervalsAt (base ++ path)) time value with
  | none =>
      rw [hlater, Option.map_none] at hwrite
      cases hres : st₁.write c time value with
      | ok st₂ => simp [hres, Except.toOption] at hwrite
      | error e =>
          refine ⟨e, st₁, ?_, ⟨hext, fun p => ?_⟩, hend⟩
          · simp [write, StoreM.ensure, StoreM.write, hensure, hres, bind, EStateM.bind]
          · rw [hhist]
            by_cases hp : p = base ++ path
            · simp [hp]
            · simp [hp]
  | some log =>
      rw [hlater, Option.map_some] at hwrite
      cases hres : st₁.write c time value with
      | error e => simp [hres, Except.toOption] at hwrite
      | ok st₂ =>
          rw [hres] at hwrite
          obtain rfl : st₂ = (st₁.setHistory c log).extendTo time := Option.some.inj hwrite
          refine ⟨(st₁.setHistory c log).extendTo time, ?_, ⟨⟨?_, ?_, ?_, ?_⟩, fun p => ?_⟩, ?_⟩
          · simp [write, StoreM.ensure, StoreM.write, hensure, hres, bind, EStateM.bind]
          · exact tree_extendTo time (tree_setHistory hext.tree)
          · intro p q hp
            simpa [find?_setHistory] using hext.find? p q hp
          · rw [startTime_extendTo]
            exact hext.startTime
          · rw [lockedName_extendTo]
            exact hext.lockedName
          · rw [historyAt?_extendTo, historyAt?_setHistory hext.tree hfind, hhist]
          · rw [endTime_extendTo, endTime_extendTo, ← hend]
            rfl

end History

end TraceAutomata
