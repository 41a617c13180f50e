import TraceAutomata.Proofs.Store.Ongoing
import TraceAutomata.Proofs.Store.Update

/-!
Which writes are accepted. The history of an attribute keeps the accepted writes that changed its
value, and a write is measured against these alone: it is refused exactly if it is earlier than the
latest of them. An accepted write that repeats the value leaves no trace, and later writes may be
earlier than it.
-/

namespace TraceAutomata

namespace Interval

/-- What remains of values that are set one after the other: those that differ from the value
before them. -/
def changes (current : Value) : List Interval → List Interval
  | [] => []
  | i :: rest =>
      if current.coincides i.value then changes current rest else i :: changes i.value rest

theorem null_coincides (value : Value) : Value.null.coincides value = value.isNull := by
  cases value <;> rfl

/-- A history grows by a value that differs from the ongoing one, unless its last interval begins
later. -/
theorem extend?_eq (log : List Interval) (time : Int64) (value : Value) :
    extend? log time value =
      if ∃ last, log.getLast? = some last ∧ time < last.start then none
      else if (ongoing log).coincides value then some log
      else some (log ++ [⟨time, value⟩]) := by
  rw [extend?, ongoing]
  cases log.getLast? with
  | none => simp [null_coincides]
  | some last => simp

/-- The intervals of a history begin one after the other, or together. -/
def Ordered (log : List Interval) : Prop :=
  log.Pairwise fun i j => i.start ≤ j.start

theorem Ordered.le_last {log : List Interval} (h : Ordered log) {last : Interval}
    (hlast : log.getLast? = some last) : ∀ i ∈ log, i.start ≤ last.start := by
  obtain ⟨front, rfl⟩ := List.getLast?_eq_some_iff.mp hlast
  intro i hi
  rcases List.mem_append.mp hi with hi | hi
  · exact (List.pairwise_append.mp h).2.2 i hi last (List.mem_singleton_self last)
  · rw [List.mem_singleton.mp hi]
    exact Int64.le_refl _

theorem Ordered.forall_le_iff {log : List Interval} (h : Ordered log) (time : Int64) :
    (∀ i ∈ log, i.start ≤ time) ↔ ¬ ∃ last, log.getLast? = some last ∧ time < last.start := by
  constructor
  · rintro hall ⟨last, hlast, hlt⟩
    exact Int64.not_lt.mpr (hall last (List.mem_of_getLast? hlast)) hlt
  · intro hnot i hi
    obtain ⟨last, hlast⟩ := Option.isSome_iff_exists.mp
      (List.getLast?_isSome.mpr (List.ne_nil_of_mem hi))
    have hle : last.start ≤ time := Int64.not_lt.mp fun hlt => hnot ⟨last, hlast, hlt⟩
    exact Int64.le_trans (h.le_last hlast i hi) hle

theorem Ordered.extend {log log' : List Interval} {time : Int64} {value : Value}
    (h : Ordered log) (hext : extend? log time value = some log') : Ordered log' := by
  rw [extend?_eq] at hext
  split at hext
  · cases hext
  · next hnot =>
    split at hext
    · obtain rfl := Option.some.inj hext
      exact h
    · obtain rfl := Option.some.inj hext
      refine List.pairwise_append.mpr ⟨h, List.pairwise_singleton _ _, ?_⟩
      intro i hi j hj
      rw [List.mem_singleton.mp hj]
      exact (h.forall_le_iff time).mpr hnot i hi

end Interval

namespace Update

/-- The value and its time, if the call is a write to an attribute and is accepted. -/
def accepted? (u : Update) (st : Store) (q : Quark) : Option Interval :=
  match u with
  | .write target time value =>
      if target = q ∧ (st.write q time value).toOption.isSome then some ⟨time, value⟩ else none
  | _ => none

end Update

namespace Store

/-- The accepted writes to an attribute, in the order of the calls. -/
def acceptedWrites (q : Quark) : Store → List Update → List Interval
  | _, [] => []
  | st, u :: rest => (u.accepted? st q).toList ++ acceptedWrites q (st.update u) rest

/-- The history of an attribute; none if there is no such attribute. -/
def log (st : Store) (q : Quark) : List Interval :=
  (st.nodes[q]?.map fun n => n.intervals.toList).getD []

theorem log_of_find? {st : Store} (t : st.Tree) {path : List String} {q : Quark}
    (h : st.find? root path = some q) : st.log q = st.intervalsAt path := by
  obtain ⟨n, hn⟩ := t.exists_node h
  rw [log, hn, intervalsAt_of_find? h hn]
  rfl

theorem log_of_not_lt {st : Store} {q : Quark} (hq : ¬ q < st.nodes.size) : st.log q = [] := by
  rw [log, Array.getElem?_eq_none (Nat.not_lt.mp hq)]
  rfl

theorem history_of_lt {st : Store} {q : Quark} (hq : q < st.nodes.size) :
    st.history q = .ok (st.log q) := by
  rw [history, log, node, Array.getElem?_eq_getElem hq]
  rfl

@[simp] theorem log_extendTo (st : Store) (time : Int64) (q : Quark) :
    (st.extendTo time).log q = st.log q := by
  simp [log]

theorem log_create {st : Store} (t : st.Tree) (base : Quark) (path : List String) (q : Quark) :
    (st.update (.create base path)).log q = st.log q := by
  by_cases hbase : base < st.nodes.size
  · obtain ⟨st', c, hensure, hext, -, hsame⟩ := ensure_of_lt t hbase path
    rw [update, hensure]
    simp only
    by_cases hq : q < st'.nodes.size
    · have hfind := hext.tree.find?_segments hq
      rw [log_of_find? hext.tree hfind, hsame]
      cases hold : st.find? root (st'.segments q) with
      | none =>
          have hnot : ¬ q < st.nodes.size := fun hlt => by
            have hkept := hext.find? _ _ (t.find?_segments hlt)
            rw [hext.tree.find?_injective hfind hkept, t.find?_segments hlt] at hold
            cases hold
          rw [log_of_not_lt hnot, intervalsAt, historyAt?, hold]
          rfl
      | some c =>
          obtain rfl : c = q := Option.some.inj ((hext.find? _ _ hold).symm.trans hfind)
          rw [log_of_find? t hold]
    · have hnot : ¬ q < st.nodes.size := fun hlt =>
        hq (hext.tree.find?_lt (hext.find? _ _ (t.find?_segments hlt)))
      rw [log_of_not_lt hq, log_of_not_lt hnot]
  · rw [update_create_of_not_lt hbase]

theorem write_toOption {st : Store} (h : st.Reached) {q : Quark} (hq : q < st.nodes.size)
    (time : Int64) (value : Value) :
    (st.write q time value).toOption =
      (Interval.extend? (st.log q) time value).map fun log =>
        (st.setHistory q log).extendTo time := by
  rw [write_of_lt h hq, ← log_of_find? h.tree (h.tree.find?_segments hq)]

theorem log_setHistory {st : Store} {target : Quark} (htarget : target < st.nodes.size)
    (log : List Interval) (q : Quark) :
    (st.setHistory target log).log q = if target = q then log else st.log q := by
  rw [Store.log, getElem?_setHistory]
  split
  · next heq =>
    subst heq
    simp [Array.getElem?_eq_getElem htarget]
  · rfl

theorem log_update {st : Store} (h : st.Reached) (u : Update) (q : Quark) :
    match u.accepted? st q with
    | some i => Interval.extend? (st.log q) i.start i.value = some ((st.update u).log q)
    | none => (st.update u).log q = st.log q := by
  cases u with
  | create base path => exact log_create h.tree base path q
  | extendTo time => exact log_extendTo st time q
  | write target time value =>
      rw [Update.accepted?, update]
      by_cases htarget : target < st.nodes.size
      · have hwrite := write_toOption h htarget time value
        cases hres : st.write target time value with
        | error e =>
            have hnot : ¬ (target = q ∧ (st.write q time value).toOption.isSome = true) := by
              rintro ⟨rfl, hsome⟩
              rw [hres] at hsome
              cases hsome
            rw [if_neg hnot]
        | ok st' =>
            rw [hres] at hwrite
            obtain ⟨log, hlog, rfl⟩ := Option.map_eq_some_iff.mp hwrite.symm
            simp only [log_extendTo, log_setHistory htarget]
            by_cases heq : target = q
            · subst heq
              simp [hres, Except.toOption, hlog]
            · simp [heq]
      · have hnot : ¬ (target = q ∧ (st.write q time value).toOption.isSome = true) := by
          rintro ⟨rfl, hsome⟩
          rw [write_of_not_lt htarget] at hsome
          cases hsome
        rw [if_neg hnot, write_of_not_lt htarget]

theorem log_updateAll {st : Store} (h : st.Reached) (updates : List Update) (q : Quark) :
    (st.updateAll updates).log q =
      st.log q ++ Interval.changes (Interval.ongoing (st.log q)) (st.acceptedWrites q updates) := by
  induction updates generalizing st with
  | nil => simp [updateAll, acceptedWrites, Interval.changes]
  | cons u rest ih =>
      have hstep := log_update h u q
      rw [acceptedWrites, updateAll_cons, ih (h.update u).1]
      cases haccepted : u.accepted? st q with
      | none =>
          rw [haccepted] at hstep
          rw [hstep, Option.toList_none, List.nil_append]
      | some i =>
          simp only [haccepted, Interval.extend?_eq] at hstep
          rw [Option.toList_some, List.singleton_append, Interval.changes]
          split at hstep
          · cases hstep
          · split at hstep
            · next hsame => rw [if_pos hsame, ← Option.some.inj hstep]
            · next hdiffers =>
              have hlast : Interval.ongoing (st.log q ++ [⟨i.start, i.value⟩]) = i.value := by
                simp [Interval.ongoing]
              rw [if_neg hdiffers, ← Option.some.inj hstep, hlast, List.append_assoc]
              rfl

theorem ordered_updateAll {st : Store} (h : st.Reached) {q : Quark}
    (hordered : Interval.Ordered (st.log q)) (updates : List Update) :
    Interval.Ordered ((st.updateAll updates).log q) := by
  induction updates generalizing st with
  | nil => exact hordered
  | cons u rest ih =>
      refine ih (h.update u).1 ?_
      have hstep := log_update h u q
      cases haccepted : u.accepted? st q with
      | none =>
          rw [haccepted] at hstep
          rw [hstep]
          exact hordered
      | some i =>
          rw [haccepted] at hstep
          exact hordered.extend hstep

theorem exists_write_iff {st : Store} (h : st.Reached) {q : Quark} (hq : q < st.nodes.size)
    (time : Int64) (value : Value) :
    (∃ st', st.write q time value = .ok st') ↔
      ¬ ∃ last, (st.log q).getLast? = some last ∧ time < last.start := by
  have hwrite := write_toOption h hq time value
  rw [Interval.extend?_eq] at hwrite
  cases hres : st.write q time value with
  | error e =>
      rw [hres] at hwrite
      refine ⟨fun ⟨_, hok⟩ => (nomatch hok), fun hlate => ?_⟩
      rw [if_neg hlate] at hwrite
      split at hwrite <;> cases hwrite
  | ok st' =>
      rw [hres] at hwrite
      refine ⟨fun _ hearly => ?_, fun _ => ⟨st', rfl⟩⟩
      rw [if_pos hearly] at hwrite
      cases hwrite

theorem write_eq_error {st : Store} (hl : st.lockedName = none) {q : Quark}
    (hq : q < st.nodes.size) {last : Interval} (hlast : (st.log q).getLast? = some last)
    {time : Int64} (htime : time < last.start) (value : Value) :
    st.write q time value = .error (.timeOrdering (pathText (st.segments q)) last.start time) := by
  have hn : st.node q = .ok st.nodes[q] :=
    (node_eq_ok_iff st q _).mpr (Array.getElem?_eq_getElem hq)
  have hback : st.nodes[q].intervals.back? = some last := by
    rw [log, Array.getElem?_eq_getElem hq] at hlast
    simpa using hlast
  simp only [write, hn, isLocked_eq_false hl, hback, bind, Except.bind, Bool.false_eq_true,
    if_false, htime, if_true]
  rfl

theorem log_empty (start : Int64) (q : Quark) : (empty start).log q = [] := by
  cases q with
  | zero => rfl
  | succ q => exact log_of_not_lt (by simp [empty])

/-- After any calls, the history of an attribute is made of the accepted writes that changed its
value, and a write is accepted exactly if it is not earlier than any of these. Otherwise the refusal
states the latest of them. -/
theorem write_accepted_iff (start : Int64) (updates : List Update) {q : Quark}
    (hq : q < ((empty start).updateAll updates).size) (time : Int64) (value : Value) :
    let st := (empty start).updateAll updates
    let changes := Interval.changes .null ((empty start).acceptedWrites q updates)
    st.history q = .ok changes ∧
      ((∃ st', st.write q time value = .ok st') ↔ ∀ i ∈ changes, i.start ≤ time) ∧
      ((¬ ∀ i ∈ changes, i.start ≤ time) →
        ∃ last ∈ changes, (∀ i ∈ changes, i.start ≤ last.start) ∧
          st.write q time value =
            .error (.timeOrdering (pathText (st.segments q)) last.start time)) := by
  have hreached := (reached_empty start).updateAll updates
  have hordered := ordered_updateAll (q := q) (reached_empty start)
    (by rw [log_empty]; exact .nil) updates
  have hlog := log_updateAll (reached_empty start) updates q
  rw [log_empty, List.nil_append] at hlog
  intro st changes
  have hchanges : st.log q = changes := hlog
  refine ⟨hchanges ▸ history_of_lt hq, ?_, fun hnot => ?_⟩
  · rw [← hchanges, hordered.forall_le_iff]
    exact exists_write_iff hreached hq time value
  · rw [← hchanges, hordered.forall_le_iff, not_not] at hnot
    obtain ⟨last, hlast, hlt⟩ := hnot
    refine ⟨last, ?_, ?_, write_eq_error hreached.lockedName hq hlast hlt value⟩
    · rw [← hchanges]
      exact List.mem_of_getLast? hlast
    · rw [← hchanges]
      exact hordered.le_last hlast

theorem write_accepted_iff_sample :
    let st := (empty 0).updateAll
      [.create root ["a"], .write 1 10 (.int 1), .write 1 20 (.int 2), .write 1 30 (.int 2)]
    1 < st.size ∧ (∃ st', st.write 1 25 .null = .ok st') ∧
      ∃ path, st.write 1 15 .null = .error (.timeOrdering path 20 15) := by
  have hq : 1 < ((empty 0).updateAll
      [.create root ["a"], .write 1 10 (.int 1), .write 1 20 (.int 2),
        .write 1 30 (.int 2)]).size := by
    decide
  have haccepted := (write_accepted_iff 0 _ hq 25 .null).2.1
  exact ⟨hq, haccepted.mpr (by decide), _, rfl⟩

/-- A write may be earlier than one that was accepted, if that one repeated the value. -/
theorem write_accepted_before_repetition :
    let updates : List Update :=
      [.create root ["a"], .write 1 10 (.int 1), .write 1 20 (.int 1)]
    let st := (empty 0).updateAll updates
    (∃ w ∈ (empty 0).acceptedWrites 1 updates, 15 < w.start) ∧
      ∃ st', st.write 1 15 (.int 2) = .ok st' := by
  refine ⟨by decide, _, rfl⟩

end Store

end TraceAutomata
