import TraceAutomata.Proofs.Store.InForce
import TraceAutomata.Proofs.Store.Timely
import TraceAutomata.Proofs.Store.Within

namespace TraceAutomata

namespace Interval

/-- The history goes on, with nothing that begins before a time. -/
def GoesOn (time : Int64) (log log' : List Interval) : Prop :=
  ∃ later, log' = log ++ later ∧ ∀ i ∈ later, time ≤ i.start

variable {time : Int64} {log log' log'' : List Interval}

theorem GoesOn.refl (time : Int64) (log : List Interval) : GoesOn time log log :=
  ⟨[], (List.append_nil log).symm, List.forall_mem_nil _⟩

theorem GoesOn.trans (h : GoesOn time log log') (h' : GoesOn time log' log'') :
    GoesOn time log log'' := by
  obtain ⟨later, rfl, hlater⟩ := h
  obtain ⟨later', rfl, hlater'⟩ := h'
  refine ⟨later ++ later', List.append_assoc .., fun i hi => ?_⟩
  rcases List.mem_append.mp hi with hi | hi
  · exact hlater i hi
  · exact hlater' i hi

theorem GoesOn.of_extend? {now : Int64} {value : Value}
    (hextend : extend? log now value = some log')
    (htime : time ≤ now) : GoesOn time log log' := by
  rcases extend?_cases hextend with rfl | rfl
  · exact .refl time log'
  · refine ⟨_, rfl, fun i hi => ?_⟩
    rw [List.mem_singleton.mp hi]
    exact htime

theorem GoesOn.holder_eq (h : GoesOn time log log') {earlier : Int64} (hlt : earlier < time) :
    holder earlier log' = holder earlier log := by
  obtain ⟨later, rfl, hlater⟩ := h
  induction later using List.reverseRecOn with
  | nil => rw [List.append_nil]
  | append_singleton front last ih =>
      have hlast : time ≤ last.start := hlater last (List.mem_append_right _ List.mem_cons_self)
      rw [← List.append_assoc, holder_concat_of_lt (Int64.lt_of_lt_of_le hlt hlast)]
      exact ih fun i hi => hlater i (List.mem_append_left _ hi)

end Interval

namespace View

def GoesOn (time : Int64) (v v' : View) : Prop :=
  ∀ path, Interval.GoesOn time (v.intervalsAt path) (v'.intervalsAt path)

theorem goesOn_writeAll {time : Int64} (v : View) {writes : List Write}
    (htime : ∀ w ∈ writes, time ≤ w.time) : v.GoesOn time (v.writeAll writes).1 :=
  fun path => writeAll_induction (P := Interval.GoesOn time (v.intervalsAt path)) v writes
    (fun w hw _ _ _ h hextend => h.trans (.of_extend? hextend (htime w hw))) (.refl time _)

theorem goesOn_record {time : Int64} (v : View) {groups : List (List Write)}
    (htime : ∀ writes ∈ groups, ∀ w ∈ writes, time ≤ w.time) : v.GoesOn time (v.record groups) :=
  fun path => record_induction (P := Interval.GoesOn time (v.intervalsAt path)) v groups
    (fun writes hwrites w hw _ _ _ h hextend =>
      h.trans (.of_extend? hextend (htime writes hwrites w hw))) (.refl time _)

end View

namespace Store

/-- A later store has all attributes of an earlier one in their places, and all its histories go on
from a time on. -/
structure GoesOn (st : Store) (time : Int64) (st' : Store) : Prop extends st.Extends st' where
  intervalsAt : ∀ p, Interval.GoesOn time (st.intervalsAt p) (st'.intervalsAt p)

variable {st st' st'' : Store} {time : Int64}

namespace GoesOn

theorem refl (t : st.Tree) (time : Int64) : st.GoesOn time st :=
  ⟨.refl t, fun p => .refl time (st.intervalsAt p)⟩

theorem trans (h : st.GoesOn time st') (h' : st'.GoesOn time st'') : st.GoesOn time st'' where
  toExtends := h.toExtends.trans h'.toExtends
  intervalsAt p := (h.intervalsAt p).trans (h'.intervalsAt p)

theorem of_extends (h : st.Extends st') (hsame : ∀ p, st'.intervalsAt p = st.intervalsAt p)
    (time : Int64) : st.GoesOn time st' where
  toExtends := h
  intervalsAt p := by
    rw [hsame]
    exact .refl time _

theorem extendTo (t : st.Tree) (time now : Int64) : st.GoesOn time (st.extendTo now) :=
  of_extends (extends_extendTo now t)
    (fun p => by rw [Store.intervalsAt, historyAt?_extendTo, Store.intervalsAt]) time

end GoesOn

theorem Recorded.goesOn {base : List String} {v : View} (h : st.Recorded base v st')
    (hview : (st.below base).GoesOn time v) : st.GoesOn time st' where
  toExtends := h.toExtends
  intervalsAt p := by
    by_cases hp : base <+: p
    · obtain ⟨rest, rfl⟩ := hp
      rw [← intervalsAt_below, ← intervalsAt_below, h.below]
      exact hview rest
    · rw [Store.intervalsAt, Store.intervalsAt, h.outside p hp]
      exact .refl time _

/-- A later store gives the answers of an earlier one about all times before some time, and attributes
that it has besides have no value then. -/
structure KeepsBefore (st : Store) (time : Int64) (st' : Store) : Prop where
  size_le : st.size ≤ st'.size
  segments : ∀ q < st.size, st'.segments q = st.segments q
  valueAt : ∀ q < st.size, ∀ earlier < time,
    ∃ answer, st.valueAt q earlier = .ok answer ∧ st'.valueAt q earlier = .ok answer
  valueAt_new : ∀ q < st'.size, st.size ≤ q → ∀ earlier < time,
    st'.valueAt q earlier = .ok (.null, st.startTime)

theorem Tree.log_eq (t : st.Tree) {q : Quark} (hq : q < st.nodes.size) :
    st.log q = st.intervalsAt (st.segments q) :=
  log_of_find? t (t.find?_segments hq)

theorem Tree.find?_segments_of_new (t : st.Tree) (h : st.Extends st') {q : Quark}
    (hq' : q < st'.nodes.size) (hq : st.nodes.size ≤ q) :
    st.find? root (st'.segments q) = none := by
  rw [Option.eq_none_iff_forall_ne_some]
  intro c hc
  have hkept := h.find? _ _ hc
  rw [h.tree.find?_segments hq', Option.some.injEq] at hkept
  exact Nat.not_lt.mpr hq (hkept ▸ t.find?_lt hc)

theorem GoesOn.keepsBefore (t : st.Tree) (h : st.GoesOn time st') : st.KeepsBefore time st' := by
  have hlt : ∀ q < st.nodes.size, q < st'.nodes.size := fun q hq => h.lt_size t hq
  constructor
  · exact Nat.le_of_pred_lt (hlt _ (Nat.pred_lt_of_lt t.root_lt))
  · exact fun q hq => h.segments t hq
  · intro q hq earlier hearlier
    refine ⟨_, valueAt_of_lt hq earlier, ?_⟩
    have hlog := h.intervalsAt (st.segments q)
    rw [← t.log_eq hq, ← h.segments t hq, ← h.tree.log_eq (hlt q hq)] at hlog
    rw [valueAt_of_lt (hlt q hq), hlog.holder_eq hearlier, h.startTime]
  · intro q hq' hq earlier hearlier
    have hlog := h.intervalsAt (st'.segments q)
    have hnone : st.intervalsAt (st'.segments q) = [] := by
      rw [Store.intervalsAt, historyAt?, t.find?_segments_of_new h.toExtends hq' hq]
      rfl
    rw [hnone, ← h.tree.log_eq hq'] at hlog
    rw [valueAt_of_lt hq', hlog.holder_eq hearlier, h.startTime]
    rfl

end Store

end TraceAutomata
