import Mathlib.Data.List.TakeWhile
import TraceAutomata.Proofs.Store.Accepted

namespace TraceAutomata

namespace Double

theorem equals_symm {x y : Double} (h : x.equals y = true) : y.equals x = true := by
  simp only [equals, Bool.and_eq_true, Bool.or_eq_true, beq_iff_eq] at h ⊢
  obtain ⟨⟨hx, hy⟩, hsame⟩ := h
  exact ⟨⟨hy, hx⟩, hsame.imp Eq.symm And.symm⟩

theorem equals_trans {x y z : Double} (h : x.equals y = true) (h' : y.equals z = true) :
    x.equals z = true := by
  simp only [equals, Bool.and_eq_true, Bool.or_eq_true, beq_iff_eq] at h h' ⊢
  obtain ⟨⟨hx, -⟩, hxy⟩ := h
  obtain ⟨⟨-, hz⟩, hyz⟩ := h'
  refine ⟨⟨hx, hz⟩, ?_⟩
  rcases hxy with rfl | hxy
  · exact hyz
  · rcases hyz with rfl | hyz
    · exact .inr hxy
    · exact .inr ⟨hxy.1, hyz.2⟩

end Double

namespace Value

/-- The same value, or zeros of both signs. -/
def Agrees (a b : Value) : Prop :=
  a = b ∨ ∃ x y, a = .double x ∧ b = .double y ∧ x.magnitude = 0 ∧ y.magnitude = 0

theorem agrees_of_coincides {a b : Value} (h : a.coincides b = true) : a.Agrees b := by
  rw [coincides.eq_def] at h
  split at h
  · next x y =>
    simp only [Double.equals, Bool.and_eq_true, Bool.or_eq_true, beq_iff_eq] at h
    rcases h.2 with rfl | hzero
    · exact .inl rfl
    · exact .inr ⟨x, y, rfl, rfl, hzero.1, hzero.2⟩
  · exact .inl (beq_iff_eq.mp h)

theorem coincides_symm {a b : Value} (h : a.coincides b = true) : b.coincides a = true := by
  rw [coincides.eq_def] at h
  split at h
  · exact Double.equals_symm h
  · next hdouble =>
    obtain rfl := beq_iff_eq.mp h
    rw [coincides.eq_def]
    split
    · exact (hdouble _ _ rfl rfl).elim
    · exact h

theorem coincides_trans {a b c : Value} (h : a.coincides b = true) (h' : b.coincides c = true) :
    a.coincides c = true := by
  rcases agrees_of_coincides h with rfl | ⟨x, y, rfl, rfl, -⟩
  · exact h'
  · rcases agrees_of_coincides h' with rfl | ⟨-, z, -, rfl, -⟩
    · exact h
    · exact Double.equals_trans h h'

theorem coincides_congr {a b : Value} (h : a.coincides b = true) (c : Value) :
    a.coincides c = b.coincides c := by
  rw [Bool.eq_iff_iff]
  exact ⟨fun hc => coincides_trans (coincides_symm h) hc, fun hc => coincides_trans h hc⟩

end Value

namespace Interval

/-- The write that brought the value at the end of some writes, if one did: it changed the value, and
the writes since then repeat it. Writes that leave the `null` of the beginning bring nothing. -/
inductive Brought : List Interval → Option Interval → Prop
  | nothing {writes : List Interval} (h : ∀ w ∈ writes, w.value = .null) : Brought writes none
  | change {before repeats : List Interval} {i : Interval}
      (changed : (ongoing before).coincides i.value = false)
      (repeated : ∀ w ∈ repeats, i.value.coincides w.value = true) :
      Brought (before ++ i :: repeats) (some i)

/-- What is in force at a time, after some writes: what they brought up to the last one that is not
later. -/
def InForce (time : Int64) (writes : List Interval) (source : Option Interval) : Prop :=
  ∃ earlier later, writes = earlier ++ later ∧ Brought earlier source ∧
    (∀ w ∈ later, time < w.start) ∧ ∀ i ∈ source, i.start ≤ time

/-- The last of some writes that is not later than a time. -/
def lastBy (time : Int64) (writes : List Interval) : Option Interval :=
  (writes.filter fun w => w.start ≤ time).getLast?

def valueOf (source : Option Interval) : Value :=
  (source.map Interval.value).getD .null

variable {time : Int64} {log log' writes : List Interval} {source : Option Interval} {w : Interval}

theorem Brought.ongoing_coincides (h : Brought writes source) (value : Value) :
    (ongoing writes).coincides value = (valueOf source).coincides value := by
  cases h with
  | nothing hnull =>
      have hongoing : ongoing writes = .null := by
        rw [ongoing]
        cases hlast : writes.getLast? with
        | none => rfl
        | some w => exact hnull w (List.mem_of_getLast? hlast)
      rw [hongoing]
      rfl
  | @change before repeats i _ hrepeated =>
      cases hlast : repeats.getLast? with
      | none =>
          rw [List.getLast?_eq_none_iff.mp hlast, ongoing, List.getLast?_concat]
          rfl
      | some w =>
          have hsame := hrepeated w (List.mem_of_getLast? hlast)
          rw [ongoing, List.getLast?_append, List.getLast?_cons, hlast]
          exact (Value.coincides_congr hsame value).symm

theorem Brought.write (h : Brought writes source) (w : Interval) :
    Brought (writes ++ [w])
      (if (valueOf source).coincides w.value then source else some w) := by
  split
  · next hrepeats =>
    cases h with
    | nothing hnull =>
        refine .nothing fun x hx => ?_
        rcases List.mem_append.mp hx with hx | hx
        · exact hnull x hx
        · rw [List.mem_singleton.mp hx]
          rcases Value.agrees_of_coincides hrepeats with heq | ⟨_, _, hdouble, -⟩
          · exact heq.symm
          · cases hdouble
    | @change before repeats i hchanged hrepeated =>
        rw [List.append_assoc, List.cons_append]
        refine .change hchanged fun x hx => ?_
        rcases List.mem_append.mp hx with hx | hx
        · exact hrepeated x hx
        · rw [List.mem_singleton.mp hx]
          exact hrepeats
  · next hchanges =>
    refine .change ?_ fun x hx => (List.not_mem_nil hx).elim
    rw [h.ongoing_coincides, eq_false_of_ne_true hchanges]

theorem InForce.write_later (h : InForce time writes source) (hlater : time < w.start) :
    InForce time (writes ++ [w]) source := by
  obtain ⟨earlier, later, rfl, hbrought, hall, hstart⟩ := h
  refine ⟨earlier, later ++ [w], List.append_assoc .., hbrought, fun x hx => ?_, hstart⟩
  rcases List.mem_append.mp hx with hx | hx
  · exact hall x hx
  · rw [List.mem_singleton.mp hx]
    exact hlater

theorem InForce.of_brought (h : Brought writes source) (hstart : ∀ i ∈ source, i.start ≤ time) :
    InForce time writes source :=
  ⟨writes, [], (List.append_nil writes).symm, h, List.forall_mem_nil _, hstart⟩

/-- The value in force is that of the last write by then. -/
theorem InForce.agrees (h : InForce time writes source) :
    match lastBy time writes with
    | some w => (valueOf source).Agrees w.value
    | none => valueOf source = .null := by
  obtain ⟨earlier, later, rfl, hbrought, hlater, hstart⟩ := h
  have hnone : later.filter (fun w => decide (w.start ≤ time)) = [] := by
    rw [List.filter_eq_nil_iff]
    intro w hw
    rw [decide_eq_true_eq, Int64.not_le]
    exact hlater w hw
  rw [lastBy, List.filter_append, hnone, List.append_nil]
  cases hbrought with
  | nothing hnull =>
      cases hlast : (earlier.filter fun w => decide (w.start ≤ time)).getLast? with
      | none => rfl
      | some w =>
          have hw := (List.mem_filter.mp (List.mem_of_getLast? hlast)).1
          exact .inl (hnull w hw).symm
  | @change before repeats i _ hrepeated =>
      have hi : decide (i.start ≤ time) = true := decide_eq_true (hstart i rfl)
      rw [List.filter_append, List.filter_cons, if_pos hi, List.getLast?_append, List.getLast?_cons]
      cases hlast : (repeats.filter fun w => decide (w.start ≤ time)).getLast? with
      | none => exact .inl rfl
      | some w =>
          have hw := (List.mem_filter.mp (List.mem_of_getLast? hlast)).1
          exact Value.agrees_of_coincides (hrepeated w hw)

theorem changes_sublist (current : Value) (writes : List Interval) :
    (changes current writes).Sublist writes := by
  induction writes generalizing current with
  | nil => exact .slnil
  | cons w rest ih =>
      rw [changes]
      split
      · exact (ih current).cons w
      · exact (ih w.value).cons_cons w

/-- The interval of a history that holds a time. -/
def holder (time : Int64) (log : List Interval) : Option Interval :=
  (log.takeWhile fun i => i.start ≤ time).getLast?

theorem start_of_holder {i : Interval} (h : holder time log = some i) : i ∈ log ∧ i.start ≤ time := by
  rw [holder] at h
  have hmem := List.mem_of_getLast? h
  have hstart := List.mem_takeWhile_imp (p := fun i : Interval => decide (i.start ≤ time)) hmem
  rw [decide_eq_true_eq] at hstart
  exact ⟨(List.takeWhile_sublist _).subset hmem, hstart⟩

theorem Ordered.lt_of_holder (hordered : Ordered log) (h : holder time log = none) :
    ∀ i ∈ log, time < i.start := by
  cases log with
  | nil => exact List.forall_mem_nil _
  | cons first rest =>
      have hfirst : time < first.start := by
        refine Int64.not_le.mp fun hle => ?_
        rw [holder, List.takeWhile_cons, if_pos (decide_eq_true hle)] at h
        cases List.getLast?_eq_none_iff.mp h
      intro i hi
      rcases List.mem_cons.mp hi with rfl | hi
      · exact hfirst
      · exact Int64.lt_of_lt_of_le hfirst ((List.pairwise_cons.mp hordered).1 i hi)

theorem holder_of_forall_le (h : ∀ i ∈ log, i.start ≤ time) : holder time log = log.getLast? := by
  have hall : log.takeWhile (fun i => decide (i.start ≤ time)) = log :=
    List.takeWhile_eq_self_iff.mpr fun i hi => decide_eq_true (h i hi)
  rw [holder, hall]

theorem holder_concat_of_lt (hlater : time < w.start) : holder time (log ++ [w]) = holder time log := by
  have hnot : decide (w.start ≤ time) = false :=
    decide_eq_false (Int64.not_le.mpr hlater)
  rw [holder, List.takeWhile_append, List.takeWhile_cons, hnot]
  split
  · next hall =>
    have hsame := (List.takeWhile_prefix fun i : Interval => decide (i.start ≤ time)).eq_of_length hall
    rw [holder, hsame, if_neg Bool.false_ne_true, List.append_nil]
  · rfl

/-- A history shows what the accepted writes brought, at each time. -/
structure Shows (log writes : List Interval) : Prop where
  ordered : Ordered log
  brought : Brought writes log.getLast?
  inForce : ∀ time, InForce time writes (holder time log)

theorem shows_nil : Shows [] [] where
  ordered := .nil
  brought := .nothing (List.forall_mem_nil _)
  inForce _ := .of_brought (.nothing (List.forall_mem_nil _)) nofun

theorem Shows.write (h : Shows log writes) (hext : extend? log w.start w.value = some log') :
    Shows log' (writes ++ [w]) := by
  have hordered := h.ordered.extend hext
  have hbrought := h.brought.write w
  have hnext : (∀ i ∈ log, i.start ≤ w.start) ∧
      log' = if (valueOf log.getLast?).coincides w.value then log else log ++ [w] := by
    rw [extend?_eq] at hext
    split at hext
    · cases hext
    · next hnot =>
      refine ⟨(h.ordered.forall_le_iff w.start).mpr hnot, ?_⟩
      rw [ongoing] at hext
      rw [valueOf]
      split at hext
      · next hsame => rw [if_pos hsame, Option.some.inj hext]
      · next hdiffers => rw [if_neg hdiffers, ← Option.some.inj hext]
  obtain ⟨hle, rfl⟩ := hnext
  have hlast : (if (valueOf log.getLast?).coincides w.value then log else log ++ [w]).getLast? =
      if (valueOf log.getLast?).coincides w.value then log.getLast? else some w := by
    split
    · rfl
    · exact List.getLast?_concat
  rw [← hlast] at hbrought
  refine ⟨hordered, hbrought, fun time => ?_⟩
  by_cases htime : w.start ≤ time
  · -- All intervals begin by then, so the end of the history is what holds.
    have hall : ∀ i ∈ (if (valueOf log.getLast?).coincides w.value then log else log ++ [w]),
        i.start ≤ time := by
      intro i hi
      split at hi
      · exact Int64.le_trans (hle i hi) htime
      · rcases List.mem_append.mp hi with hi | hi
        · exact Int64.le_trans (hle i hi) htime
        · rw [List.mem_singleton.mp hi]
          exact htime
    rw [holder_of_forall_le hall]
    exact .of_brought hbrought fun i hi => hall i (List.mem_of_getLast? hi)
  · have hlater := Int64.not_le.mp htime
    have hsame : holder time (if (valueOf log.getLast?).coincides w.value then log else log ++ [w]) =
        holder time log := by
      split
      · rfl
      · exact holder_concat_of_lt hlater
    rw [hsame]
    exact (h.inForce time).write_later hlater

end Interval

namespace Store

open TraceAutomata.Interval

theorem shows_updateAll {st : Store} (h : st.Reached) {q : Quark} {writes : List Interval}
    (hshows : Shows (st.log q) writes) (updates : List Update) :
    Shows ((st.updateAll updates).log q) (writes ++ st.acceptedWrites q updates) := by
  induction updates generalizing st writes with
  | nil => simpa [updateAll, acceptedWrites] using hshows
  | cons u rest ih =>
      have hstep := log_update h u q
      rw [acceptedWrites, updateAll_cons, ← List.append_assoc]
      refine ih (h.update u).1 ?_
      cases haccepted : u.accepted? st q with
      | none =>
          rw [haccepted] at hstep
          rw [hstep, Option.toList_none, List.append_nil]
          exact hshows
      | some w =>
          rw [haccepted] at hstep
          exact hshows.write hstep

theorem startTime_updateAll {st : Store} (h : st.Reached) (updates : List Update) :
    (st.updateAll updates).startTime = st.startTime := by
  induction updates generalizing st with
  | nil => rfl
  | cons u rest ih =>
      rw [updateAll_cons, ih (h.update u).1]
      exact (h.update u).2.startTime

theorem valueAt_of_lt {st : Store} {q : Quark} (hq : q < st.nodes.size) (time : Int64) :
    st.valueAt q time = .ok
      (valueOf (holder time (st.log q)), ((holder time (st.log q)).map (·.start)).getD st.startTime) := by
  rw [valueAt, log, node, Array.getElem?_eq_getElem hq, Option.map_some, Option.getD_some, holder]
  cases hlast : (st.nodes[q].intervals.toList.takeWhile fun i => decide (i.start ≤ time)).getLast? <;>
    simp only [Except.map, hlast] <;> rfl

theorem ongoing_of_lt {st : Store} {q : Quark} (hq : q < st.nodes.size) :
    st.ongoing q = .ok (valueOf (st.log q).getLast?) := by
  rw [ongoing, log, node, Array.getElem?_eq_getElem hq, Option.map_some, Option.getD_some,
    Array.getLast?_toList]
  rfl

/-- After any calls, the value of an attribute at any time is that of the last accepted write by then,
or null if there is none, and it holds since the time of the write that brought it; where no interval
holds the time, it does since the start of the store. The ongoing value is the one at any time that is
not earlier than all accepted writes. -/
theorem valueAt_accepted (start : Int64) (updates : List Update) {q : Quark}
    (hq : q < ((empty start).updateAll updates).size) (time : Int64) :
    let st := (empty start).updateAll updates
    let writes := (empty start).acceptedWrites q updates
    ∃ value since history source,
      st.valueAt q time = .ok (value, since) ∧
      (match lastBy time writes with
        | some w => value.Agrees w.value
        | none => value = .null) ∧
      ((∀ w ∈ writes, w.start ≤ time) → st.ongoing q = .ok value) ∧
      st.history q = .ok history ∧ InForce time writes source ∧
      match source with
      | some i => i ∈ history ∧ value = i.value ∧ since = i.start
      | none => (∀ i ∈ history, time < i.start) ∧ value = .null ∧ since = start := by
  intro st writes
  have hreached := (reached_empty start).updateAll updates
  have hempty : Shows ((empty start).log q) [] := by
    rw [log_empty]
    exact shows_nil
  have hshows : Shows (st.log q) writes := shows_updateAll (reached_empty start) hempty updates
  have hin := hshows.inForce time
  refine ⟨_, _, st.log q, holder time (st.log q), valueAt_of_lt hq time, hin.agrees, fun hall => ?_,
    history_of_lt hq, hin, ?_⟩
  · have hlog := log_updateAll (reached_empty start) updates q
    rw [log_empty, List.nil_append] at hlog
    have hle : ∀ i ∈ st.log q, i.start ≤ time := fun i hi =>
      hall i ((changes_sublist _ _).subset (hlog ▸ hi))
    rw [ongoing_of_lt hq, holder_of_forall_le hle]
  · cases hholder : holder time (st.log q) with
    | some i => exact ⟨(start_of_holder hholder).1, rfl, rfl⟩
    | none => exact ⟨hshows.ordered.lt_of_holder hholder, rfl,
        startTime_updateAll (reached_empty start) updates⟩

/-- A repeated value holds since the write that brought it, also where the writes after that one are
not in the order of time. -/
theorem valueAt_accepted_sample :
    let updates : List Update :=
      [.create root ["a"], .write 1 10 (.int 1), .write 1 20 (.int 1), .write 1 15 (.int 2)]
    let st := (empty 0).updateAll updates
    1 < st.size ∧ (∃ value since, st.valueAt 1 30 = .ok (value, since) ∧ value.Agrees (.int 2)) ∧
      st.valueAt 1 12 = .ok (.int 1, 10) := by
  have hq : 1 < ((empty 0).updateAll
      [.create root ["a"], .write 1 10 (.int 1), .write 1 20 (.int 1),
        .write 1 15 (.int 2)]).size := by
    decide
  obtain ⟨value, since, -, -, hvalue, hagrees, -⟩ := valueAt_accepted 0 _ hq 30
  exact ⟨hq, ⟨value, since, hvalue, hagrees⟩, by decide⟩

end Store

end TraceAutomata
