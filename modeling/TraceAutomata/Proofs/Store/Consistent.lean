import Mathlib.Data.List.Chain
import TraceAutomata.Proofs.Store.InForce
import TraceAutomata.Proofs.Store.InPlace

namespace TraceAutomata

namespace Interval

/-- What a history looks like: it begins with a value, its intervals do not go back in time, and no
interval repeats the value before. -/
structure Regular (log : List Interval) : Prop where
  ordered : Ordered log
  first_not_null : ∀ i ∈ log.head?, i.value.isNull = false
  changing : log.IsChain fun i j => i.value.coincides j.value = false

theorem regular_nil : Regular [] :=
  ⟨.nil, fun _ h => (nomatch h), .nil⟩

theorem Regular.extend {log log' : List Interval} {time : Int64} {value : Value}
    (h : Regular log) (hext : extend? log time value = some log') : Regular log' := by
  have hordered := h.ordered.extend hext
  rw [extend?_eq] at hext
  split at hext
  · cases hext
  · split at hext
    · obtain rfl := Option.some.inj hext
      exact h
    · next hdiffers =>
      obtain rfl := Option.some.inj hext
      refine ⟨hordered, ?_, List.isChain_append.mpr ⟨h.changing, .singleton _, fun i hi j hj => ?_⟩⟩
      · cases log with
        | nil => simpa [ongoing, null_coincides] using hdiffers
        | cons first rest => simpa using h.first_not_null
      · obtain rfl : (⟨time, value⟩ : Interval) = j := by simpa using hj
        rw [ongoing, hi] at hdiffers
        simpa using hdiffers

end Interval

/-- What a store may be asked, and may refuse to answer. -/
inductive Query where
  | resolve (base : Quark) (path : List String)
  | scan (base : Quark) (pattern : List String)
  | children (q : Quark)
  | name (q : Quark)
  | fullPath (q : Quark)
  | ongoing (q : Quark)
  | valueAt (q : Quark) (time : Int64)
  | history (q : Quark)

def Query.ask (st : Store) : Query → Except StoreError Unit
  | .resolve base path => discard (st.resolve base path)
  | .scan base pattern => discard (st.scan base pattern)
  | .children q => discard (st.children q)
  | .name q => discard (st.name q)
  | .fullPath q => discard (st.fullPath q)
  | .ongoing q => discard (st.ongoing q)
  | .valueAt q time => discard (st.valueAt q time)
  | .history q => discard (st.history q)

/-- A call on a store. -/
inductive StoreCall where
  | update (u : Update)
  | query (x : Query)

namespace StoreCall

def run : StoreCall → StoreM Unit
  | .update (.create base path) => discard (InPlace.create base path)
  | .update (.write q time value) => InPlace.write q time value
  | .update (.extendTo time) => modify (·.extendTo time)
  | .query x => InPlace.look x.ask

def time? : StoreCall → Option Int64
  | .update (.write _ time _) => some time
  | .update (.extendTo time) => some time
  | _ => none

/-- The time that a store hears of by a call, unless the call is refused. -/
def heard? (c : StoreCall) (st : Store) : Option Int64 :=
  if c.run.accepts st then c.time? else none

end StoreCall

namespace Store

def perform (st : Store) (calls : List StoreCall) : Store :=
  calls.foldl (fun st c => c.run.after st) st

def heard : Store → List StoreCall → List Int64
  | _, [] => []
  | st, c :: rest => (c.heard? st).toList ++ (c.run.after st).heard rest

def call (st : Store) : StoreCall → Store
  | .update u => st.update u
  | .query _ => st

variable {st : Store}

/-- A call does what it is meant to, or it is refused and changes nothing. -/
theorem run_spec (h : st.Reached) (c : StoreCall) :
    c.run st = .ok () (st.call c) ∨ ∃ e, c.run st = .error e st ∧ st.call c = st := by
  rcases c with (⟨base, path⟩ | ⟨q, time, value⟩ | time) | x
  · have hcreate := create_eq h.tree base path
    rw [StoreM.ensure] at hcreate
    change EStateM.map (fun _ => ()) (InPlace.create base path) st = _ ∨
      ∃ e, EStateM.map (fun _ => ()) (InPlace.create base path) st = _ ∧ _
    rw [EStateM.map, hcreate, call, update]
    cases st.ensure base path with
    | ok result => exact .inl rfl
    | error e => exact .inr ⟨e, rfl, rfl⟩
  · rw [StoreCall.run, write_inPlace_eq h.lockedName, StoreM.write, call, update]
    cases st.write q time value with
    | ok st' => exact .inl rfl
    | error e => exact .inr ⟨e, rfl, rfl⟩
  · exact .inl rfl
  · rw [StoreCall.run, InPlace.look]
    cases x.ask st with
    | ok a => exact .inl rfl
    | error e => exact .inr ⟨e, rfl, rfl⟩

theorem after_run (h : st.Reached) (c : StoreCall) : c.run.after st = st.call c := by
  rw [StoreM.after]
  rcases run_spec h c with hrun | ⟨e, hrun, hsame⟩
  · rw [hrun]
  · rw [hrun, hsame]

theorem eq_of_run_error (h : st.Reached) {c : StoreCall} {e : StoreError} {st' : Store}
    (hrun : c.run st = .error e st') : st' = st := by
  rcases run_spec h c with hok | ⟨e', herror, -⟩
  · rw [hok] at hrun
    cases hrun
  · rw [herror] at hrun
    cases hrun
    rfl

theorem endTime_create (h : st.Reached) (base : Quark) (path : List String) :
    (st.update (.create base path)).endTime = st.endTime := by
  by_cases hbase : base < st.nodes.size
  · obtain ⟨st', c, hensure, -, hend, -⟩ := ensure_of_lt h.tree hbase path
    rw [update, hensure]
    exact hend
  · rw [update_create_of_not_lt hbase]

theorem endTime_of_write (h : st.Reached) {q : Quark} {time : Int64} {value : Value} {st' : Store}
    (hwrite : st.write q time value = .ok st') : st'.endTime = (st.extendTo time).endTime := by
  by_cases hq : q < st.nodes.size
  · have hspec := write_of_lt h hq time value
    rw [hwrite] at hspec
    obtain ⟨log, -, rfl⟩ := Option.map_eq_some_iff.mp hspec.symm
    rw [endTime_extendTo, endTime_extendTo]
    rfl
  · rw [write_of_not_lt hq] at hwrite
    cases hwrite

theorem endTime_call (h : st.Reached) (c : StoreCall) :
    (st.call c).endTime = match c.heard? st with
      | some time => (st.extendTo time).endTime
      | none => st.endTime := by
  rw [StoreCall.heard?, StoreM.accepts]
  rcases run_spec h c with hrun | ⟨e, hrun, hsame⟩
  · rw [hrun, if_pos rfl]
    rcases c with (⟨base, path⟩ | ⟨q, time, value⟩ | time) | x
    · exact endTime_create h base path
    · rw [StoreCall.run, write_inPlace_eq h.lockedName, StoreM.write] at hrun
      cases hwrite : st.write q time value with
      | ok st' =>
          rw [call, update, hwrite]
          exact endTime_of_write h hwrite
      | error e =>
          rw [hwrite] at hrun
          cases hrun
    · rfl
    · rfl
  · rw [hrun, hsame]
    rfl

theorem regular_call (h : st.Reached) (hregular : ∀ q, Interval.Regular (st.log q))
    (c : StoreCall) (q : Quark) : Interval.Regular ((st.call c).log q) := by
  cases c with
  | update u =>
      have hlog := log_update h u q
      rw [call]
      cases haccepted : u.accepted? st q with
      | some i =>
          rw [haccepted] at hlog
          exact (hregular q).extend hlog
      | none =>
          rw [haccepted] at hlog
          rw [hlog]
          exact hregular q
  | query x => exact hregular q

def Latest (time : Int64) (times : List Int64) : Prop :=
  time ∈ times ∧ ∀ t ∈ times, t ≤ time

theorem Latest.extendTo {times : List Int64} (h : Latest st.endTime times) (time : Int64) :
    Latest (st.extendTo time).endTime (times ++ [time]) := by
  refine ⟨?_, fun t ht => ?_⟩
  · rw [endTime_extendTo]
    split
    · exact List.mem_append_right _ (List.mem_singleton_self time)
    · exact List.mem_append_left _ h.1
  · rcases List.mem_append.mp ht with ht | ht
    · exact Int64.le_trans (h.2 t ht) (endTime_le_extendTo st time)
    · rw [List.mem_singleton.mp ht]
      exact le_endTime_extendTo st time

/-- What holds of a store that has heard of some times since its start. -/
structure Consistent (start : Int64) (times : List Int64) (st : Store) : Prop where
  reached : st.Reached
  startTime : st.startTime = start
  regular : ∀ q, Interval.Regular (st.log q)
  latest : Latest st.endTime (start :: times)

theorem consistent_empty (start : Int64) : Consistent start [] (empty start) where
  reached := reached_empty start
  startTime := rfl
  regular q := by
    rw [log_empty]
    exact Interval.regular_nil
  latest := ⟨List.mem_singleton_self start, fun t ht => by
    rw [List.mem_singleton.mp ht]
    exact Int64.le_refl start⟩

theorem Consistent.run {start : Int64} {times : List Int64} (h : Consistent start times st)
    (c : StoreCall) : Consistent start (times ++ (c.heard? st).toList) (c.run.after st) := by
  have hend := endTime_call h.reached c
  rw [after_run h.reached]
  refine ⟨?_, ?_, regular_call h.reached h.regular c, ?_⟩
  · cases c with
    | update u => exact (h.reached.update u).1
    | query x => exact h.reached
  · cases c with
    | update u => exact (h.reached.update u).2.startTime.trans h.startTime
    | query x => exact h.startTime
  · rw [hend]
    cases c.heard? st with
    | some time => exact h.latest.extendTo time
    | none =>
        rw [Option.toList_none, List.append_nil]
        exact h.latest

theorem Consistent.perform {start : Int64} {times : List Int64} (h : Consistent start times st)
    (calls : List StoreCall) :
    Consistent start (times ++ st.heard calls) (st.perform calls) := by
  induction calls generalizing st times with
  | nil =>
      rw [heard, List.append_nil]
      exact h
  | cons c rest ih =>
      rw [heard, ← List.append_assoc]
      exact ih (h.run c)

/-- After any calls on a new store, of which some may have been refused, each history begins with a
value, is in the order of time and repeats no value. The end of the observed time is the latest of the
start, of the times it was moved to and of the times of the accepted writes, also of those that added
nothing. Creations and writes, which change the store step after step, do what they do at once, and
any call that is refused leaves the store as it was. -/
theorem calls_consistent (start : Int64) (calls : List StoreCall) :
    let st := (empty start).perform calls
    (∀ q < st.size, ∃ log, st.history q = .ok log ∧ Interval.Regular log) ∧
      st.startTime = start ∧ Latest st.endTime (start :: (empty start).heard calls) ∧
      (∀ base path, InPlace.create base path st = StoreM.ensure base path st) ∧
      (∀ q time value, InPlace.write q time value st = StoreM.write q time value st) ∧
      ∀ (c : StoreCall) e st', c.run st = .error e st' → st' = st := by
  intro st
  have h : Consistent start ((empty start).heard calls) st := (consistent_empty start).perform calls
  exact ⟨fun q hq => ⟨st.log q, history_of_lt hq, h.regular q⟩, h.startTime, h.latest,
    create_eq h.reached.tree, write_inPlace_eq h.reached.lockedName,
    fun c e st' => eq_of_run_error h.reached⟩

/-- Writes that repeat a value or bring none count for the time. A write out of order, a creation
below no attribute and a look for a path that is not there are refused. -/
theorem calls_consistent_sample :
    let calls : List StoreCall :=
      [.update (.create root ["a", "b"]), .update (.write 2 10 (.int 1)),
        .update (.write 2 20 (.int 1)), .update (.write 1 30 .null), .update (.write 2 5 (.int 2)),
        .update (.extendTo 25)]
    let st := (empty 0).perform calls
    (empty 0).heard calls = [10, 20, 30, 25] ∧ Latest st.endTime [0, 10, 20, 30, 25] ∧
      (∃ log, st.history 2 = .ok log ∧ Interval.Regular log) ∧
      (∃ path st', (StoreCall.update (.write 2 5 (.int 2))).run st =
        .error (.timeOrdering path 10 5) st' ∧ st' = st) ∧
      (∃ st', (StoreCall.update (.create 9 ["c", "d"])).run st = .error (.invalidQuark 9) st' ∧
        st' = st) ∧
      ∃ path st', (StoreCall.query (.resolve root ["a", "c"])).run st =
        .error (.attributeNotFound path) st' ∧ st' = st := by
  intro calls st
  have hheard : (empty 0).heard calls = [10, 20, 30, 25] := by decide
  have hsize : 2 < st.size := by decide
  obtain ⟨hregular, -, hlatest, -, -, hsame⟩ := calls_consistent 0 calls
  rw [hheard] at hlatest
  obtain ⟨path, st₁, hlate⟩ : ∃ path st', (StoreCall.update (.write 2 5 (.int 2))).run st =
      .error (.timeOrdering path 10 5) st' := ⟨_, _, rfl⟩
  obtain ⟨st₂, hcreate⟩ : ∃ st', (StoreCall.update (.create 9 ["c", "d"])).run st =
      .error (.invalidQuark 9) st' := ⟨_, rfl⟩
  obtain ⟨path', st₃, hresolve⟩ : ∃ path st', (StoreCall.query (.resolve root ["a", "c"])).run st =
      .error (.attributeNotFound path) st' := ⟨_, _, rfl⟩
  exact ⟨hheard, hlatest, hregular 2 hsize, ⟨path, st₁, hlate, hsame _ _ _ hlate⟩,
    ⟨st₂, hcreate, hsame _ _ _ hcreate⟩, path', st₃, hresolve, hsame _ _ _ hresolve⟩

end Store

end TraceAutomata
