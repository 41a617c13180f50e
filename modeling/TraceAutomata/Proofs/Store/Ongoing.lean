import TraceAutomata.Proofs.Store.View

namespace TraceAutomata

namespace Value

/-- No other value is taken for this one. -/
def Solid (value : Value) : Prop :=
  ∀ other : Value, other.coincides value = true → other = value

theorem solid_string (text : String) : Solid (.string text) := by
  intro other
  cases other <;> simp [coincides]

theorem solid_long (n : Int64) : Solid (.long n) := by
  intro other
  cases other <;> simp [coincides]

end Value

namespace Interval

def ongoing (log : List Interval) : Value :=
  (log.getLast?.map Interval.value).getD .null

/-- No interval begins after a time, as far as the last one tells. -/
def Until (log : List Interval) (time : Int64) : Prop :=
  ∀ i, log.getLast? = some i → i.start ≤ time

theorem Until.mono {log : List Interval} {time time' : Int64} (h : Until log time)
    (hle : time ≤ time') : Until log time' :=
  fun i hi => Int64.le_trans (h i hi) hle

theorem Until.extend {log : List Interval} {time : Int64} (h : Until log time) (value : Value) :
    ∃ log', extend? log time value = some log' ∧ Until log' time := by
  have hadd : Until (log ++ [⟨time, value⟩]) time := by
    intro i hi
    rw [List.getLast?_concat, Option.some.injEq] at hi
    rw [← hi]
    exact Int64.le_refl time
  rw [extend?]
  cases hlast : log.getLast? with
  | none =>
      simp only
      split
      · exact ⟨log, rfl, h⟩
      · exact ⟨_, rfl, hadd⟩
  | some last =>
      simp only
      rw [if_neg (Int64.not_lt.mpr (h last hlast))]
      split
      · exact ⟨log, rfl, h⟩
      · exact ⟨_, rfl, hadd⟩

theorem ongoing_extend {log log' : List Interval} {time : Int64} {value : Value}
    (hsolid : value.Solid) (h : extend? log time value = some log') : ongoing log' = value := by
  rw [extend?] at h
  cases hlast : log.getLast? with
  | none =>
      simp only [hlast] at h
      split at h
      · next hnull =>
        obtain rfl := Option.some.inj h
        cases value with
        | null => rw [ongoing, hlast]; rfl
        | _ => cases hnull
      · obtain rfl := Option.some.inj h
        simp [ongoing]
  | some last =>
      simp only [hlast] at h
      split at h
      · cases h
      · split at h
        · next hsame =>
          obtain rfl := Option.some.inj h
          rw [ongoing, hlast]
          exact hsolid _ hsame
        · obtain rfl := Option.some.inj h
          simp [ongoing]

end Interval

namespace View

def ongoing (v : View) (path : List String) : Value :=
  Interval.ongoing (v.intervalsAt path)

/-- The value that holds at a path after writes, of which the last one there counts. -/
def latest (path : List String) (value : Value) (writes : List Write) : Value :=
  writes.foldl (fun value w => if w.path = path then w.value else value) value

@[simp] theorem latest_nil (path : List String) (value : Value) : latest path value [] = value := rfl

theorem latest_cons (path : List String) (value : Value) (w : Write) (rest : List Write) :
    latest path value (w :: rest) = latest path (if w.path = path then w.value else value) rest :=
  rfl

theorem latest_append (path : List String) (value : Value) (writes rest : List Write) :
    latest path value (writes ++ rest) = latest path (latest path value writes) rest :=
  List.foldl_append

/-- Writes at a time are accepted, except at some fixed paths. -/
def Ready (v : View) (fixed : List (List String)) (time : Int64) : Prop :=
  ∀ path, path ∉ fixed → Interval.Until (v.intervalsAt path) time

section Ready

variable {v : View} {fixed : List (List String)} {time : Int64}

theorem Ready.mono (h : v.Ready fixed time) {time' : Int64} (hle : time ≤ time') :
    v.Ready fixed time' :=
  fun path hpath => (h path hpath).mono hle

theorem Ready.write (h : v.Ready fixed time) {w : Write} (htime : w.time = time)
    (hpath : w.path ∉ fixed) : (v.write w).2 = true ∧ (v.write w).1.Ready fixed time := by
  obtain ⟨log, hlog, huntil⟩ := (h w.path hpath).extend w.value
  rw [View.write, htime, hlog]
  refine ⟨rfl, fun path hp => ?_⟩
  rw [intervalsAt_set]
  split
  · exact huntil
  · exact h path hp

theorem Ready.writeAll (h : v.Ready fixed time) {writes : List Write}
    (hw : ∀ w ∈ writes, w.time = time ∧ w.path ∉ fixed) :
    (v.writeAll writes).2 = true ∧ (v.writeAll writes).1.Ready fixed time := by
  induction writes generalizing v with
  | nil => exact ⟨rfl, h⟩
  | cons w rest ih =>
      obtain ⟨⟨htime, hpath⟩, hrest⟩ := List.forall_mem_cons.mp hw
      obtain ⟨haccept, hready⟩ := h.write htime hpath
      rw [View.writeAll]
      rcases hres : v.write w with ⟨v', _ | _⟩
      · rw [hres] at haccept
        cases haccept
      · rw [hres] at hready
        exact ih hready hrest

theorem Ready.record (h : v.Ready fixed time) {groups : List (List Write)}
    (hw : ∀ writes ∈ groups, ∀ w ∈ writes, w.time = time ∧ w.path ∉ fixed) :
    v.accepts groups = true ∧ (v.record groups).Ready fixed time := by
  induction groups generalizing v with
  | nil => exact ⟨rfl, h⟩
  | cons writes rest ih =>
      obtain ⟨hfirst, hrest⟩ := List.forall_mem_cons.mp hw
      obtain ⟨haccept, hready⟩ := h.writeAll hfirst
      obtain ⟨haccepts, hlast⟩ := ih hready hrest
      refine ⟨?_, hlast⟩
      rw [accepts, haccept, haccepts]
      rfl

end Ready

section Ongoing

variable (v : View) {path : List String}

theorem ongoing_write {w : Write} (haccept : (v.write w).2 = true)
    (hsolid : w.path = path → w.value.Solid) :
    (v.write w).1.ongoing path = if w.path = path then w.value else v.ongoing path := by
  rw [View.write] at haccept ⊢
  cases hlog : Interval.extend? (v.intervalsAt w.path) w.time w.value with
  | none =>
      rw [hlog] at haccept
      cases haccept
  | some log =>
      simp only
      rw [ongoing, intervalsAt_set]
      by_cases hpath : w.path = path
      · rw [if_pos hpath.symm, if_pos hpath]
        exact Interval.ongoing_extend (hsolid hpath) hlog
      · rw [if_neg (Ne.symm hpath), if_neg hpath]
        rfl

theorem ongoing_writeAll {writes : List Write} (haccept : (v.writeAll writes).2 = true)
    (hsolid : ∀ w ∈ writes, w.path = path → w.value.Solid) :
    (v.writeAll writes).1.ongoing path = latest path (v.ongoing path) writes := by
  induction writes generalizing v with
  | nil => rfl
  | cons w rest ih =>
      obtain ⟨hfirst, hrest⟩ := List.forall_mem_cons.mp hsolid
      rw [View.writeAll] at haccept ⊢
      have hongoing : (v.write w).2 = true → (w.path = path → w.value.Solid) →
          (v.write w).1.ongoing path = if w.path = path then w.value else v.ongoing path :=
        v.ongoing_write
      rcases hres : v.write w with ⟨v', _ | _⟩
      · rw [hres] at haccept
        cases haccept
      · rw [hres] at haccept hongoing
        rw [latest_cons, ← hongoing rfl hfirst]
        exact ih v' haccept hrest

theorem ongoing_record {groups : List (List Write)} (haccept : v.accepts groups = true)
    (hsolid : ∀ writes ∈ groups, ∀ w ∈ writes, w.path = path → w.value.Solid) :
    (v.record groups).ongoing path = latest path (v.ongoing path) groups.flatten := by
  induction groups generalizing v with
  | nil => rfl
  | cons writes rest ih =>
      obtain ⟨hfirst, hrest⟩ := List.forall_mem_cons.mp hsolid
      rw [accepts, Bool.and_eq_true] at haccept
      have hlater := ih (v.writeAll writes).1 haccept.2 hrest
      rw [v.ongoing_writeAll haccept.1 hfirst] at hlater
      rw [List.flatten_cons, latest_append]
      exact hlater

end Ongoing

end View

end TraceAutomata
