import TraceAutomata.Proofs.Store.Ongoing

namespace TraceAutomata

namespace Interval

/-- The history ends with a time that holds since then, or there is none. -/
def Stamped (log : List Interval) (time : Option Int64) : Prop :=
  log.getLast? = time.map fun t => ⟨t, .long t⟩

variable {log : List Interval} {time : Option Int64} {now : Int64}

theorem stamped_nil : Stamped [] none := rfl

theorem Stamped.ongoing_eq (h : Stamped log time) : ongoing log = time.elim .null .long := by
  rw [ongoing, h]
  cases time <;> rfl

theorem Stamped.extend (h : Stamped log time) (hle : ∀ t ∈ time, t ≤ now) :
    ∃ log', extend? log now (.long now) = some log' ∧ Stamped log' (some now) := by
  have hadd : Stamped (log ++ [⟨now, .long now⟩]) (some now) := List.getLast?_concat
  cases time with
  | none =>
      rw [Stamped, Option.map_none] at h
      rw [extend?, h]
      exact ⟨_, rfl, hadd⟩
  | some t =>
      rw [extend?, h, Option.map_some]
      simp only
      rw [if_neg (Int64.not_lt.mpr (hle t rfl))]
      split
      · next hsame =>
        obtain rfl : t = now := by simpa using Value.solid_long now _ hsame
        exact ⟨log, rfl, h⟩
      · exact ⟨_, rfl, hadd⟩

end Interval

namespace View

variable {v : View} {groups : List (List Write)} {path : List String}

theorem record_append (v : View) (groups groups' : List (List Write)) :
    v.record (groups ++ groups') = (v.record groups).record groups' :=
  List.foldl_append

theorem intervalsAt_record_of_ne (h : ∀ writes ∈ groups, ∀ w ∈ writes, w.path ≠ path) :
    (v.record groups).intervalsAt path = v.intervalsAt path :=
  record_induction (P := fun log => log = v.intervalsAt path) v groups
    (fun writes hwrites w hw heq => (h writes hwrites w hw heq).elim) rfl

theorem write_of_not_isPrefix {w : Write} (h : ¬ path <+: w.path) : (v.write w).1 path = v path := by
  have hset : ∀ log, v.set w.path log path = v path := by
    intro log
    rw [set, if_neg fun heq : path = w.path => h (heq ▸ List.prefix_refl path), if_neg h]
  rw [write]
  split <;> exact hset _

theorem writeAll_of_not_isPrefix {writes : List Write} (h : ∀ w ∈ writes, ¬ path <+: w.path) :
    (v.writeAll writes).1 path = v path := by
  induction writes generalizing v with
  | nil => rfl
  | cons w rest ih =>
      obtain ⟨hfirst, hrest⟩ := List.forall_mem_cons.mp h
      have hsame := write_of_not_isPrefix (v := v) hfirst
      rw [writeAll]
      rcases hres : v.write w with ⟨v', _ | _⟩
      · rw [hres] at hsame
        exact hsame
      · rw [hres] at hsame
        exact (ih hrest).trans hsame

theorem record_of_not_isPrefix (h : ∀ writes ∈ groups, ∀ w ∈ writes, ¬ path <+: w.path) :
    v.record groups path = v path := by
  induction groups generalizing v with
  | nil => rfl
  | cons writes rest ih =>
      obtain ⟨hfirst, hrest⟩ := List.forall_mem_cons.mp h
      exact (ih hrest).trans (writeAll_of_not_isPrefix hfirst)

theorem stamped_record (before after : List (List Write)) {time : Option Int64} {now : Int64}
    (h : Interval.Stamped (v.intervalsAt path) time) (hle : ∀ t ∈ time, t ≤ now)
    (hbefore : ∀ writes ∈ before, ∀ w ∈ writes, w.path ≠ path)
    (hafter : ∀ writes ∈ after, ∀ w ∈ writes, w.path ≠ path) :
    Interval.Stamped ((v.record (before ++ [⟨path, now, .long now⟩] :: after)).intervalsAt path)
      (some now) := by
  rw [record_append]
  rw [← intervalsAt_record_of_ne hbefore] at h
  obtain ⟨log', hextend, hstamped⟩ := h.extend hle
  change Interval.Stamped
    ((((v.record before).writeAll [⟨path, now, .long now⟩]).1.record after).intervalsAt path)
    (some now)
  rw [intervalsAt_record_of_ne hafter, writeAll, write]
  simp only [hextend]
  rw [writeAll, intervalsAt_set, if_pos rfl]
  exact hstamped

end View

end TraceAutomata
