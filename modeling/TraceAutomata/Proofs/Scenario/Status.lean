import TraceAutomata.Proofs.Store.View
import TraceAutomata.Scenario.Basic

namespace TraceAutomata

namespace ScenarioStatus

/-- Whether one status is another one or comes before it. -/
def Reaches (s s' : ScenarioStatus) : Prop :=
  s = s' ∨ s.rank < s'.rank

theorem Reaches.refl (s : ScenarioStatus) : Reaches s s := .inl rfl

theorem Reaches.trans {s s' s'' : ScenarioStatus} (h : Reaches s s') (h' : Reaches s' s'') :
    Reaches s s'' := by
  rcases h with rfl | hlt
  · exact h'
  · rcases h' with rfl | hlt'
    · exact .inr hlt
    · exact .inr (Nat.lt_trans hlt hlt')

theorem Reaches.eq_of_isTerminal {s s' : ScenarioStatus} (h : Reaches s s')
    (hs : s.isTerminal = true) : s' = s := by
  rcases h with rfl | hlt
  · rfl
  · revert hs hlt
    cases s <;> cases s' <;> decide

/-- Histories that hold the texts of statuses, each later than the one before. -/
def Forward (log : List Interval) (statuses : List ScenarioStatus) : Prop :=
  log.map Interval.value = statuses.map (fun s => .string s.text) ∧
    statuses.Pairwise fun s s' => s.rank < s'.rank

theorem Forward.nil : Forward [] [] := ⟨rfl, .nil⟩

theorem Forward.append {log : List Interval} {statuses : List ScenarioStatus}
    (h : Forward log statuses) {s : ScenarioStatus} (hlt : ∀ s' ∈ statuses, s'.rank < s.rank)
    (time : Int64) : Forward (log ++ [⟨time, .string s.text⟩]) (statuses ++ [s]) := by
  obtain ⟨hvalues, hranks⟩ := h
  refine ⟨by simp [hvalues], ?_⟩
  rw [List.pairwise_append]
  refine ⟨hranks, List.pairwise_singleton _ _, ?_⟩
  intro s' hs' x hx
  rw [List.mem_singleton.mp hx]
  exact hlt s' hs'

theorem Forward.exists_last {log : List Interval} {statuses : List ScenarioStatus}
    (h : Forward log statuses) {i : Interval} (hi : log.getLast? = some i) :
    ∃ last, statuses.getLast? = some last ∧ i.value = .string last.text := by
  have hlast := congrArg List.getLast? h.1
  rw [List.getLast?_map, List.getLast?_map, hi, Option.map_some] at hlast
  obtain ⟨last, hlast, heq⟩ := Option.map_eq_some_iff.mp hlast.symm
  exact ⟨last, hlast, heq.symm⟩

theorem Forward.extend {log log' : List Interval} {statuses : List ScenarioStatus}
    (h : Forward log statuses) {s : ScenarioStatus} (hreach : ∀ s' ∈ statuses, s'.Reaches s)
    {time : Int64} (hlog : Interval.extend? log time (.string s.text) = some log') :
    ∃ statuses', Forward log' statuses' ∧ ∀ s' ∈ statuses', s'.Reaches s := by
  have hadd : (∀ s' ∈ statuses, s'.rank < s.rank) → log' = log ++ [⟨time, .string s.text⟩] →
      ∃ statuses', Forward log' statuses' ∧ ∀ s' ∈ statuses', s'.Reaches s := by
    rintro hlt rfl
    refine ⟨statuses ++ [s], h.append hlt time, ?_⟩
    intro s' hs'
    rcases List.mem_append.mp hs' with hs' | hs'
    · exact hreach s' hs'
    · rw [List.mem_singleton.mp hs']
      exact .refl s
  rw [Interval.extend?] at hlog
  cases hi : log.getLast? with
  | none =>
      rw [hi] at hlog
      have hnil : log = [] := List.getLast?_eq_none_iff.mp hi
      have hempty : statuses = [] := by
        have hvalues := h.1
        rw [hnil] at hvalues
        exact List.map_eq_nil_iff.mp hvalues.symm
      apply hadd
      · simp [hempty]
      · exact (Option.some.inj hlog).symm
  | some i =>
      obtain ⟨last, hlast, hvalue⟩ := h.exists_last hi
      rw [hi] at hlog
      simp only [hvalue] at hlog
      split at hlog
      · cases hlog
      · split at hlog
        · rw [← Option.some.inj hlog]
          exact ⟨statuses, h, hreach⟩
        · next hne =>
          obtain ⟨init, rfl⟩ := List.getLast?_eq_some_iff.mp hlast
          have hlt : last.rank < s.rank := by
            rcases hreach last (by simp) with rfl | hlt
            · simp [Value.coincides] at hne
            · exact hlt
          apply hadd
          · -- All entries before the last one come before it, and it comes before the new one.
            intro s' hs'
            rcases List.mem_append.mp hs' with hs' | hs'
            · have hbefore := (List.pairwise_append.mp h.2).2.2 s' hs' last (by simp)
              exact Nat.lt_trans hbefore hlt
            · rw [List.mem_singleton.mp hs']
              exact hlt
          · exact (Option.some.inj hlog).symm

theorem length_add_le {statuses : List ScenarioStatus} {n : Nat} (hn : n ≤ 3)
    (h : statuses.Pairwise fun s s' => s.rank < s'.rank) (hlow : ∀ s ∈ statuses, n ≤ s.rank) :
    statuses.length + n ≤ 3 := by
  induction statuses generalizing n with
  | nil => simpa using hn
  | cons s rest ih =>
      obtain ⟨hs, hrest⟩ := List.pairwise_cons.mp h
      have hrank : s.rank ≤ 2 := by cases s <;> decide
      have hfirst := hlow s List.mem_cons_self
      have hlast := ih (Nat.succ_le_succ hrank) hrest hs
      rw [List.length_cons]
      omega

theorem countP_isTerminal_le {statuses : List ScenarioStatus}
    (h : statuses.Pairwise fun s s' => s.rank < s'.rank) : statuses.countP isTerminal ≤ 1 := by
  have hfilter : ∀ s ∈ statuses.filter isTerminal, 2 ≤ s.rank := by
    intro s hs
    have hterminal := (List.mem_filter.mp hs).2
    revert hterminal
    cases s <;> decide
  have hlength := length_add_le (by omega) (h.sublist List.filter_sublist) hfilter
  rw [List.countP_eq_length_filter]
  omega

end ScenarioStatus

end TraceAutomata
