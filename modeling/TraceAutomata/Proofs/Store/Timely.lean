import TraceAutomata.Proofs.Store.Ongoing

namespace TraceAutomata

namespace Interval

theorem extend?_cases {log log' : List Interval} {time : Int64} {value : Value}
    (h : extend? log time value = some log') : log' = log ∨ log' = log ++ [⟨time, value⟩] := by
  rw [extend?] at h
  split at h
  · split at h
    · cases h
    · split at h
      · exact .inl (Option.some.inj h).symm
      · exact .inr (Option.some.inj h).symm
  · split at h
    · exact .inl (Option.some.inj h).symm
    · exact .inr (Option.some.inj h).symm

theorem Until.of_extend? {log log' : List Interval} {time bound : Int64} {value : Value}
    (h : Until log bound) (hextend : extend? log time value = some log') (htime : time ≤ bound) :
    Until log' bound := by
  rcases extend?_cases hextend with rfl | rfl
  · exact h
  · intro i hi
    rw [List.getLast?_concat, Option.some.injEq] at hi
    rw [← hi]
    exact htime

end Interval

namespace Store

/-- No history ends with an interval that begins after the latest time. -/
def Timely (st : Store) : Prop :=
  ∀ p, Interval.Until (st.intervalsAt p) st.endTime

variable {st st' : Store}

theorem Timely.congr (h : st.Timely) (intervalsAt : ∀ p, st'.intervalsAt p = st.intervalsAt p)
    (endTime_le : st.endTime ≤ st'.endTime) : st'.Timely := by
  intro p
  rw [intervalsAt]
  exact (h p).mono endTime_le

theorem Timely.extendTo (h : st.Timely) (time : Int64) : (st.extendTo time).Timely :=
  h.congr (fun p => by rw [Store.intervalsAt, historyAt?_extendTo, Store.intervalsAt])
    (endTime_le_extendTo st time)

theorem Timely.ready (h : st.Timely) (base : List String) :
    (st.below base).Ready [] st.endTime := by
  intro path _
  rw [intervalsAt_below]
  exact h (base ++ path)

end Store

namespace History

open Store

variable {st : Store} {base : List String} {subtree : Quark}

theorem write_timely (t : st.Tree) (hl : st.lockedName = none)
    (hq : st.find? root base = some subtree) (h : st.Timely) (time : Int64) (path : List String)
    (value : Value) : ((write subtree time path value).after st).Timely := by
  have hwrite := write_spec t hl hq time path value
  cases hlog : Interval.extend? (st.intervalsAt (base ++ path)) time value with
  | none =>
      rw [hlog] at hwrite
      obtain ⟨e, st', hres, hwrote, hend⟩ := hwrite
      rw [StoreM.after, hres]
      refine h.congr (fun p => ?_) (hend ▸ Int64.le_refl _)
      rw [hwrote.intervalsAt]
      split
      · next hp => rw [hp]
      · rfl
  | some log =>
      rw [hlog] at hwrite
      obtain ⟨st', hres, hwrote, hend⟩ := hwrite
      rw [StoreM.after, hres]
      intro p
      simp only [hwrote.intervalsAt, hend]
      split
      · exact ((h (base ++ path)).mono (endTime_le_extendTo st time)).of_extend? hlog
          (le_endTime_extendTo st time)
      · exact (h p).mono (endTime_le_extendTo st time)

theorem writeAll_timely (t : st.Tree) (hl : st.lockedName = none)
    (hq : st.find? root base = some subtree) (h : st.Timely) (writes : List Write) :
    ((writeAll subtree writes).after st).Timely := by
  induction writes generalizing st with
  | nil => exact h
  | cons w rest ih =>
      have htimely := write_timely t hl hq h w.time w.path w.value
      obtain ⟨hrec, -⟩ := writeAll_spec t hl hq [w]
      rw [← write_eq_writeAll] at hrec
      rw [StoreM.after] at htimely hrec ⊢
      rw [writeAll_cons]
      cases hres : write subtree w.time w.path w.value st with
      | error e st' =>
          rw [hres] at htimely
          exact htimely
      | ok result st' =>
          rw [hres] at htimely hrec
          exact ih hrec.tree (hrec.lockedName.trans hl) (hrec.find? _ _ hq) htimely

theorem recordAll_timely (t : st.Tree) (hl : st.lockedName = none)
    (hq : st.find? root base = some subtree) (h : st.Timely) (groups : List (List Write)) :
    (recordAll subtree groups st).Timely := by
  induction groups generalizing st with
  | nil => exact h
  | cons writes rest ih =>
      obtain ⟨hrec, -⟩ := writeAll_spec t hl hq writes
      exact ih hrec.tree (hrec.lockedName.trans hl) (hrec.find? _ _ hq)
        (writeAll_timely t hl hq h writes)

end History

end TraceAutomata
