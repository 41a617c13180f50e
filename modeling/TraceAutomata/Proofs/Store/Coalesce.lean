import TraceAutomata.Proofs.Store.Ancestry
import TraceAutomata.Proofs.Store.InForce
import TraceAutomata.Proofs.Value.Order

/-!
What can be observed of a write. A write that repeats the ongoing value adds nothing, any other one adds
an interval, and the ongoing value is afterwards the same as the one written. The store tells values
apart by their numerical equality, conditions by their order, and the two part ways on two kinds of
floating-point numbers: a zero does not replace the one of the other sign, and what is not a number
never counts as a repetition.
-/

namespace TraceAutomata

namespace Double

variable {x y : Double}

theorem isNaN_of_magnitude (h : x.magnitude = 0) : x.isNaN = false := by
  rw [isNaN, h]
  decide

theorem equals_iff :
    x.equals y = true ↔ (x = y ∧ x.isNaN = false) ∨ (x.magnitude = 0 ∧ y.magnitude = 0) := by
  simp only [equals, Bool.and_eq_true, Bool.or_eq_true, Bool.not_eq_true', beq_iff_eq]
  constructor
  · rintro ⟨⟨hx, -⟩, rfl | hzeros⟩
    · exact .inl ⟨rfl, hx⟩
    · exact .inr hzeros
  · rintro (⟨rfl, hx⟩ | ⟨hx, hy⟩)
    · exact ⟨⟨hx, hx⟩, .inl rfl⟩
    · exact ⟨⟨isNaN_of_magnitude hx, isNaN_of_magnitude hy⟩, .inr ⟨hx, hy⟩⟩

end Double

namespace Value

/-- A floating-point number that is not a number. -/
def IsNaN (a : Value) : Prop :=
  ∃ x, a = .double x ∧ x.isNaN = true

/-- The two zeros among the floating-point numbers. -/
def OppositeZeros (a b : Value) : Prop :=
  ∃ x y, a = .double x ∧ b = .double y ∧ x ≠ y ∧ x.magnitude = 0 ∧ y.magnitude = 0

variable {a b : Value}

theorem kind_and_sameAs_iff : (a.kind = b.kind ∧ a.sameAs b = true) ↔ a = b := by
  refine ⟨fun ⟨hkind, hsame⟩ => ?_, fun h => h ▸ ⟨rfl, sameAs_self a⟩⟩
  rcases sameAs_iff.mp hsame with ⟨rfl, rfl⟩ | heq
  · rfl
  · cases a <;> cases b <;> simp [kind] at hkind
    · cases heq
    all_goals have heq := Std.LawfulEqOrd.eq_of_compare (Option.some.inj heq)
    · rw [heq]
    · rw [Int32.toInt_inj.mp heq]
    · rw [Int64.toInt_inj.mp heq]
    · rw [Double.rank_injective heq]

theorem coincides_iff : a.coincides b = true ↔ (a = b ∧ ¬ b.IsNaN) ∨ a.OppositeZeros b := by
  rw [coincides.eq_def]
  split
  · next x y =>
    have hnan : (Value.double y).IsNaN ↔ y.isNaN = true := by simp [IsNaN]
    have hzeros : (Value.double x).OppositeZeros (.double y) ↔
        x ≠ y ∧ x.magnitude = 0 ∧ y.magnitude = 0 := by simp [OppositeZeros]
    rw [Double.equals_iff, hnan, hzeros, Value.double.injEq, Bool.not_eq_true]
    by_cases hxy : x = y
    · subst hxy
      have hzero : x.magnitude = 0 → x.isNaN = false := Double.isNaN_of_magnitude
      tauto
    · tauto
  · next hdouble =>
    rw [beq_iff_eq]
    refine ⟨fun heq => .inl ⟨heq, ?_⟩, ?_⟩
    · rintro ⟨y, rfl, -⟩
      exact hdouble y y heq rfl
    · rintro (⟨heq, -⟩ | ⟨x, y, rfl, rfl, -⟩)
      · exact heq
      · exact (hdouble x y rfl rfl).elim

theorem OppositeZeros.sameAs (h : a.OppositeZeros b) : a.sameAs b = false := by
  obtain ⟨x, y, rfl, rfl, hne, -⟩ := h
  rw [Bool.eq_false_iff]
  intro hsame
  exact hne (Value.double.inj (kind_and_sameAs_iff.mp ⟨rfl, hsame⟩))

theorem IsNaN.coincides (h : b.IsNaN) (a : Value) : a.coincides b = false := by
  rw [Bool.eq_false_iff, Ne, coincides_iff]
  rintro (⟨-, hnan⟩ | ⟨x, y, rfl, rfl, -, -, hy⟩)
  · exact hnan h
  · obtain ⟨z, heq, hz⟩ := h
    obtain rfl := Value.double.inj heq
    rw [Double.isNaN_of_magnitude hy] at hz
    cases hz

end Value

/-- What is seen of an attribute, before and after a write to it is accepted. -/
structure Observed (before after : Value) (log log' : List Interval) (w : Interval) : Prop where
  /-- What is read is the same as what was written. -/
  read : ¬ before.OppositeZeros w.value → after.sameAs w.value = true
  /-- An interval is added unless the value is the same and of the same kind as the one before. -/
  recorded : ¬ before.OppositeZeros w.value → ¬ (before = w.value ∧ w.value.IsNaN) →
    log' = if before.kind = w.value.kind ∧ before.sameAs w.value = true then log else log ++ [w]
  /-- A zero is lost where the other one is. -/
  zeros : before.OppositeZeros w.value →
    after = before ∧ after.sameAs w.value = false ∧ log' = log
  /-- What is not a number is recorded as often as it is written. -/
  notNumber : w.value.IsNaN → after = w.value ∧ log' = log ++ [w]

namespace Interval

theorem ongoing_concat (log : List Interval) (w : Interval) : ongoing (log ++ [w]) = w.value := by
  rw [ongoing, List.getLast?_concat]
  rfl

/-- What an accepted write makes of a history. -/
theorem observed_extend {log log' : List Interval} {w : Interval}
    (hext : extend? log w.start w.value = some log') :
    Observed (ongoing log) (ongoing log') log log' w := by
  rw [extend?_eq] at hext
  split at hext
  · cases hext
  split at hext
  · next hsame =>
    obtain rfl := Option.some.inj hext
    rcases Value.coincides_iff.mp hsame with ⟨heq, hnan⟩ | hzeros
    · exact ⟨fun _ => heq ▸ Value.sameAs_self _,
        fun _ _ => (if_pos (Value.kind_and_sameAs_iff.mpr heq)).symm,
        fun hzeros => ⟨rfl, hzeros.sameAs, rfl⟩, fun h => (hnan h).elim⟩
    · refine ⟨fun h => (h hzeros).elim, fun h => (h hzeros).elim,
        fun _ => ⟨rfl, hzeros.sameAs, rfl⟩, fun h => ?_⟩
      rw [h.coincides] at hsame
      cases hsame
  · next hdiffers =>
    obtain rfl := Option.some.inj hext
    rw [Value.coincides_iff, not_or] at hdiffers
    rw [ongoing_concat]
    refine ⟨fun _ => Value.sameAs_self _, fun _ hnan => (if_neg fun h => ?_).symm,
      fun h => (hdiffers.2 h).elim, fun _ => ⟨rfl, rfl⟩⟩
    have heq := Value.kind_and_sameAs_iff.mp h
    exact hdiffers.1 ⟨heq, fun h => hnan ⟨heq, h⟩⟩

end Interval

namespace Store

/-- Whenever a write is accepted, the ongoing value is then the same as the one written, and an interval
is added unless the value before was the same and of the same kind. Of floating-point numbers this is
so but for a zero that meets the zero of the other sign, which it does not replace, and for one that is
not a number and meets itself, which is recorded again. -/
theorem write_observed {st st' : Store} (h : st.Built) {q : Quark} {time : Int64} {value : Value}
    (hwrite : st.write q time value = .ok st') :
    ∃ before after log log', st.ongoing q = .ok before ∧ st'.ongoing q = .ok after ∧
      st.history q = .ok log ∧ st'.history q = .ok log' ∧
      Observed before after log log' ⟨time, value⟩ := by
  have hreached := h.reached
  have hq : q < st.nodes.size := by
    by_contra hq
    rw [write_of_not_lt hq] at hwrite
    cases hwrite
  have hupdate : st.update (.write q time value) = st' := by rw [update, hwrite]
  have hext := (hreached.update (.write q time value)).2
  have hq' : q < st'.nodes.size := by
    rw [hupdate] at hext
    exact hext.tree.find?_lt (hext.find? _ _ (hreached.tree.find?_segments hq))
  have hlog := log_update hreached (.write q time value) q
  have haccepted : (Update.write q time value).accepted? st q = some ⟨time, value⟩ := by
    simp [Update.accepted?, hwrite, Except.toOption]
  rw [haccepted, hupdate] at hlog
  exact ⟨_, _, _, _, ongoing_of_lt hq, ongoing_of_lt hq', history_of_lt hq, history_of_lt hq',
    Interval.observed_extend hlog⟩

/-- An integer is recorded again as one of another width. -/
theorem write_observed_sample :
    let st := (empty 0).updateAll [.create root ["a"], .write 1 10 (.int 5)]
    ∃ st' after log', st.Built ∧ st.write 1 20 (.long 5) = .ok st' ∧ st'.ongoing 1 = .ok after ∧
      after.sameAs (.long 5) = true ∧ st'.history 1 = .ok log' ∧
      log' = [⟨10, .int 5⟩, ⟨20, .long 5⟩] := by
  intro st
  have hbuilt : st.Built := (Built.empty 0).updateAll _
  obtain ⟨st', hwrite⟩ : ∃ st', st.write 1 20 (.long 5) = .ok st' := ⟨_, rfl⟩
  obtain ⟨before, after, log, log', hbefore, hafter, hlog, hlog', hseen⟩ :=
    write_observed hbuilt hwrite
  obtain rfl : (.int 5 : Value) = before := Except.ok.inj hbefore
  obtain rfl : [⟨10, .int 5⟩] = log := Except.ok.inj hlog
  have hzeros : ¬ (Value.int 5).OppositeZeros (.long 5) := by
    rintro ⟨x, y, hx, -⟩
    cases hx
  have hnan : ¬ ((Value.int 5) = .long 5 ∧ (Value.long 5).IsNaN) := fun h => by cases h.1
  have hkind : ¬ ((Value.int 5).kind = (Value.long 5).kind ∧
      (Value.int 5).sameAs (.long 5) = true) := by decide
  refine ⟨st', after, log', hbuilt, hwrite, hafter, hseen.read hzeros, hlog', ?_⟩
  rw [hseen.recorded hzeros hnan, if_neg hkind]
  rfl

/-- A write of `-0` where `0` is ongoing is accepted and lost, and not a number is recorded twice. -/
theorem write_unobserved :
    let zero : Value := .double ⟨0⟩
    let negativeZero : Value := .double ⟨0x8000000000000000⟩
    let notNumber : Value := .double ⟨0x7FF8000000000000⟩
    let st := (empty 0).updateAll [.create root ["a"], .create root ["b"], .write 1 10 zero,
      .write 2 10 notNumber]
    ((st.write 1 20 negativeZero >>= fun st' => st'.ongoing 1) = .ok zero ∧
      zero.sameAs negativeZero = false ∧
      (st.write 1 20 negativeZero >>= fun st' => st'.history 1) = .ok [⟨10, zero⟩]) ∧
    (st.ongoing 2 = .ok notNumber ∧ notNumber.sameAs notNumber = true ∧
      (st.write 2 20 notNumber >>= fun st' => st'.history 2) =
        .ok [⟨10, notNumber⟩, ⟨20, notNumber⟩]) := by
  decide +kernel

end Store

end TraceAutomata
