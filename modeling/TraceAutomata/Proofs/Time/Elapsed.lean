import TraceAutomata.Condition.Eval
import TraceAutomata.Proofs.Store.Update
import TraceAutomata.Proofs.Time.Exact

namespace TraceAutomata

open Number

namespace ElapsedOp

def compares : ElapsedOp → ℤ → ℤ → Bool
  | .less, passed, limit => passed < limit
  | .equal, passed, limit => passed == limit
  | .more, passed, limit => limit < passed

theorem holds_eq_compares (op : ElapsedOp) (passed limit : Int64) :
    op.holds passed limit = op.compares passed.toInt limit.toInt := by
  rw [Bool.eq_iff_iff]
  cases op with
  | less => simp [holds, compares, Int64.lt_iff_toInt_lt]
  | equal => simp [holds, compares, Int64.toInt_inj]
  | more => simp [holds, compares, Int64.lt_iff_toInt_lt]

end ElapsedOp

namespace Elapsed

def wrapped (passed : ℤ) : ℤ :=
  if passed < 2 ^ 63 then passed else passed - 2 ^ 64

theorem toInt_sub_of_le {time reference : Int64} (h : reference ≤ time) :
    (time - reference).toInt = wrapped (time.toInt - reference.toInt) := by
  have hle := Int64.le_iff_toInt_le.mp h
  have htime := toInt_bounds time
  have hreference := toInt_bounds reference
  rw [Int64.toInt_sub, wrapped]
  split
  · next hfits => exact Int.bmod_eq_of_le (by omega) (by omega)
  · next hlarge =>
    have hshift : time.toInt - reference.toInt =
        time.toInt - reference.toInt - 2 ^ 64 + (2 ^ 64 : ℕ) := by omega
    rw [hshift, Int.add_bmod_right, Int.bmod_eq_of_le (by omega) (by omega)]
    omega

theorem toInt_limit (e : Elapsed) :
    e.limit.toInt = clamp64 (e.amount.toInt * e.unit.nanosPerUnit) :=
  toInt_ofIntClamp _

variable {ctx : GuardContext} {e : Elapsed} {value : Value} {reference : Int64}

theorem reference_of_int64?
    (hrecorded : ctx.query (Layout.scenarioPath ctx.scenario ++ Layout.statePath e.since) =
      .ok value) (hvalue : value.int64? = some reference) : e.reference ctx = .ok reference := by
  rw [Elapsed.reference, hrecorded]
  cases value with
  | null => cases hvalue
  | _ => simp [bind, Except.bind, pure, Except.pure, hvalue]

theorem evaluate_of_le (href : e.reference ctx = .ok reference) (hle : reference ≤ ctx.event.nanos) :
    e.evaluate ctx = .ok (e.op.compares (wrapped (ctx.event.nanos.toInt - reference.toInt))
      (clamp64 (e.amount.toInt * e.unit.nanosPerUnit))) := by
  rw [← toInt_limit, ← toInt_sub_of_le hle, ← ElapsedOp.holds_eq_compares, Elapsed.evaluate, href]
  change (if ctx.event.nanos < reference then _ else _) = _
  rw [if_neg (Int64.not_lt.mpr hle)]
  rfl

/-- The time from an entry to an event that is not earlier is compared, whatever the signs of the two,
with a duration brought into the range of 64 bits. It is compared exactly if it is below `2 ^ 63`
nanoseconds; otherwise what is compared is less by `2 ^ 64`, and thus below zero. -/
theorem elapsed_compares
    (hrecorded : ctx.query (Layout.scenarioPath ctx.scenario ++ Layout.statePath e.since) =
      .ok value) (hvalue : value.int64? = some reference) (hle : reference ≤ ctx.event.nanos) :
    let passed := ctx.event.nanos.toInt - reference.toInt
    let limit := clamp64 (e.amount.toInt * e.unit.nanosPerUnit)
    (passed < 2 ^ 63 →
      (Condition.elapsed e).evaluate ctx = .ok (e.op.compares passed limit)) ∧
    (2 ^ 63 ≤ passed →
      (Condition.elapsed e).evaluate ctx = .ok (e.op.compares (passed - 2 ^ 64) limit) ∧
        passed - 2 ^ 64 < 0) := by
  intro passed limit
  have hevaluate : (Condition.elapsed e).evaluate ctx =
      .ok (e.op.compares (wrapped passed) limit) := by
    rw [Condition.evaluate]
    exact evaluate_of_le (reference_of_int64? hrecorded hvalue) hle
  refine ⟨fun hfits => ?_, fun hlarge => ⟨?_, ?_⟩⟩
  · rw [hevaluate, wrapped, if_pos hfits]
  · rw [hevaluate, wrapped, if_neg (not_lt.mpr hlarge)]
  · have htime := toInt_bounds ctx.event.nanos
    have hreference := toInt_bounds reference
    omega

/-- A scenario that entered a state at a time, and an event at a later one. -/
def sampleContext (reference time : Int64) : GuardContext where
  store := (Store.empty 0).updateAll
    [.create Store.root ["p", "scenarios", "f#1", "states", "S1", "start_time"],
      .write 6 reference (.long reference)]
  root := 1
  scenario := "f#1"
  event := ⟨.ofNanos time, "e", ∅, none⟩

/-- Three seconds across zero are more than two, and ten thousand million seconds are not. -/
theorem elapsed_compares_sample :
    let e : Elapsed := ⟨"S1", .more, 2, .second⟩
    let path := Layout.scenarioPath "f#1" ++ Layout.statePath "S1"
    let near := sampleContext (-1000000000) 2000000000
    let far := sampleContext (-5000000000000000000) 5000000000000000000
    near.query path = .ok (.long (-1000000000)) ∧ (-1000000000 : Int64) ≤ near.event.nanos ∧
      (Condition.elapsed e).evaluate near = .ok true ∧
      far.query path = .ok (.long (-5000000000000000000)) ∧
      (-5000000000000000000 : Int64) ≤ far.event.nanos ∧
      (Condition.elapsed e).evaluate far = .ok false := by
  intro e path near far
  have hnear : near.query path = .ok (.long (-1000000000)) := by decide +kernel
  have hfar : far.query path = .ok (.long (-5000000000000000000)) := by decide +kernel
  have hle : (-1000000000 : Int64) ≤ near.event.nanos := by decide
  have hle' : (-5000000000000000000 : Int64) ≤ far.event.nanos := by decide
  obtain ⟨hexact, -⟩ := elapsed_compares (e := e) hnear rfl hle
  obtain ⟨-, hless⟩ := elapsed_compares (e := e) hfar rfl hle'
  refine ⟨hnear, hle, ?_, hfar, hle', ?_⟩
  · exact (hexact (by decide)).trans (congrArg Except.ok (by decide +kernel))
  · exact (hless (by decide)).1.trans (congrArg Except.ok (by decide +kernel))

/-- Ten thousand million seconds after an entry, no time at all has passed for a condition. -/
theorem elapsed_far_apart :
    let e : Elapsed := ⟨"S1", .more, 0, .nano⟩
    let ctx := sampleContext (-5000000000000000000) 5000000000000000000
    e.reference ctx = .ok (-5000000000000000000) ∧
      e.op.compares (ctx.event.nanos.toInt - (-5000000000000000000)) e.limit.toInt = true ∧
      (Condition.elapsed e).evaluate ctx = .ok false := by
  decide +kernel

end Elapsed

end TraceAutomata
