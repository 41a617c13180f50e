import TraceAutomata.Proofs.Number
import TraceAutomata.Scenario.Basic
import TraceAutomata.Scenario.History

namespace TraceAutomata.Scenario

theorem toList_nameOf (fsm : String) (sequence : Nat) :
    (nameOf fsm sequence).toList = fsm.toList ++ '#' :: Nat.toDigits 10 sequence := by
  have htext : nameOf fsm sequence = fsm ++ "#" ++ Nat.repr sequence := rfl
  rw [htext, String.toList_append, String.toList_append, Nat.toList_repr]
  simp

theorem bne_mark_of_mem {n : Nat} : ∀ c ∈ (Nat.toDigits 10 n).reverse, (c != '#') = true := by
  intro c hc
  rw [bne_iff_ne]
  rintro rfl
  exact Number.not_mem_toDigits rfl n (List.mem_reverse.mp hc)

theorem digits_nameOf (fsm : String) (sequence : Nat) :
    ((nameOf fsm sequence).toList.reverse.takeWhile (· != '#')).reverse =
      Nat.toDigits 10 sequence := by
  rw [toList_nameOf, List.reverse_append, List.reverse_cons, List.append_assoc,
    List.takeWhile_append_of_pos bne_mark_of_mem]
  simp

/-- The fsm that a name tells, which is what comes before the last mark. -/
def fsmOf (name : String) : String :=
  String.ofList ((name.toList.reverse.dropWhile (· != '#')).drop 1).reverse

theorem fsmOf_nameOf (fsm : String) (sequence : Nat) : fsmOf (nameOf fsm sequence) = fsm := by
  rw [fsmOf, toList_nameOf, List.reverse_append, List.reverse_cons, List.append_assoc,
    List.dropWhile_append_of_pos bne_mark_of_mem]
  simp

theorem nameOf_injective {fsm fsm' : String} {sequence sequence' : Nat}
    (h : nameOf fsm sequence = nameOf fsm' sequence') : fsm = fsm' ∧ sequence = sequence' := by
  have hdigits : Nat.toDigits 10 sequence = Nat.toDigits 10 sequence' := by
    rw [← digits_nameOf fsm sequence, ← digits_nameOf fsm' sequence', h]
  constructor
  · rw [← fsmOf_nameOf fsm sequence, h, fsmOf_nameOf]
  · calc
      sequence = Nat.ofDigitChars 10 (Nat.toDigits 10 sequence) 0 :=
        Nat.ofDigitChars_ten_toDigits.symm
      _ = Nat.ofDigitChars 10 (Nat.toDigits 10 sequence') 0 := by rw [hdigits]
      _ = sequence' := Nat.ofDigitChars_ten_toDigits

theorem sequenceOf_nameOf (fsm : String) {sequence : Nat} (h : sequence < 2 ^ 64) :
    ScenarioRecord.sequenceOf (nameOf fsm sequence) = sequence := by
  have hmark : (nameOf fsm sequence).toList.contains '#' = true := by
    rw [toList_nameOf]
    simp
  have hplus := Number.not_mem_toDigits (c := '+') rfl sequence
  rw [ScenarioRecord.sequenceOf, hmark]
  simp only [digits_nameOf, if_true]
  rw [Number.countOfText?_of_digits hplus, Number.natural?_toDigits, Option.bind_some,
    Number.count?_of_lt h, Option.getD_some]

end TraceAutomata.Scenario
