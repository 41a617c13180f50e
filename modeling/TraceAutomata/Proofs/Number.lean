import Mathlib.Algebra.Group.Nat.Defs
import TraceAutomata.Number.Integer

namespace TraceAutomata.Number

theorem isDigit_of_mem_toDigits {n : Nat} {c : Char} (h : c ∈ Nat.toDigits 10 n) :
    c.isDigit = true :=
  Nat.isDigit_of_mem_toDigits (by decide) (by decide) h

theorem not_mem_toDigits {c : Char} (hc : c.isDigit = false) (n : Nat) :
    c ∉ Nat.toDigits 10 n := by
  intro h
  rw [isDigit_of_mem_toDigits h] at hc
  cases hc

theorem natural?_toDigits (n : Nat) : natural? (Nat.toDigits 10 n) = some n := by
  have hall : (Nat.toDigits 10 n).all Char.isDigit = true :=
    List.all_eq_true.mpr fun c hc => isDigit_of_mem_toDigits hc
  rw [natural?, hall, Nat.ofDigitChars_ten_toDigits]
  simp [Nat.toDigits_ne_nil]

theorem countOfText?_of_digits {text : List Char} (h : '+' ∉ text) :
    countOfText? text = (natural? text).bind fun n => count? n := by
  unfold countOfText?
  split
  · exact (h List.mem_cons_self).elim
  · rfl

theorem count?_of_lt {n : Nat} (h : n < 2 ^ 64) : count? (n : Int) = some n := by
  have htwo : twoPow 64 = 2 ^ 64 := by decide
  rw [← htwo] at h
  rw [count?, if_pos ⟨Int.natCast_nonneg _, Int.ofNat_lt.mpr h⟩, Int.toNat_natCast]

theorem exists_numeral (n : Int) :
    (∃ m : Nat, n = m ∧ (toString n).toList = Nat.toDigits 10 m) ∨
      ∃ m : Nat, n = -m ∧ (toString n).toList = '-' :: Nat.toDigits 10 m := by
  cases n with
  | ofNat m =>
      refine .inl ⟨m, rfl, ?_⟩
      have htext : toString (Int.ofNat m) = Nat.repr m := rfl
      rw [htext, Nat.toList_repr]
  | negSucc m =>
      refine .inr ⟨m + 1, rfl, ?_⟩
      have htext : toString (Int.negSucc m) = "-" ++ Nat.repr (m + 1) := rfl
      rw [htext, String.toList_append, Nat.toList_repr]
      rfl

theorem integer?_toString (n : Int) : integer? (toString n).toList = some n := by
  obtain ⟨m, rfl, htext⟩ | ⟨m, rfl, htext⟩ := exists_numeral n
  · rw [htext]
    unfold integer?
    split
    · next heq => exact (not_mem_toDigits rfl m (heq ▸ List.mem_cons_self)).elim
    · next heq => exact (not_mem_toDigits rfl m (heq ▸ List.mem_cons_self)).elim
    · rw [natural?_toDigits]
      rfl
  · rw [htext, integer?, natural?_toDigits]
    rfl

theorem int64OfText?_toString (n : Int64) : int64OfText? (toString n.toInt).toList = some n := by
  rw [int64OfText?, integer?_toString, Option.bind_some, int64?_toInt]

end TraceAutomata.Number
