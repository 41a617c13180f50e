import Mathlib.Algebra.Order.Ring.Nat
import TraceAutomata.Number.Double

namespace TraceAutomata.Double

open Number

theorem twoPow_eq (k : Nat) : twoPow k = 2 ^ k := rfl

variable {m n d a : Nat}

theorem le_roundDiv (hd : 0 < d) (h : a * d ≤ n) : a ≤ roundDiv n d := by
  have hq : a ≤ n / d := (Nat.le_div_iff_mul_le hd).mpr h
  rw [roundDiv]
  grind

theorem roundDiv_le (hd : 0 < d) (h : n ≤ a * d) : roundDiv n d ≤ a := by
  have hmod := Nat.div_add_mod n d
  by_cases hlt : n / d < a
  · rw [roundDiv]
    grind
  · have hq : n / d ≤ a := Nat.div_le_of_le_mul (by rwa [Nat.mul_comm])
    have heq : n / d = a := by omega
    have hrem : n % d = 0 := by
      rw [heq, Nat.mul_comm] at hmod
      omega
    rw [roundDiv, heq, hrem]
    grind

theorem roundDiv_one (n : Nat) : roundDiv n 1 = n := by
  rw [roundDiv, Nat.div_one, Nat.mod_one]
  rfl

theorem roundDiv_mono (hd : 0 < d) (h : m ≤ n) : roundDiv m d ≤ roundDiv n d := by
  rcases Nat.lt_or_ge (m / d) (n / d) with hlt | hge
  · -- Between the two quotients lies a whole number.
    have hm : m ≤ (m / d + 1) * d := by
      have := Nat.lt_mul_div_succ m hd
      rw [Nat.mul_comm]
      omega
    have hn : (m / d + 1) * d ≤ n := (Nat.le_div_iff_mul_le hd).mp hlt
    exact (roundDiv_le hd hm).trans (le_roundDiv hd hn)
  · have heq : m / d = n / d := Nat.le_antisymm (Nat.div_le_div_right h) hge
    have hmod := Nat.div_add_mod m d
    have hmod' := Nat.div_add_mod n d
    rw [heq] at hmod
    rw [roundDiv, roundDiv, heq]
    grind

/-- The significant bits of a positive whole number, rounded to fifty-three. -/
def mantissa (n : Nat) : Nat :=
  if 52 ≤ n.log2 then roundDiv n (2 ^ (n.log2 - 52)) else n * 2 ^ (52 - n.log2)

theorem binaryExponent_one (hn : n ≠ 0) : binaryExponent n 1 = n.log2 := by
  have hle := Nat.log2_self_le hn
  have hone : (1 : Nat).log2 = 0 := by decide
  have hnot : ¬ n < 2 ^ n.log2 := by omega
  simp only [binaryExponent, hone, scaleDown]
  simp [twoPow_eq, hnot]

theorem magnitudeOfRatio_one (hn : n ≠ 0) :
    magnitudeOfRatio n 1 = min infinityMagnitude ((n.log2 + 1022) * 2 ^ 52 + mantissa n) := by
  have hexponent : max (-1074) ((n.log2 : Int) - 52) = (n.log2 : Int) - 52 := by omega
  have hcount : ((n.log2 : Int) - 52 + 1074).toNat = n.log2 + 1022 := by omega
  simp only [magnitudeOfRatio, if_neg hn, binaryExponent_one hn, hexponent, hcount, scaleDown,
    mantissa, twoPow_eq]
  by_cases hlarge : 52 ≤ n.log2
  · have hnonneg : 0 ≤ (n.log2 : Int) - 52 := by omega
    have hscale : ((n.log2 : Int) - 52).toNat = n.log2 - 52 := by omega
    rw [if_pos hnonneg, if_pos hlarge]
    simp only [hscale, Nat.one_mul]
  · have hneg : ¬ 0 ≤ (n.log2 : Int) - 52 := by omega
    have hscale : (-((n.log2 : Int) - 52)).toNat = 52 - n.log2 := by omega
    rw [if_neg hneg, if_neg hlarge]
    simp only [hscale, roundDiv_one]

theorem log2_mono (hm : m ≠ 0) (h : m ≤ n) : m.log2 ≤ n.log2 :=
  (Nat.le_log2 (by omega)).mpr ((Nat.log2_self_le hm).trans h)

theorem two_pow_le_mantissa (hn : n ≠ 0) : 2 ^ 52 ≤ mantissa n := by
  have hlow := Nat.log2_self_le hn
  rw [mantissa]
  split
  · next hlarge =>
    refine le_roundDiv (Nat.two_pow_pos _) ?_
    rwa [← Nat.pow_add, Nat.add_sub_cancel' hlarge]
  · next hsmall =>
    calc 2 ^ 52 = 2 ^ n.log2 * 2 ^ (52 - n.log2) := by
          rw [← Nat.pow_add, Nat.add_sub_cancel' (by omega)]
      _ ≤ n * 2 ^ (52 - n.log2) := Nat.mul_le_mul_right _ hlow

theorem mantissa_le_two_pow (n : Nat) : mantissa n ≤ 2 ^ 53 := by
  have hhigh := (Nat.lt_log2_self (n := n)).le
  rw [mantissa]
  split
  · next hlarge =>
    refine roundDiv_le (Nat.two_pow_pos _) (hhigh.trans_eq ?_)
    rw [← Nat.pow_add]
    congr 1
    omega
  · next hsmall =>
    calc n * 2 ^ (52 - n.log2) ≤ 2 ^ (n.log2 + 1) * 2 ^ (52 - n.log2) :=
          Nat.mul_le_mul_right _ hhigh
      _ = 2 ^ 53 := by
          rw [← Nat.pow_add]
          congr 1
          omega

theorem mantissa_mono (hlog : m.log2 = n.log2) (h : m ≤ n) : mantissa m ≤ mantissa n := by
  rw [mantissa, mantissa, hlog]
  split
  · exact roundDiv_mono (Nat.two_pow_pos _) h
  · exact Nat.mul_le_mul_right _ h

/-- Rounding keeps the order of whole numbers: within one power of two by that of the mantissas, and
else because the mantissas fill the space between two powers. -/
theorem magnitudeOfRatio_mono (h : m ≤ n) : magnitudeOfRatio m 1 ≤ magnitudeOfRatio n 1 := by
  by_cases hm : m = 0
  · rw [hm, magnitudeOfRatio, if_pos rfl]
    exact Nat.zero_le _
  have hn : n ≠ 0 := by omega
  have hhigh := mantissa_le_two_pow m
  have hlow := two_pow_le_mantissa hn
  rw [magnitudeOfRatio_one hm, magnitudeOfRatio_one hn]
  rcases Nat.lt_or_eq_of_le (log2_mono hm h) with hlt | heq
  · omega
  · have := mantissa_mono heq h
    omega

theorem log2_le_of_lt (hn : n ≠ 0) (h : n < 2 ^ 53) : n.log2 ≤ 52 :=
  Nat.lt_succ_iff.mp ((Nat.log2_lt hn).mpr h)

theorem mantissa_of_lt (hn : n ≠ 0) (h : n < 2 ^ 53) : mantissa n = n * 2 ^ (52 - n.log2) := by
  have hlog := log2_le_of_lt hn h
  rw [mantissa]
  split
  · next hlarge =>
    have heq : n.log2 = 52 := by omega
    rw [heq, Nat.sub_self, Nat.pow_zero, roundDiv_one, Nat.mul_one]
  · rfl

theorem mantissa_lt_two_pow (hn : n ≠ 0) (h : n < 2 ^ 53) : mantissa n < 2 ^ 53 := by
  have hlog := log2_le_of_lt hn h
  calc mantissa n = n * 2 ^ (52 - n.log2) := mantissa_of_lt hn h
    _ < 2 ^ (n.log2 + 1) * 2 ^ (52 - n.log2) :=
        Nat.mul_lt_mul_of_pos_right Nat.lt_log2_self (Nat.two_pow_pos _)
    _ = 2 ^ 53 := by
        rw [← Nat.pow_add]
        congr 1
        omega

theorem magnitudeOfRatio_of_lt (hn : n ≠ 0) (h : n < 2 ^ 53) :
    magnitudeOfRatio n 1 = (n.log2 + 1022) * 2 ^ 52 + mantissa n := by
  have hlog := log2_le_of_lt hn h
  have hmantissa := mantissa_lt_two_pow hn h
  have hinfinity : infinityMagnitude = 2047 * 2 ^ 52 := by decide
  rw [magnitudeOfRatio_one hn, hinfinity]
  omega

theorem magnitudeOfRatio_lt_succ (h : n < 2 ^ 53) :
    magnitudeOfRatio n 1 < magnitudeOfRatio (n + 1) 1 := by
  by_cases hn : n = 0
  · subst hn
    decide
  by_cases hlast : n + 1 = 2 ^ 53
  · obtain rfl : n = 2 ^ 53 - 1 := by omega
    decide
  have hlt : n + 1 < 2 ^ 53 := by omega
  have hhigh := mantissa_lt_two_pow hn h
  have hnext : n + 1 ≠ 0 := Nat.add_one_ne_zero n
  have hlow := two_pow_le_mantissa hnext
  rw [magnitudeOfRatio_of_lt hn h, magnitudeOfRatio_of_lt hnext hlt]
  rcases Nat.lt_or_eq_of_le (log2_mono hn (Nat.le_add_right n 1)) with hlog | hlog
  · omega
  · have hmantissa : mantissa n < mantissa (n + 1) := by
      rw [mantissa_of_lt hn h, mantissa_of_lt hnext hlt, ← hlog]
      exact Nat.mul_lt_mul_of_pos_right (Nat.lt_add_one n) (Nat.two_pow_pos _)
    omega

theorem magnitudeOfRatio_lt (h : m < n) (hm : m < 2 ^ 53) :
    magnitudeOfRatio m 1 < magnitudeOfRatio n 1 :=
  (magnitudeOfRatio_lt_succ hm).trans_le (magnitudeOfRatio_mono h)

theorem rank_eq (x : Double) :
    x.rank = if 2 ^ 63 ≤ x.bits.toNat then -((x.bits.toNat % 2 ^ 63 : Nat) : Int) - 1
      else (x.bits.toNat % 2 ^ 63 : Nat) :=
  if_congr decide_eq_true_iff rfl rfl

theorem rank_injective {x y : Double} (h : x.rank = y.rank) : x = y := by
  have hx : x.bits.toNat < 2 ^ 64 := x.bits.toNat_lt
  have hy : y.bits.toNat < 2 ^ 64 := y.bits.toNat_lt
  have hbits : x.bits.toNat = y.bits.toNat := by
    rw [rank_eq, rank_eq] at h
    split at h <;> split at h <;> omega
  obtain ⟨x⟩ := x
  obtain ⟨y⟩ := y
  exact congrArg Double.mk (UInt64.toNat_inj.mp hbits)

theorem rank_ofMagnitude (negative : Bool) {magnitude : Nat} (h : magnitude < 2 ^ 63) :
    (ofMagnitude negative magnitude).rank =
      if negative then -(magnitude : Int) - 1 else magnitude := by
  cases negative with
  | true =>
      have hbits : (ofMagnitude true magnitude).bits.toNat = 2 ^ 63 + magnitude := by
        rw [ofMagnitude, if_pos rfl, UInt64.toNat_ofNat_of_lt']
        · rfl
        · change 2 ^ 63 + magnitude < 2 ^ 64
          omega
      rw [rank_eq, hbits, if_pos (Nat.le_add_right _ _), if_pos rfl, Nat.add_mod_left,
        Nat.mod_eq_of_lt h]
  | false =>
      have hbits : (ofMagnitude false magnitude).bits.toNat = magnitude := by
        rw [ofMagnitude, if_neg Bool.false_ne_true, UInt64.toNat_ofNat_of_lt']
        change magnitude < 2 ^ 64
        omega
      rw [rank_eq, hbits, if_neg (Nat.not_le.mpr h), if_neg Bool.false_ne_true, Nat.mod_eq_of_lt h]

theorem magnitudeOfRatio_lt_two_pow (n : Nat) : magnitudeOfRatio n 1 < 2 ^ 63 := by
  have hinfinity : infinityMagnitude < 2 ^ 63 := by decide
  by_cases hn : n = 0
  · rw [magnitudeOfRatio, if_pos hn]
    exact Nat.two_pow_pos 63
  · rw [magnitudeOfRatio_one hn]
    exact (min_le_left _ _).trans_lt hinfinity

theorem rank_ofInt (n : Int) :
    (ofInt n).rank =
      if n < 0 then -(magnitudeOfRatio n.natAbs 1 : Int) - 1 else magnitudeOfRatio n.natAbs 1 := by
  rw [ofInt, rank_ofMagnitude _ (magnitudeOfRatio_lt_two_pow _)]
  simp

theorem rank_ofInt_mono {m n : Int} (h : m ≤ n) : (ofInt m).rank ≤ (ofInt n).rank := by
  rw [rank_ofInt, rank_ofInt]
  split
  · next hm =>
    split
    · next hn =>
      have := magnitudeOfRatio_mono (m := n.natAbs) (n := m.natAbs) (by omega)
      omega
    · omega
  · next hm =>
    have hn : ¬ n < 0 := by omega
    have := magnitudeOfRatio_mono (m := m.natAbs) (n := n.natAbs) (by omega)
    rw [if_neg hn]
    omega

/-- An integer below `2 ^ 53` in size shares its floating-point number with no other one. -/
theorem eq_of_ofInt_eq {m n : Int} (h : ofInt m = ofInt n) (hm : m.natAbs < 2 ^ 53) : m = n := by
  have hrank := congrArg rank h
  rw [rank_ofInt, rank_ofInt] at hrank
  have hsize : m.natAbs = n.natAbs := by
    have hmagnitude : magnitudeOfRatio m.natAbs 1 = magnitudeOfRatio n.natAbs 1 := by
      split at hrank <;> split at hrank <;> omega
    rcases Nat.lt_trichotomy m.natAbs n.natAbs with hlt | heq | hgt
    · exact absurd hmagnitude (magnitudeOfRatio_lt hlt hm).ne
    · exact heq
    · exact absurd hmagnitude (magnitudeOfRatio_lt hgt (hgt.trans hm)).ne'
  split at hrank <;> split at hrank <;> omega

end TraceAutomata.Double
