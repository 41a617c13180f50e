import Mathlib.Algebra.Order.Field.Power
import Mathlib.Data.Rat.Floor
import TraceAutomata.Time.Stamp

/-!
The nanoseconds of a timestamp against its exact time. They are the exact time without its fraction,
brought into the range of 64 bits, and so are ordered as the exact times are. The one exception is a
zero whose scale alone leaves that range: it becomes the latest time.
-/

namespace TraceAutomata

namespace Number

def towardZero (x : ℚ) : ℤ :=
  if x < 0 then ⌈x⌉ else ⌊x⌋

def clamp64 (n : ℤ) : ℤ :=
  max (-2 ^ 63) (min n (2 ^ 63 - 1))

theorem towardZero_intCast (n : ℤ) : towardZero n = n := by
  rw [towardZero, Int.ceil_intCast, Int.floor_intCast, ite_self]

theorem towardZero_div (n : ℤ) (d : ℕ) : towardZero (n / d) = n.tdiv d := by
  rw [towardZero]
  split
  · next hneg =>
    have hn : n < 0 := by
      by_contra hn
      have hn' : (0 : ℚ) ≤ n := by exact_mod_cast Int.not_lt.mp hn
      exact absurd hneg (not_lt.mpr (div_nonneg hn' d.cast_nonneg))
    rw [Rat.ceil_intCast_div_natCast, ← Int.tdiv_eq_ediv_of_nonneg (by omega), Int.neg_tdiv,
      neg_neg]
  · next hnonneg =>
    rw [Rat.floor_intCast_div_natCast]
    rcases Nat.eq_zero_or_pos d with rfl | hd
    · simp
    · have hn : 0 ≤ n := by
        by_contra hn
        have hn' : (n : ℚ) < 0 := by exact_mod_cast Int.not_le.mp hn
        have hd' : (0 : ℚ) < d := by exact_mod_cast hd
        exact hnonneg (div_neg_of_neg_of_pos hn' hd')
      rw [Int.tdiv_eq_ediv_of_nonneg hn]

theorem towardZero_mono {x y : ℚ} (h : x ≤ y) : towardZero x ≤ towardZero y := by
  rw [towardZero, towardZero]
  split
  · next hx =>
    split
    · exact Int.ceil_mono h
    · next hy =>
      have hceil : ⌈x⌉ ≤ 0 := Int.ceil_le.mpr (by exact_mod_cast hx.le)
      exact hceil.trans (Int.floor_nonneg.mpr (not_lt.mp hy))
  · next hx =>
    have hy : ¬ y < 0 := fun hy => hx (lt_of_le_of_lt h hy)
    rw [if_neg hy]
    exact Int.floor_mono h

theorem clamp64_mono {m n : ℤ} (h : m ≤ n) : clamp64 m ≤ clamp64 n := by
  rw [clamp64, clamp64]
  omega

theorem toInt_ofIntClamp (n : ℤ) : (Int64.ofIntClamp n).toInt = clamp64 n := by
  rw [clamp64, Int64.ofIntClamp]
  split
  · next hmin =>
    split
    · next hmax =>
      rw [Int64.toInt_minValue] at hmin
      rw [Int64.toInt_maxValue] at hmax
      rw [Int64.toInt_ofIntLE]
      omega
    · next hmax =>
      rw [Int64.toInt_maxValue] at hmax ⊢
      omega
  · next hmin =>
    rw [Int64.toInt_minValue] at hmin ⊢
    omega

theorem toInt_bounds (n : Int64) : -2 ^ 63 ≤ n.toInt ∧ n.toInt ≤ 2 ^ 63 - 1 := by
  have hmax := Int64.toInt_le n
  rw [Int64.toInt_maxValue] at hmax
  exact ⟨Int64.le_toInt n, hmax⟩

theorem clamp64_toInt (n : Int64) : clamp64 n.toInt = n.toInt := by
  have h := toInt_bounds n
  rw [clamp64]
  omega

theorem clamp64_of_ge {n : ℤ} (h : 2 ^ 63 - 1 ≤ n) : clamp64 n = 2 ^ 63 - 1 := by
  rw [clamp64]
  omega

theorem clamp64_of_le {n : ℤ} (h : n ≤ -2 ^ 63) : clamp64 n = -2 ^ 63 := by
  rw [clamp64]
  omega

theorem natCast_tenPow (k : ℕ) : ((tenPow k : ℕ) : ℤ) = 10 ^ k := by
  change ((10 ^ k : ℕ) : ℤ) = 10 ^ k
  exact_mod_cast rfl

theorem lt_ten_pow {k : ℕ} (h : 18 < k) : (2 : ℤ) ^ 63 < 10 ^ k :=
  calc (2 : ℤ) ^ 63 < 10 ^ 19 := by norm_num
    _ ≤ 10 ^ k := pow_le_pow_right₀ (by norm_num) h

end Number

namespace Timestamp

open Number

/-- The time in nanoseconds, with its fraction and in no range. -/
def exactNanos (t : Timestamp) : ℚ :=
  t.value.toInt * 10 ^ (t.scale.toInt + 9)

/-- A zero whose scale is more nanoseconds than 64 bits hold. -/
def CoarseZero (t : Timestamp) : Prop :=
  t.value = 0 ∧ 9 < t.scale.toInt

variable {t : Timestamp} {k : ℕ}

theorem towardZero_exactNanos_of_nonneg (hk : t.scale.toInt + 9 = k) :
    towardZero t.exactNanos = t.value.toInt * 10 ^ k := by
  have hexact : t.exactNanos = ((t.value.toInt * 10 ^ k : ℤ) : ℚ) := by
    rw [exactNanos, hk, zpow_natCast]
    push_cast
    rfl
  rw [hexact, towardZero_intCast]

theorem towardZero_exactNanos_of_neg (hk : t.scale.toInt + 9 = -k) :
    towardZero t.exactNanos = t.value.toInt.tdiv (10 ^ k) := by
  have hexact : t.exactNanos = (t.value.toInt : ℚ) / ((10 ^ k : ℕ) : ℚ) := by
    rw [exactNanos, hk, zpow_neg, zpow_natCast, div_eq_mul_inv]
    push_cast
    rfl
  rw [hexact, towardZero_div]
  push_cast
  rfl

theorem toInt_nanos_of_coarse (hk : t.scale.toInt + 9 = k) (hlarge : 18 < k) (hne : t.value ≠ 0) :
    t.nanos.toInt = clamp64 (t.value.toInt * 10 ^ k) := by
  have hpow := lt_ten_pow hlarge
  have hvalue : t.value.toInt ≠ 0 := fun h => hne (Int64.toInt_inj.mp h)
  have hexponent : 18 < t.scale.toInt + 9 := by omega
  rw [nanos, if_pos hexponent]
  split
  · next hneg =>
    have hle : t.value.toInt ≤ -1 := by
      have := Int64.lt_iff_toInt_lt.mp hneg
      rw [Int64.toInt_zero] at this
      omega
    have hproduct : t.value.toInt * 10 ^ k ≤ -1 * 10 ^ k :=
      Int.mul_le_mul_of_nonneg_right hle (by omega)
    rw [clamp64_of_le (by omega), Int64.toInt_minValue]
  · next hnonneg =>
    have hle : 1 ≤ t.value.toInt := by
      have := mt Int64.lt_iff_toInt_lt.mpr hnonneg
      rw [Int64.toInt_zero] at this
      omega
    have hproduct : 1 * 10 ^ k ≤ t.value.toInt * 10 ^ k :=
      Int.mul_le_mul_of_nonneg_right hle (by omega)
    rw [clamp64_of_ge (by omega), Int64.toInt_maxValue]

theorem toInt_nanos_of_product (hk : t.scale.toInt + 9 = k) (hsmall : k ≤ 18) :
    t.nanos.toInt = clamp64 (t.value.toInt * 10 ^ k) := by
  have hnot : ¬ 18 < t.scale.toInt + 9 := by omega
  have hnonneg : 0 ≤ t.scale.toInt + 9 := by omega
  rw [nanos, if_neg hnot, if_pos hnonneg, toInt_ofIntClamp, hk, Int.toNat_natCast, natCast_tenPow]

theorem toInt_nanos_of_quotient (hk : t.scale.toInt + 9 = -k) (hpos : 0 < k) :
    t.nanos.toInt = t.value.toInt.tdiv (10 ^ k) := by
  have hbounds := toInt_bounds t.value
  have hnot : ¬ 18 < t.scale.toInt + 9 := by omega
  have hneg : ¬ 0 ≤ t.scale.toInt + 9 := by omega
  have habs : (t.value.toInt.tdiv (10 ^ k)).natAbs = t.value.toInt.natAbs / 10 ^ k := by
    rw [Int.natAbs_tdiv, Int.natAbs_pow]
    rfl
  rw [nanos, if_neg hnot, if_neg hneg]
  split
  · next hsmall =>
    have hten : 10 ^ 1 ≤ 10 ^ k := Nat.pow_le_pow_right (by decide) hpos
    have hle : t.value.toInt.natAbs / 10 ^ k ≤ t.value.toInt.natAbs / 10 :=
      Nat.div_le_div_left hten (by decide)
    have hexponent : (-(t.scale.toInt + 9)).toNat = k := by omega
    rw [hexponent, natCast_tenPow]
    exact Int64.toInt_ofInt_of_le (by omega) (by omega)
  · next hlarge =>
    have hpow : t.value.toInt.natAbs < 10 ^ k := by
      have hlt : (2 : ℕ) ^ 63 < 10 ^ k := by exact_mod_cast lt_ten_pow (k := k) (by omega)
      omega
    rw [Nat.div_eq_of_lt hpow] at habs
    rw [Int64.toInt_zero, Int.natAbs_eq_zero.mp habs]

/-- The nanoseconds of a timestamp are its exact time without the fraction, as near to it as 64 bits
allow. -/
theorem toInt_nanos (h : ¬ t.CoarseZero) : t.nanos.toInt = clamp64 (towardZero t.exactNanos) := by
  rcases le_or_gt 0 (t.scale.toInt + 9) with hnonneg | hneg
  · obtain ⟨k, hk⟩ := Int.eq_ofNat_of_zero_le hnonneg
    rw [towardZero_exactNanos_of_nonneg hk]
    by_cases hlarge : 18 < k
    · exact toInt_nanos_of_coarse hk hlarge fun hzero => h ⟨hzero, by omega⟩
    · exact toInt_nanos_of_product hk (by omega)
  · obtain ⟨k, hk⟩ := Int.eq_ofNat_of_zero_le (a := -(t.scale.toInt + 9)) (by omega)
    have hk' : t.scale.toInt + 9 = -k := by omega
    rw [towardZero_exactNanos_of_neg hk', ← toInt_nanos_of_quotient hk' (by omega), clamp64_toInt]

theorem nanos_of_coarseZero (h : t.CoarseZero) : t.nanos = Int64.maxValue := by
  obtain ⟨hzero, hscale⟩ := h
  have hexponent : 18 < t.scale.toInt + 9 := by omega
  rw [nanos, if_pos hexponent, hzero]
  rfl

/-- But for a zero at a scale beyond the range, the nanoseconds of a timestamp are exact: its time
without the fraction, in the range of 64 bits. They, and so the timestamps, are then in the order of
the exact times. Such a zero is the latest time of all. -/
theorem nanos_exact (t : Timestamp) :
    (¬ t.CoarseZero → t.nanos.toInt = clamp64 (towardZero t.exactNanos)) ∧
    (t.CoarseZero → t.nanos = Int64.maxValue) ∧
    ∀ later : Timestamp, ¬ t.CoarseZero → t.exactNanos ≤ later.exactNanos →
      t.nanos ≤ later.nanos ∧ t.compare later ≠ .gt := by
  refine ⟨toInt_nanos, nanos_of_coarseZero, fun later h hle => ?_⟩
  have hnanos : t.nanos ≤ later.nanos := by
    rw [Int64.le_iff_toInt_le]
    by_cases hlater : later.CoarseZero
    · rw [nanos_of_coarseZero hlater]
      exact Int64.toInt_le t.nanos
    · rw [toInt_nanos h, toInt_nanos hlater]
      exact clamp64_mono (towardZero_mono hle)
  refine ⟨hnanos, fun hgt => ?_⟩
  have hisLE : (t.compare later).isLE = true := Std.isLE_compare.mpr hnanos
  rw [hgt] at hisLE
  cases hisLE

/-- A second and a half before the beginning, in units of a tenth of a nanosecond and in
milliseconds, and a zero in units that are out of range. -/
theorem nanos_exact_sample :
    let t : Timestamp := ⟨-15000000009, -10⟩
    let later : Timestamp := ⟨-1500, -3⟩
    let zero : Timestamp := ⟨0, 10⟩
    ¬ t.CoarseZero ∧ t.nanos = -1500000000 ∧
      t.nanos.toInt = clamp64 (towardZero t.exactNanos) ∧
      t.exactNanos ≤ later.exactNanos ∧ (t.nanos ≤ later.nanos ∧ t.compare later ≠ .gt) ∧
      zero.CoarseZero ∧ zero.nanos = Int64.maxValue := by
  intro t later zero
  have h : ¬ t.CoarseZero := fun hzero => absurd hzero.1 (by decide)
  have hzero : zero.CoarseZero := ⟨rfl, by decide⟩
  have hle : t.exactNanos ≤ later.exactNanos := by
    change ((-15000000009 : ℤ) : ℚ) * 10 ^ (-1 : ℤ) ≤ ((-1500 : ℤ) : ℚ) * 10 ^ (6 : ℤ)
    norm_num
  obtain ⟨hexact, -, hmono⟩ := nanos_exact t
  exact ⟨h, by decide, hexact h, hle, hmono later h hle, hzero, (nanos_exact zero).2.1 hzero⟩

/-- No time at all, in units of `10 ^ 19` nanoseconds, is not zero nanoseconds but the latest time,
after a timestamp whose time is later. -/
theorem nanos_coarse_zero :
    let zero : Timestamp := ⟨0, 10⟩
    zero.exactNanos = 0 ∧ zero.nanos.toInt ≠ clamp64 (towardZero zero.exactNanos) ∧
      zero.exactNanos ≤ (ofNanos 1).exactNanos ∧ (ofNanos 1).nanos < zero.nanos := by
  intro zero
  have hzero : zero.exactNanos = 0 := by
    change ((0 : ℤ) : ℚ) * 10 ^ (19 : ℤ) = 0
    norm_num
  have hone : (ofNanos 1).exactNanos = 1 := by
    change ((1 : ℤ) : ℚ) * 10 ^ (0 : ℤ) = 1
    norm_num
  refine ⟨hzero, ?_, ?_, by decide⟩
  · have hcast : (0 : ℚ) = ((0 : ℤ) : ℚ) := Int.cast_zero.symm
    rw [hzero, hcast, towardZero_intCast]
    decide
  · rw [hzero, hone]
    norm_num

end Timestamp

end TraceAutomata
