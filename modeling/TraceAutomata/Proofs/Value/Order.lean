import TraceAutomata.Proofs.Number.Rounding
import TraceAutomata.Value

/-!
The natural order of values. Texts are in one order and numbers of all kinds in another, which is
total. An integer that meets a floating-point number is rounded, while two integers are compared as
they are. So a floating-point number may come out equal to each of two different integers: there, and
nowhere else, the order is not transitive. No integer below `2 ^ 53` in size is concerned.
-/

namespace TraceAutomata

theorem Double.compare_rank_ofInt {m n : Int} (h : ofInt m = ofInt n → m = n) :
    Ord.compare (ofInt m).rank (ofInt n).rank = Ord.compare m n := by
  rcases Int.lt_trichotomy m n with hlt | rfl | hgt
  · have hne : (ofInt m).rank ≠ (ofInt n).rank := fun heq =>
      hlt.ne (h (rank_injective heq))
    rw [Int.compare_eq_lt.mpr hlt, Int.compare_eq_lt.mpr (lt_of_le_of_ne (rank_ofInt_mono hlt.le) hne)]
  · rw [Int.compare_eq_eq.mpr rfl, Int.compare_eq_eq.mpr rfl]
  · have hne : (ofInt n).rank ≠ (ofInt m).rank := fun heq =>
      hgt.ne' (h (rank_injective heq.symm))
    rw [Int.compare_eq_gt.mpr hgt, Int.compare_eq_gt.mpr (lt_of_le_of_ne (rank_ofInt_mono hgt.le) hne)]

/-- A number of either kind, whatever the width of an integer. -/
inductive Quantity where
  | integer (n : Int)
  | double (x : Double)

namespace Quantity

/-- The place among floating-point numbers. -/
def rank : Quantity → Int
  | .integer n => (Double.ofInt n).rank
  | .double x => x.rank

def compare : Quantity → Quantity → Ordering
  | .integer m, .integer n => Ord.compare m n
  | a, b => Ord.compare a.rank b.rank

/-- A floating-point number to which two different integers are rounded. -/
def Blurs (b a c : Quantity) : Prop :=
  ∃ m n, a = .integer m ∧ c = .integer n ∧ m ≠ n ∧ b = .double (Double.ofInt m) ∧
    b = .double (Double.ofInt n)

variable {a b c : Quantity}

theorem compare_swap (a b : Quantity) : b.compare a = (a.compare b).swap := by
  cases a <;> cases b <;> exact Std.OrientedOrd.eq_swap

theorem rank_eq_of_compare (h : a.compare b = .eq) : a.rank = b.rank := by
  cases a <;> cases b <;> simp only [compare, Int.compare_eq_eq] at h
  · rw [h]
  all_goals exact h

/-- Of two numbers that come out equal, each compares as the other one does, unless one of the two
blurs the other one and the number that they are compared with. -/
theorem compare_congr (h : a.compare b = .eq) (hb : ¬ Blurs b a c) (ha : ¬ Blurs a b c) :
    a.compare c = b.compare c := by
  have hrank := rank_eq_of_compare h
  match a, b, c with
  | .integer m, .integer n, c =>
      rw [compare, Int.compare_eq_eq] at h
      rw [h]
  | .double x, .double y, c => rw [Double.rank_injective hrank]
  | .integer m, .double x, .double y => exact congrArg (Ord.compare · y.rank) hrank
  | .double x, .integer m, .double y => exact congrArg (Ord.compare · y.rank) hrank
  | .integer m, .double x, .integer n =>
      obtain rfl : Double.ofInt m = x := Double.rank_injective hrank
      refine (Double.compare_rank_ofInt fun heq => ?_).symm
      by_contra hne
      exact hb ⟨m, n, rfl, rfl, hne, rfl, congrArg Quantity.double heq⟩
  | .double x, .integer m, .integer n =>
      obtain rfl : x = Double.ofInt m := Double.rank_injective hrank
      refine Double.compare_rank_ofInt fun heq => ?_
      by_contra hne
      exact ha ⟨m, n, rfl, rfl, hne, rfl, congrArg Quantity.double heq⟩

def AtMost (a b : Quantity) : Prop :=
  a.compare b = .lt ∨ a.compare b = .eq

theorem AtMost.rank_le (h : a.AtMost b) : a.rank ≤ b.rank := by
  rcases h with h | h
  · cases a <;> cases b <;> simp only [compare, Int.compare_eq_lt] at h
    · exact Double.rank_ofInt_mono h.le
    all_goals exact h.le
  · exact (rank_eq_of_compare h).le

theorem compare_of_rank_lt (h : a.rank < b.rank) : a.compare b = .lt := by
  cases a <;> cases b <;> simp only [compare, Int.compare_eq_lt]
  · by_contra hle
    exact absurd (Double.rank_ofInt_mono (not_lt.mp hle)) (not_le.mpr h)
  all_goals exact h

/-- The one way in which the order of numbers fails to be transitive is that the middle one blurs the
other two. -/
theorem AtMost.trans (hab : a.AtMost b) (hbc : b.AtMost c) (hb : ¬ Blurs b a c) : a.AtMost c := by
  rcases lt_or_eq_of_le (hab.rank_le.trans hbc.rank_le) with hlt | heq
  · exact .inl (compare_of_rank_lt hlt)
  have hfirst : a.rank = b.rank := le_antisymm hab.rank_le (heq ▸ hbc.rank_le)
  match a, b, c with
  | .double x, b, c => exact .inr (Int.compare_eq_eq.mpr heq)
  | .integer m, b, .double x => exact .inr (Int.compare_eq_eq.mpr heq)
  | .integer m, .integer k, .integer n =>
      simp only [AtMost, compare, Int.compare_eq_lt, Int.compare_eq_eq] at hab hbc ⊢
      omega
  | .integer m, .double x, .integer n =>
      obtain rfl : Double.ofInt m = x := Double.rank_injective hfirst
      have hround : Double.ofInt m = Double.ofInt n := Double.rank_injective heq
      refine .inr (Int.compare_eq_eq.mpr ?_)
      by_contra hne
      exact hb ⟨m, n, rfl, rfl, hne, rfl, congrArg Quantity.double hround⟩

end Quantity

namespace Value

def quantity? : Value → Option Quantity
  | .int n => some (.integer n.toInt)
  | .long n => some (.integer n.toInt)
  | .double x => some (.double x)
  | _ => none

/-- Two values that have an order: texts, or numbers of any kinds. -/
inductive Comparable : Value → Value → Prop
  | texts (s t : String) : Comparable (.string s) (.string t)
  | numbers {a b : Value} {p q : Quantity} (ha : a.quantity? = some p) (hb : b.quantity? = some q) :
      Comparable a b

def AtMost (a b : Value) : Prop :=
  a.compare b = some .lt ∨ a.compare b = some .eq

instance (a b : Value) : Decidable (a.AtMost b) :=
  inferInstanceAs (Decidable (_ ∨ _))

/-- A value to which two different integers are rounded. -/
def Blurs (b a c : Value) : Prop :=
  ∃ m n, a.integer? = some m ∧ c.integer? = some n ∧ m ≠ n ∧ b = .double (Double.ofInt m) ∧
    b = .double (Double.ofInt n)

variable {a b c : Value} {p q r : Quantity}

theorem quantity?_of_integer? {n : Int} (h : a.integer? = some n) :
    a.quantity? = some (.integer n) := by
  cases a <;> cases h <;> rfl

theorem integer?_of_quantity? {n : Int} (h : a.quantity? = some (.integer n)) :
    a.integer? = some n := by
  cases a <;> cases h <;> rfl

theorem eq_double_of_quantity? {x : Double} (h : a.quantity? = some (.double x)) :
    a = .double x := by
  cases a <;> cases h
  rfl

theorem compare_of_quantity? (ha : a.quantity? = some p) (hb : b.quantity? = some q) :
    a.compare b = some (p.compare q) := by
  cases a <;> cases ha <;> cases b <;> cases hb <;> rfl

theorem comparable_iff : a.Comparable b ↔ ∃ o, a.compare b = some o := by
  constructor
  · rintro (⟨s, t⟩ | ⟨ha, hb⟩)
    · exact ⟨_, rfl⟩
    · exact ⟨_, compare_of_quantity? ha hb⟩
  · rintro ⟨o, h⟩
    cases a <;> cases b <;> first | exact .numbers rfl rfl | exact .texts _ _ | cases h

theorem Comparable.symm (h : a.Comparable b) : b.Comparable a := by
  cases h with
  | texts s t => exact .texts t s
  | numbers ha hb => exact .numbers hb ha

theorem compare_eq_none (h : ¬ a.Comparable b) : a.compare b = none :=
  Option.eq_none_iff_forall_ne_some.mpr fun o ho => h (comparable_iff.mpr ⟨o, ho⟩)

theorem compare_swap (a b : Value) : b.compare a = (a.compare b).map Ordering.swap := by
  by_cases h : a.Comparable b
  · cases h with
    | texts s t => exact congrArg some Std.OrientedOrd.eq_swap
    | numbers ha hb =>
        rw [compare_of_quantity? ha hb, compare_of_quantity? hb ha, Quantity.compare_swap]
        rfl
  · rw [compare_eq_none h, compare_eq_none fun h' => h h'.symm]
    rfl

theorem AtMost.comparable (h : a.AtMost b) : a.Comparable b :=
  comparable_iff.mpr (h.elim (⟨_, ·⟩) (⟨_, ·⟩))

theorem AtMost.quantities (h : a.AtMost b) (ha : a.quantity? = some p)
    (hb : b.quantity? = some q) : p.AtMost q := by
  rw [AtMost, compare_of_quantity? ha hb, Option.some_inj, Option.some_inj] at h
  exact h

theorem blurs_of_quantities (ha : a.quantity? = some p) (hb : b.quantity? = some q)
    (hc : c.quantity? = some r) (h : Quantity.Blurs q p r) : Blurs b a c := by
  obtain ⟨m, n, rfl, rfl, hne, rfl, heq⟩ := h
  obtain rfl := eq_double_of_quantity? hb
  refine ⟨m, n, integer?_of_quantity? ha, integer?_of_quantity? hc, hne, rfl, ?_⟩
  rw [Quantity.double.inj heq]

theorem AtMost.total (h : a.Comparable b) : a.AtMost b ∨ b.AtMost a := by
  obtain ⟨o, ho⟩ := comparable_iff.mp h
  have hswap := compare_swap a b
  rw [ho] at hswap
  cases o with
  | lt => exact .inl (.inl ho)
  | eq => exact .inl (.inr ho)
  | gt => exact .inr (.inl hswap)

theorem AtMost.trans (hab : a.AtMost b) (hbc : b.AtMost c) (hb : ¬ Blurs b a c) : a.AtMost c := by
  cases hab.comparable with
  | texts s t =>
      cases hbc.comparable with
      | texts t u =>
          have hle : ∀ {s t : String}, AtMost (.string s) (.string t) ↔ (Ord.compare s t).isLE := by
            intro s t
            simp [AtMost, compare, Ordering.isLE_iff_eq_lt_or_eq_eq]
          rw [hle] at hab hbc ⊢
          exact Std.TransOrd.isLE_trans hab hbc
      | numbers ht hu => cases ht
  | numbers hp hq =>
      cases hbc.comparable with
      | texts t u => cases hq
      | numbers hq' hr =>
          have hnumbers := (hab.quantities hp hq).trans (hbc.quantities hq hr) fun h =>
            hb (blurs_of_quantities hp hq hr h)
          rw [AtMost, compare_of_quantity? hp hr, Option.some_inj, Option.some_inj]
          exact hnumbers

theorem sameAs_iff : a.sameAs b = true ↔ (a = .null ∧ b = .null) ∨ a.compare b = some .eq := by
  cases a <;> cases b <;> simp [sameAs, isNull]

theorem sameAs_self (a : Value) : a.sameAs a = true := by
  rw [sameAs_iff]
  cases a with
  | null => exact .inl ⟨rfl, rfl⟩
  | string s => exact .inr (congrArg some Std.ReflOrd.compare_self)
  | int n => exact .inr (congrArg some Std.ReflOrd.compare_self)
  | long n => exact .inr (congrArg some Std.ReflOrd.compare_self)
  | double x => exact .inr (congrArg some Std.ReflOrd.compare_self)

theorem sameAs_comm (a b : Value) : a.sameAs b = b.sameAs a := by
  rw [Bool.eq_iff_iff, sameAs_iff, sameAs_iff, compare_swap b a, And.comm]
  simp

/-- Values that are the same compare alike with a third one, unless one of the two blurs the other one
and the third. -/
theorem compare_congr (h : a.sameAs b = true) (hb : ¬ Blurs b a c) (ha : ¬ Blurs a b c) :
    a.compare c = b.compare c := by
  rcases sameAs_iff.mp h with ⟨rfl, rfl⟩ | heq
  · rfl
  cases comparable_iff.mpr ⟨_, heq⟩ with
  | texts s t =>
      obtain rfl : s = t := Std.LawfulEqOrd.eq_of_compare (Option.some.inj heq)
      rfl
  | numbers hp hq =>
      rw [compare_of_quantity? hp hq, Option.some_inj] at heq
      cases hr : c.quantity? with
      | none =>
          have hno : ∀ {v : Value} {p : Quantity}, v.quantity? = some p → ¬ v.Comparable c := by
            rintro v p hv (_ | ⟨-, hc⟩)
            · cases hv
            · cases hr.symm.trans hc
          rw [compare_eq_none (hno hp), compare_eq_none (hno hq)]
      | some r =>
          rw [compare_of_quantity? hp hr, compare_of_quantity? hq hr]
          refine congrArg some (Quantity.compare_congr heq ?_ ?_)
          · exact fun hblurs => hb (blurs_of_quantities hp hq hr hblurs)
          · exact fun hblurs => ha (blurs_of_quantities hq hp hr hblurs)

theorem Blurs.apart (h : Blurs b a c) :
    a.sameAs b = true ∧ b.sameAs c = true ∧ a.sameAs c = false ∧ ¬ (a.AtMost c ∧ c.AtMost a) := by
  obtain ⟨m, n, ha, hc, hne, rfl, hround⟩ := h
  have hm := quantity?_of_integer? ha
  have hn := quantity?_of_integer? hc
  have hcompare : a.compare c ≠ some .eq := by
    rw [compare_of_quantity? hm hn, Ne, Option.some_inj]
    exact fun heq => hne (Int.compare_eq_eq.mp heq)
  refine ⟨?_, ?_, ?_, ?_⟩
  · rw [sameAs_iff, compare_of_quantity? hm rfl]
    exact .inr (congrArg some Std.ReflOrd.compare_self)
  · rw [hround, sameAs_iff, compare_of_quantity? rfl hn]
    exact .inr (congrArg some Std.ReflOrd.compare_self)
  · rw [Bool.eq_false_iff, Ne, sameAs_iff]
    rintro (⟨rfl, -⟩ | heq)
    · cases hm
    · exact hcompare heq
  · rintro ⟨hle | heq, hge⟩
    · rw [AtMost, compare_swap a c, hle] at hge
      simp at hge
    · exact hcompare heq

theorem sameAs_trans (hab : a.sameAs b = true) (hbc : b.sameAs c = true) (hb : ¬ Blurs b a c) :
    a.sameAs c = true := by
  have ha : ¬ Blurs a b c := fun h => Bool.false_ne_true (h.apart.2.2.1.symm.trans hbc)
  rcases sameAs_iff.mp hbc with ⟨rfl, rfl⟩ | heq
  · exact hab
  · exact sameAs_iff.mpr (.inr ((compare_congr hab hb ha).trans heq))

theorem Blurs.far (h : Blurs b a c) :
    ∃ m n : Int, a.integer? = some m ∧ c.integer? = some n ∧ 2 ^ 53 ≤ m.natAbs ∧
      2 ^ 53 ≤ n.natAbs := by
  obtain ⟨m, n, ha, hc, hne, rfl, hround⟩ := h
  have heq : Double.ofInt m = Double.ofInt n := Value.double.inj hround
  refine ⟨m, n, ha, hc, ?_, ?_⟩
  · exact Nat.not_lt.mp fun hlt => hne (Double.eq_of_ofInt_eq heq hlt)
  · exact Nat.not_lt.mp fun hlt => hne (Double.eq_of_ofInt_eq heq.symm hlt).symm

/-- What holds of the order of three values. -/
structure OrderLaws (a b c : Value) : Prop where
  reversed : b.compare a = (a.compare b).map Ordering.swap
  unordered : ¬ a.Comparable b → a.compare b = none ∧ b.compare a = none
  total : a.Comparable b → a.AtMost b ∨ b.AtMost a
  trans : a.AtMost b → b.AtMost c → ¬ Blurs b a c → a.AtMost c
  refl : a.sameAs a = true
  symm : a.sameAs b = b.sameAs a
  same_trans : a.sameAs b = true → b.sameAs c = true → ¬ Blurs b a c → a.sameAs c = true
  respected : a.sameAs b = true → ¬ Blurs b a c → ¬ Blurs a b c → a.compare c = b.compare c
  /-- Where a value blurs two others, these laws do fail. Both are integers of `2 ^ 53` or more in
  size. -/
  blurred : Blurs b a c →
    (a.sameAs b = true ∧ b.sameAs c = true ∧ a.sameAs c = false ∧ ¬ (a.AtMost c ∧ c.AtMost a)) ∧
      ∃ m n : Int, a.integer? = some m ∧ c.integer? = some n ∧ 2 ^ 53 ≤ m.natAbs ∧
        2 ^ 53 ≤ n.natAbs

/-- The order of values can be reversed, is total on the values of one family, and equality under it is
reflexive and symmetric. It is transitive, and equal values compare alike with all others, unless two
different integers are rounded to one floating-point number that they are compared with. -/
theorem order_laws (a b c : Value) : OrderLaws a b c where
  reversed := compare_swap a b
  unordered h := ⟨compare_eq_none h, compare_eq_none fun h' => h h'.symm⟩
  total := AtMost.total
  trans := AtMost.trans
  refl := sameAs_self a
  symm := sameAs_comm a b
  same_trans := sameAs_trans
  respected := compare_congr
  blurred h := ⟨h.apart, h.far⟩

/-- Three is the same as three in floating point, and not after four. -/
theorem order_laws_sample :
    let a : Value := .int 3
    let b : Value := .double ⟨0x4008000000000000⟩
    let c : Value := .long 4
    a.sameAs b = true ∧ b.AtMost c ∧ ¬ Blurs b a c ∧ ¬ Blurs a b c ∧ a.AtMost c ∧
      a.compare c = b.compare c := by
  intro a b c
  have hsame : a.sameAs b = true := by decide +kernel
  have hle : a.AtMost b := .inr (by decide +kernel)
  have hle' : b.AtMost c := .inl (by decide +kernel)
  have hb : ¬ Blurs b a c := by
    intro h
    obtain ⟨m, n, hm, -, hfar, -⟩ := (order_laws a b c).blurred h |>.2
    obtain rfl : 3 = m := Option.some.inj hm
    exact absurd hfar (by decide)
  have ha : ¬ Blurs a b c := by
    rintro ⟨m, n, hm, -⟩
    cases hm
  exact ⟨hsame, hle', hb, ha, (order_laws a b c).trans hle hle' hb,
    (order_laws a b c).respected hsame hb ha⟩

/-- The floating-point number `2 ^ 53` is the same as the integer `2 ^ 53` and as the next one, which
are not the same as each other. So the greater one is not after it, nor it after the smaller one. -/
theorem order_not_transitive :
    let a : Value := .long 9007199254740993
    let b : Value := .double ⟨0x4340000000000000⟩
    let c : Value := .long 9007199254740992
    Blurs b a c ∧ a.sameAs b = true ∧ b.sameAs c = true ∧ a.sameAs c = false ∧
      a.AtMost b ∧ b.AtMost c ∧ ¬ a.AtMost c ∧ a.compare c ≠ b.compare c := by
  intro a b c
  have hblurs : Blurs b a c :=
    ⟨9007199254740993, 9007199254740992, rfl, rfl, by decide, by decide +kernel, by decide +kernel⟩
  exact ⟨hblurs, by decide +kernel⟩

end Value

end TraceAutomata
