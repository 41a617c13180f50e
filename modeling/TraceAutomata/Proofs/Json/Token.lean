import Mathlib.Algebra.Group.Int.Defs
import Mathlib.Data.List.Basic
import Mathlib.Data.List.TakeWhile
import TraceAutomata.Json.Reader
import TraceAutomata.Json.Writer
import TraceAutomata.Proofs.Number

namespace TraceAutomata

namespace Number

theorem head?_toDigits_ne {n : Nat} (h : 0 < n) : (Nat.toDigits 10 n).head? ≠ some '0' := by
  have hdigit : ∀ n < 10, 0 < n → [Nat.digitChar n].head? ≠ some '0' := by decide
  induction n using Nat.strongRecOn with
  | ind n ih =>
      rw [Nat.toDigits_eq_if (by decide)]
      split
      · next hlt => exact hdigit n hlt h
      · next hle =>
        rw [List.head?_append_of_ne_nil _ Nat.toDigits_ne_nil]
        exact ih (n / 10) (by omega) (by omega)

theorem toDigits_leads {n : Nat} :
    ((Nat.toDigits 10 n).length > 1 && (Nat.toDigits 10 n).head? == some '0') = false := by
  rcases Nat.eq_zero_or_pos n with rfl | hpos
  · rfl
  · rw [Bool.and_eq_false_iff]
    exact .inr (beq_eq_false_iff_ne.mpr (head?_toDigits_ne hpos))

end Number

namespace Json

/-- What follows is not part of a word that ends here. -/
def Apart (rest : List Char) : Prop :=
  ∀ c, rest.head? = some c → isWordChar c = false

theorem Apart.nil : Apart [] := fun _ h => nomatch h

theorem Apart.cons {c : Char} (h : isWordChar c = false) (rest : List Char) :
    Apart (c :: rest) := by
  intro c' hc'
  obtain rfl := Option.some.inj hc'
  exact h

theorem isWordChar_of_isDigit {c : Char} (h : c.isDigit = true) : isWordChar c = true := by
  simp [isWordChar, Char.isAlphanum, h]

theorem ne_of_isWordChar {c c' : Char} (h : isWordChar c = true) (h' : isWordChar c' = false) :
    c ≠ c' := by
  rintro rfl
  rw [h] at h'
  cases h'

theorem isSpace_of_isWordChar {c : Char} (h : isWordChar c = true) : isSpace c = false := by
  simp only [isSpace, Bool.or_eq_false_iff, beq_eq_false_iff_ne]
  exact ⟨⟨⟨ne_of_isWordChar h rfl, ne_of_isWordChar h rfl⟩, ne_of_isWordChar h rfl⟩,
    ne_of_isWordChar h rfl⟩

theorem mark?_of_isWordChar {c : Char} (h : isWordChar c = true) : mark? c = none := by
  unfold mark?
  split <;> first | rfl | exact absurd h (by decide)

theorem Apart.mark_cons {c : Char} {mark : Token} (h : mark? c = some mark) (rest : List Char) :
    Apart (c :: rest) := by
  refine .cons ?_ rest
  cases hword : isWordChar c with
  | false => rfl
  | true =>
      rw [mark?_of_isWordChar hword] at h
      cases h

theorem Apart.blank_append {gap rest : List Char} (hgap : ∀ c ∈ gap, isSpace c = true)
    (h : Apart rest) : Apart (gap ++ rest) := by
  cases gap with
  | nil => exact h
  | cons c gap =>
      have hspace := hgap c List.mem_cons_self
      refine .cons ?_ _
      cases hword : isWordChar c with
      | false => rfl
      | true =>
          rw [isSpace_of_isWordChar hword] at hspace
          cases hspace

theorem takeWhile_append_of_apart {w rest : List Char} (hw : ∀ c ∈ w, isWordChar c = true)
    (h : Apart rest) : (w ++ rest).takeWhile isWordChar = w := by
  rw [List.takeWhile_append_of_pos hw]
  cases rest with
  | nil => simp
  | cons c rest => simp [h c rfl]

theorem dropWhile_append_of_apart {w rest : List Char} (hw : ∀ c ∈ w, isWordChar c = true)
    (h : Apart rest) : (w ++ rest).dropWhile isWordChar = rest := by
  rw [List.dropWhile_append_of_pos hw]
  cases rest with
  | nil => rfl
  | cons c rest => simp [h c rfl]

theorem tokens?_word {w rest : List Char} (hne : w ≠ []) (hw : ∀ c ∈ w, isWordChar c = true)
    (h : Apart rest) :
    tokens? (w ++ rest) =
      (word? w).bind fun token => (tokens? rest).map (token :: ·) := by
  obtain ⟨c, w, rfl⟩ := List.exists_cons_of_ne_nil hne
  obtain ⟨hc, hw⟩ := List.forall_mem_cons.mp hw
  have hquote : c ≠ '"' := ne_of_isWordChar hc rfl
  rw [List.cons_append, tokens?, isSpace_of_isWordChar hc, mark?_of_isWordChar hc,
    takeWhile_append_of_apart hw h, dropWhile_append_of_apart hw h, if_pos hc]
  simp only [Bool.false_eq_true, if_false, if_neg hquote]
  cases word? (c :: w) <;> rfl

theorem unsignedNumber?_toDigits {negative : Bool} {m : Nat} {n : Int}
    (hn : n = if negative then -(m : Int) else m) (hzero : negative = true → 0 < m)
    (hlow : -(2 ^ 63) ≤ n) (hhigh : n < 2 ^ 64) :
    unsignedNumber? negative (Nat.toDigits 10 m) = some (.int n) := by
  have hdigits : ∀ c ∈ Nat.toDigits 10 m, c.isDigit = true :=
    fun c => Number.isDigit_of_mem_toDigits
  have hwhole : (Nat.toDigits 10 m).takeWhile Char.isDigit = Nat.toDigits 10 m :=
    List.takeWhile_eq_self_iff.mpr hdigits
  have hrest : (Nat.toDigits 10 m).dropWhile Char.isDigit = [] :=
    List.dropWhile_eq_nil_iff.mpr hdigits
  have hfits : ((negative && n == 0) || n < -(Number.twoPow 63 : Int) || Number.twoPow 64 ≤ n) =
      false := by
    have hlow' : (Number.twoPow 63 : Int) = 2 ^ 63 := by decide
    have hhigh' : (Number.twoPow 64 : Int) = 2 ^ 64 := by decide
    have hsigned : (negative && n == 0) = false := by
      cases negative with
      | false => rfl
      | true =>
          have hpos := hzero rfl
          simp only [hn, if_true, Bool.true_and, beq_eq_false_iff_ne]
          omega
    simp only [hsigned, Bool.false_or, Bool.or_eq_false_iff, decide_eq_false_iff_not]
    omega
  have hempty : (Nat.toDigits 10 m).isEmpty = false := by simp [Nat.toDigits_ne_nil]
  rw [unsignedNumber?]
  simp only [hwhole, hrest, hempty, Number.toDigits_leads, Nat.ofDigitChars_ten_toDigits, ← hn,
    hfits, Bool.false_or, List.isEmpty_nil, if_true, Bool.false_eq_true, if_false]

theorem word?_number {text : List Char} (h : text.head?.any Char.isAlpha = false) :
    word? text = number? text := by
  have hne : ∀ c rest, c.isAlpha = true → text ≠ c :: rest := by
    rintro c rest hc rfl
    rw [List.head?_cons, Option.any_some, hc] at h
    cases h
  rw [word?, if_neg (hne _ _ rfl), if_neg (hne _ _ rfl), if_neg (hne _ _ rfl)]

theorem isAlpha_of_isDigit {c : Char} (h : c.isDigit = true) : c.isAlpha = false := by
  have hletter : ∀ letter : Char, '9'.toNat < letter.toNat → ¬ letter.val ≤ c.val :=
    fun letter hlt hle => Nat.not_le_of_lt (lt_of_le_of_lt (Char.isDigit_iff_toNat.mp h).2 hlt)
      (UInt32.le_iff_toNat_le.mp hle)
  have hupper : c.isUpper = false :=
    decide_eq_false fun hrange => hletter 'A' (by decide) hrange.1
  have hlower : c.isLower = false :=
    Bool.and_eq_false_iff.mpr (.inl (decide_eq_false (hletter 'a' (by decide))))
  exact Bool.or_eq_false_iff.mpr ⟨hupper, hlower⟩

theorem word?_int {n : Int} (hlow : -(2 ^ 63) ≤ n) (hhigh : n < 2 ^ 64) :
    word? (Double.signed (n < 0) (Nat.toDigits 10 n.natAbs)) = some (.int n) := by
  have hhead : ∀ c, (Nat.toDigits 10 n.natAbs).head? = some c → c.isDigit = true := fun c hc =>
    Number.isDigit_of_mem_toDigits (List.mem_of_mem_head? hc)
  by_cases hneg : n < 0
  · have hsigned : Double.signed (n < 0) (Nat.toDigits 10 n.natAbs) =
        '-' :: Nat.toDigits 10 n.natAbs := by simp [Double.signed, hneg]
    rw [hsigned, word?_number rfl, number?]
    exact unsignedNumber?_toDigits (by rw [if_pos rfl]; omega) (by omega) hlow hhigh
  · have hsigned : Double.signed (n < 0) (Nat.toDigits 10 n.natAbs) =
        Nat.toDigits 10 n.natAbs := by simp [Double.signed, hneg]
    have halpha : (Nat.toDigits 10 n.natAbs).head?.any Char.isAlpha = false := by
      cases hfirst : (Nat.toDigits 10 n.natAbs).head? with
      | none => rfl
      | some c => exact isAlpha_of_isDigit (hhead c hfirst)
    rw [hsigned, word?_number halpha]
    unfold number?
    split
    · next heq =>
      have hminus := hhead '-' (by rw [heq]; rfl)
      cases hminus
    · exact unsignedNumber?_toDigits (by rw [if_neg Bool.false_ne_true]; omega)
        (fun h => nomatch h) hlow hhigh

theorem isWordChar_of_mem_toDigits {n : Nat} {c : Char} (h : c ∈ Nat.toDigits 10 n) :
    isWordChar c = true :=
  isWordChar_of_isDigit (Number.isDigit_of_mem_toDigits h)

theorem isWordChar_of_mem_signed {negative : Bool} {text : List Char}
    (h : ∀ c ∈ text, isWordChar c = true) :
    ∀ c ∈ Double.signed negative text, isWordChar c = true := by
  cases negative with
  | false => exact h
  | true => exact List.forall_mem_cons.mpr ⟨rfl, h⟩

theorem isWordChar_of_mem_placePoint {digits whole : List Char} {point : Int}
    (hdigits : ∀ c ∈ digits, isWordChar c = true) (hwhole : ∀ c ∈ whole, isWordChar c = true) :
    ∀ c ∈ Double.placePoint digits point whole, isWordChar c = true := by
  have hzeros : ∀ n, ∀ c ∈ List.replicate n '0', isWordChar c = true := by
    intro n c hc
    rw [List.eq_of_mem_replicate hc]
    rfl
  intro c hc
  simp only [Double.placePoint] at hc
  split at hc
  · simp only [List.mem_cons, List.mem_append] at hc
    rcases hc with rfl | rfl | hc | hc
    · rfl
    · rfl
    · exact hzeros _ c hc
    · exact hdigits c hc
  · split at hc
    · simp only [List.mem_append] at hc
      rcases hc with (hc | hc) | hc
      · exact hdigits c hc
      · exact hzeros _ c hc
      · exact hwhole c hc
    · simp only [List.mem_append, List.mem_cons] at hc
      rcases hc with hc | rfl | hc
      · exact hdigits c (List.mem_of_mem_take hc)
      · rfl
      · exact hdigits c (List.mem_of_mem_drop hc)

theorem isWordChar_of_mem_scientific {digits : List Char} {exponent : Int}
    (hdigits : ∀ c ∈ digits, isWordChar c = true) :
    ∀ c ∈ Double.scientific digits exponent, isWordChar c = true := by
  intro c hc
  simp only [Double.scientific, List.mem_append, List.mem_cons] at hc
  rcases hc with (hc | hc) | rfl | hc | hc
  · exact hdigits c (List.mem_of_mem_take hc)
  · split at hc
    · cases hc
    · rcases List.mem_cons.mp hc with rfl | hc
      · rfl
      · exact hdigits c (List.mem_of_mem_drop hc)
  · rfl
  · rw [hc]
    split <;> rfl
  · exact isWordChar_of_mem_toDigits hc

theorem isWordChar_of_mem_jsonChars {x : Double} : ∀ c ∈ x.jsonChars, isWordChar c = true := by
  unfold Double.jsonChars
  split
  · refine isWordChar_of_mem_signed ?_
    split
    · exact List.all_eq_true.mp rfl
    · dsimp only
      split
      · exact isWordChar_of_mem_placePoint (fun c => isWordChar_of_mem_toDigits)
          (List.all_eq_true.mp rfl)
      · exact isWordChar_of_mem_scientific fun c => isWordChar_of_mem_toDigits
  · exact List.all_eq_true.mp rfl

theorem unit?_hexChar :
    ∀ n < 0x20, unit? '0' '0' (hexChar (n / 16)) (hexChar (n % 16)) = some n := by
  decide

theorem quoted?_escape (c : Char) (text : List Char) :
    quoted? (escape c ++ text) = (quoted? text).map fun (s, after) => (c :: s, after) := by
  unfold escape
  split
  any_goals rfl
  next hquote hbackslash _ _ _ _ _ =>
  split
  · next hcontrol =>
    have hunit := unit?_hexChar c.toNat hcontrol
    have hlow : isLowHalf c.toNat = false := by
      simp only [isLowHalf, Bool.and_eq_false_iff, decide_eq_false_iff_not]
      omega
    have hhigh : isHighHalf c.toNat = false := by
      simp only [isHighHalf, Bool.and_eq_false_iff, decide_eq_false_iff_not]
      omega
    simp only [List.cons_append, List.nil_append, quoted?, hunit, hlow, hhigh, Char.ofNat_toNat,
      Bool.false_eq_true, if_false]
  · next hplain =>
    have hbare : (c == '\\' || decide (c.toNat < 0x20)) = false := by
      simp only [Bool.or_eq_false_iff, beq_eq_false_iff_ne, decide_eq_false_iff_not]
      exact ⟨hbackslash, hplain⟩
    rw [List.singleton_append, quoted?, hbare]
    · rfl
    · exact fun h => hquote h
    · rintro a b d e rest rfl
      exact (hbackslash rfl).elim
    · rintro e rest rfl
      exact (hbackslash rfl).elim

theorem quoted?_quote (s rest : List Char) :
    quoted? (s.flatMap escape ++ '"' :: rest) = some (s, rest) := by
  induction s with
  | nil => rfl
  | cons c s ih =>
      rw [List.flatMap_cons, List.append_assoc, quoted?_escape, ih]
      rfl

/-- Whatever stands behind the text, if that is not part of a last word, the tokens of the text come
first. -/
def Spells (text : List Char) (tokens : List Token) : Prop :=
  ∀ rest, Apart rest → tokens? (text ++ rest) = (tokens? rest).map (tokens ++ ·)

namespace Spells

variable {text : List Char} {tokens : List Token}

theorem nil : Spells [] [] := by
  intro rest _
  simp

theorem tokens?_eq (h : Spells text tokens) : tokens? text = some tokens := by
  have hend := h [] .nil
  rw [List.append_nil] at hend
  rw [hend, tokens?, Option.map_some, List.append_nil]

theorem word {token : Token} (hne : text ≠ []) (hw : ∀ c ∈ text, isWordChar c = true)
    (h : word? text = some token) : Spells text [token] := by
  intro rest hrest
  rw [tokens?_word hne hw hrest, h]
  rfl

theorem append {text' : List Char} {tokens' : List Token} (h : Spells text tokens)
    (h' : Spells text' tokens') (hapart : Apart text') :
    Spells (text ++ text') (tokens ++ tokens') := by
  intro rest hrest
  have hboth : Apart (text' ++ rest) := by
    cases text' with
    | nil => exact hrest
    | cons c _ => exact .cons (hapart c rfl) _
  rw [List.append_assoc, h _ hboth, h' _ hrest, Option.map_map]
  simp only [Function.comp_def, List.append_assoc]

theorem blank_append {gap : List Char} (hgap : ∀ c ∈ gap, isSpace c = true)
    (h : Spells text tokens) : Spells (gap ++ text) tokens := by
  induction gap with
  | nil => exact h
  | cons c gap ih =>
      obtain ⟨hc, hgap⟩ := List.forall_mem_cons.mp hgap
      intro rest hrest
      rw [List.cons_append, List.cons_append, tokens?, if_pos hc]
      exact ih hgap rest hrest

theorem mark_cons {c : Char} {mark : Token} (hmark : mark? c = some mark)
    (h : Spells text tokens) : Spells (c :: text) (mark :: tokens) := by
  have hspace : isSpace c = false := by
    unfold mark? at hmark
    split at hmark <;> first | rfl | cases hmark
  intro rest hrest
  rw [List.cons_append, tokens?, hspace, hmark, h rest hrest]
  simp only [Bool.false_eq_true, if_false, Option.map_map, Function.comp_def, List.cons_append]

theorem quote_append (s : String) (h : Spells text tokens) :
    Spells (quote s ++ text) (.str s :: tokens) := by
  intro rest hrest
  have hquoted := quoted?_quote s.toList (text ++ rest)
  have hopen : quote s ++ text ++ rest =
      '"' :: (s.toList.flatMap escape ++ '"' :: (text ++ rest)) := by
    simp [quote]
  have hspace : isSpace '"' = false := rfl
  have hmark : mark? '"' = none := rfl
  rw [hopen, tokens?, hspace, hmark]
  simp only [Bool.false_eq_true, if_false, if_true]
  split
  · next hnone =>
    rw [hquoted] at hnone
    cases hnone
  · next s' after hsome =>
    obtain ⟨rfl, rfl⟩ := Prod.mk.inj (Option.some.inj (hquoted.symm.trans hsome))
    rw [h rest hrest, String.ofList_toList, Option.map_map]
    rfl

end Spells

end Json

end TraceAutomata
