import Mathlib.Data.List.DropRight
import TraceAutomata.Text.Alphanumeric
import TraceAutomata.Text.Blank

namespace TraceAutomata.Text

theorem trimChars_eq (text : List Char) :
    trimChars text = (text.dropWhile isBlank).rdropWhile isBlank := rfl

theorem trimChars_trimChars (text : List Char) : trimChars (trimChars text) = trimChars text := by
  have hstart : (trimChars text).dropWhile isBlank = trimChars text := by
    rw [List.dropWhile_eq_self_iff]
    intro hlength
    have hle : trimChars text <+: text.dropWhile isBlank := List.rdropWhile_prefix _ _
    rw [hle.getElem hlength]
    exact List.dropWhile_eq_self_iff.mp (List.dropWhile_idempotent _ _) _
  rw [trimChars_eq, hstart, trimChars_eq, List.rdropWhile_idempotent]

theorem mem_of_mem_trimChars {text : List Char} {c : Char} (h : c ∈ trimChars text) : c ∈ text :=
  (List.dropWhile_suffix _).mem ((List.rdropWhile_prefix _ _).mem h)

variable {separates : Char → Bool}

theorem separates_of_mem_split {text part : List Char} (h : part ∈ split separates text) {c : Char}
    (hc : c ∈ part) : separates c = false := by
  induction text generalizing part with
  | nil =>
      obtain rfl := List.mem_singleton.mp h
      cases hc
  | cons first rest ih =>
      rw [split] at h
      split at h
      · rcases List.mem_cons.mp h with rfl | h
        · cases hc
        · exact ih h hc
      · next hfirst =>
        have hfirst' : separates first = false := by simpa using hfirst
        split at h
        · next hnil =>
          obtain rfl := List.mem_singleton.mp h
          obtain rfl := List.mem_singleton.mp hc
          exact hfirst'
        · next head parts heq =>
          rcases List.mem_cons.mp h with rfl | h
          · rcases List.mem_cons.mp hc with rfl | hc
            · exact hfirst'
            · exact ih (heq ▸ List.mem_cons_self) hc
          · exact ih (heq ▸ List.mem_cons_of_mem _ h) hc

theorem split_ne_nil (text : List Char) : split separates text ≠ [] := by
  cases text with
  | nil => exact List.cons_ne_nil _ _
  | cons c rest =>
      rw [split]
      split
      · exact List.cons_ne_nil _ _
      · split <;> exact List.cons_ne_nil _ _

theorem split_eq_singleton {text : List Char} (h : ∀ c ∈ text, separates c = false) :
    split separates text = [text] := by
  induction text with
  | nil => rfl
  | cons first rest ih =>
      obtain ⟨hfirst, hrest⟩ := List.forall_mem_cons.mp h
      rw [split, hfirst, ih hrest]
      rfl

theorem split_append_cons {part : List Char} (h : ∀ c ∈ part, separates c = false)
    {mark : Char} (hmark : separates mark = true) (rest : List Char) :
    split separates (part ++ mark :: rest) = part :: split separates rest := by
  induction part with
  | nil => rw [List.nil_append, split, if_pos hmark]
  | cons first part ih =>
      obtain ⟨hfirst, hpart⟩ := List.forall_mem_cons.mp h
      rw [List.cons_append, split, hfirst, ih hpart]
      rfl

/-- A text stands as one part between separators of another one, or its ends. -/
structure IsPart (separates : Char → Bool) (part text before after : List Char) : Prop where
  eq : text = before ++ part ++ after
  plain : ∀ c ∈ part, separates c = false
  start : ∀ c ∈ before.getLast?, separates c = true
  stop : ∀ c ∈ after.head?, separates c = true

theorem split_append_cons_subset (before : List Char) {mark : Char}
    (hmark : separates mark = true) (rest : List Char) :
    split separates rest ⊆ (split separates (before ++ mark :: rest)).tail := by
  induction before with
  | nil => simp [split, hmark]
  | cons c before ih =>
      rw [List.cons_append, split]
      split
      · exact fun part hpart => List.mem_of_mem_tail (ih hpart)
      · split
        · next hnil =>
          rw [hnil] at ih
          exact fun part hpart => absurd (ih hpart) List.not_mem_nil
        · next heq => rwa [heq] at ih

theorem IsPart.mem_split {part text before after : List Char}
    (h : IsPart separates part text before after) : part ∈ split separates text := by
  obtain ⟨rfl, hplain, hstart, hstop⟩ := h
  have hmem : part ∈ split separates (part ++ after) := by
    cases after with
    | nil => simp [split_eq_singleton hplain]
    | cons mark rest => simp [split_append_cons hplain (hstop mark rfl)]
  rcases List.eq_nil_or_concat before with rfl | ⟨front, mark, rfl⟩
  · exact hmem
  · have hmark : separates mark = true := hstart mark (by simp)
    have hsubset := split_append_cons_subset front hmark (part ++ after)
    simpa using List.mem_of_mem_tail (hsubset hmem)

theorem mem_split_iff {part text : List Char} :
    part ∈ split separates text ↔ ∃ before after, IsPart separates part text before after := by
  refine ⟨fun h => ?_, fun ⟨_, _, h⟩ => h.mem_split⟩
  induction hlength : text.length using Nat.strong_induction_on generalizing text with
  | h n ih =>
      cases hfound : text.find? separates with
      | none =>
          have hplain : ∀ c ∈ text, separates c = false := by simpa using hfound
          rw [split_eq_singleton hplain] at h
          obtain rfl := List.mem_singleton.mp h
          exact ⟨[], [], by simp, hplain, by simp, by simp⟩
      | some mark =>
          obtain ⟨hmark, first, rest, rfl, hplain⟩ := List.find?_eq_some_iff_append.mp hfound
          replace hplain : ∀ c ∈ first, separates c = false := by simpa using hplain
          rw [split_append_cons hplain hmark] at h
          rcases List.mem_cons.mp h with rfl | h
          · exact ⟨[], mark :: rest, by simp, hplain, by simp, by simpa using hmark⟩
          · obtain ⟨before, after, rfl, hpart, hstart, hstop⟩ :=
              ih rest.length (by simp at hlength; omega) h rfl
            refine ⟨first ++ mark :: before, after, by simp, hpart, fun c hc => ?_, hstop⟩
            rw [List.getLast?_append, List.getLast?_cons, Option.some_or,
              Option.mem_some_iff] at hc
            cases hlast : before.getLast? with
            | none =>
                rw [hlast, Option.getD_none] at hc
                exact hc ▸ hmark
            | some last =>
                rw [hlast, Option.getD_some] at hc
                exact hstart c (hc ▸ hlast)

def Blank (text : List Char) : Prop :=
  ∀ c ∈ text, isBlank c = true

/-- A text that neither begins nor ends with a blank, and is not empty. -/
structure Tight (text : List Char) : Prop where
  first : ∃ c rest, text = c :: rest ∧ isBlank c = false
  last : ∃ front c, text = front ++ [c] ∧ isBlank c = false

theorem blank_nil : Blank [] := List.forall_mem_nil _

theorem dropBlank_append {w : List Char} (hw : Blank w) (text : List Char) :
    dropBlank (w ++ text) = dropBlank text :=
  List.dropWhile_append_of_pos hw

theorem dropBlank_cons {c : Char} (hc : isBlank c = false) (rest : List Char) :
    dropBlank (c :: rest) = c :: rest := by
  rw [dropBlank, List.dropWhile_cons, hc]
  rfl

theorem dropBlank_append_cons {w : List Char} (hw : Blank w) {c : Char} (hc : isBlank c = false)
    (rest : List Char) : dropBlank (w ++ c :: rest) = c :: rest := by
  rw [dropBlank_append hw, dropBlank_cons hc]

theorem trimChars_padded {w w' text : List Char} (hw : Blank w) (hw' : Blank w') (h : Tight text) :
    trimChars (w ++ text ++ w') = text := by
  obtain ⟨c, rest, hfirst, hc⟩ := h.first
  obtain ⟨front, d, hlast, hd⟩ := h.last
  have hstart : dropBlank (w ++ text ++ w') = text ++ w' := by
    rw [List.append_assoc, dropBlank_append hw, hfirst, List.cons_append, dropBlank_cons hc]
  have hblank : Blank w'.reverse := fun c hc => hw' c (List.mem_reverse.mp hc)
  have hend : dropBlank (text ++ w').reverse = text.reverse := by
    rw [List.reverse_append, dropBlank_append hblank, hlast, List.reverse_append,
      List.reverse_singleton, List.singleton_append, dropBlank_cons hd]
  rw [trimChars, hstart, hend, List.reverse_reverse]

namespace Tight

variable {text : List Char}

theorem single {c : Char} (hc : isBlank c = false) : Tight [c] :=
  ⟨⟨c, [], rfl, hc⟩, ⟨[], c, rfl, hc⟩⟩

theorem cons {c : Char} (hc : isBlank c = false) (h : Tight text) : Tight (c :: text) := by
  obtain ⟨front, d, rfl, hd⟩ := h.last
  exact ⟨⟨c, front ++ [d], rfl, hc⟩, ⟨c :: front, d, rfl, hd⟩⟩

theorem of_forall (hne : text ≠ []) (h : ∀ c ∈ text, isBlank c = false) : Tight text := by
  obtain ⟨c, rest, hfirst⟩ := List.exists_cons_of_ne_nil hne
  refine ⟨⟨c, rest, hfirst, h c (hfirst ▸ List.mem_cons_self)⟩, ?_⟩
  exact ⟨text.dropLast, text.getLast hne, (List.dropLast_append_getLast hne).symm,
    h _ (List.getLast_mem hne)⟩

theorem around {front back : List Char} (hfront : Tight front) (middle : List Char)
    (hback : Tight back) : Tight (front ++ middle ++ back) := by
  obtain ⟨c, rest, rfl, hc⟩ := hfront.first
  obtain ⟨start, d, rfl, hd⟩ := hback.last
  exact ⟨⟨c, rest ++ middle ++ (start ++ [d]), by simp, hc⟩,
    ⟨c :: rest ++ middle ++ start, d, by simp, hd⟩⟩

theorem of_trimmed (hne : text ≠ []) (h : trimChars text = text) : Tight text := by
  have hinit : text <+: dropBlank text := by
    have hle : trimChars text <+: dropBlank text := List.rdropWhile_prefix _ _
    rwa [h] at hle
  have hdrop : dropBlank text = text :=
    (hinit.eq_of_length_le (length_dropBlank_le text)).symm
  have hrdrop : dropBlank text.reverse = text.reverse := by
    have htrim := congrArg List.reverse h
    rwa [trimChars, hdrop, List.reverse_reverse] at htrim
  have hhead : ∀ {l : List Char}, l ≠ [] → dropBlank l = l →
      ∃ c rest, l = c :: rest ∧ isBlank c = false := by
    intro l hl hsame
    obtain ⟨c, rest, rfl⟩ := List.exists_cons_of_ne_nil hl
    refine ⟨c, rest, rfl, ?_⟩
    by_contra hc
    have hlen := length_dropBlank_le rest
    rw [Bool.not_eq_false] at hc
    rw [dropBlank, List.dropWhile_cons, if_pos hc] at hsame
    rw [dropBlank, hsame, List.length_cons] at hlen
    omega
  obtain ⟨c, rest, hrest, hc⟩ := hhead (by simpa using hne) hrdrop
  refine ⟨hhead hne hdrop, rest.reverse, c, ?_, hc⟩
  rw [← List.reverse_reverse text, hrest, List.reverse_cons]

end Tight

theorem trimChars_eq_nil_iff (text : List Char) : trimChars text = [] ↔ Blank text := by
  rw [trimChars_eq, List.rdropWhile_eq_nil_iff]
  constructor
  · intro h c hc
    rw [← List.takeWhile_append_dropWhile (p := isBlank) (l := text)] at hc
    rcases List.mem_append.mp hc with hc | hc
    · exact List.mem_takeWhile_imp hc
    · exact h c hc
  · exact fun h c hc => h c ((List.dropWhile_suffix _).mem hc)

theorem trimChars_eq_iff {text part : List Char} :
    (part ≠ [] ∧ trimChars text = part) ↔
      Tight part ∧ ∃ w w', Blank w ∧ Blank w' ∧ text = w ++ part ++ w' := by
  constructor
  · rintro ⟨hne, rfl⟩
    refine ⟨.of_trimmed hne (trimChars_trimChars text), text.takeWhile isBlank,
      (text.dropWhile isBlank).rtakeWhile isBlank, fun c hc => List.mem_takeWhile_imp hc,
      fun c hc => List.mem_rtakeWhile_imp hc, ?_⟩
    rw [trimChars_eq, List.append_assoc, List.rdropWhile_append_rtakeWhile,
      List.takeWhile_append_dropWhile]
  · rintro ⟨htight, w, w', hw, hw', rfl⟩
    obtain ⟨c, rest, hfirst, -⟩ := htight.first
    exact ⟨hfirst ▸ List.cons_ne_nil c rest, trimChars_padded hw hw' htight⟩

def blankCodes : List Nat :=
  [9, 10, 11, 12, 13, 0x20, 0x85, 0xA0, 0x1680, 0x2000, 0x2001, 0x2002, 0x2003, 0x2004, 0x2005,
    0x2006, 0x2007, 0x2008, 0x2009, 0x200A, 0x2028, 0x2029, 0x202F, 0x205F, 0x3000]

theorem isIdentifierChar_of_isBlank {c : Char} (h : isBlank c = true) :
    isIdentifierChar c = false := by
  have hcodes : ∀ n ∈ blankCodes, isIdentifierChar (Char.ofNat n) = false := by decide +kernel
  have hmem : c.toNat ∈ blankCodes := by
    simp only [isBlank, Bool.or_eq_true, Bool.and_eq_true, decide_eq_true_eq, beq_iff_eq] at h
    simp only [blankCodes, List.mem_cons, List.not_mem_nil, or_false]
    omega
  rw [← Char.ofNat_toNat c]
  exact hcodes _ hmem

theorem isIdentifierChar_of_isDigit {c : Char} (h : c.isDigit = true) :
    isIdentifierChar c = true := by
  have hrange : 0x30 ≤ c.toNat ∧ c.toNat ≤ 0x39 := by
    simpa [Char.isDigit, UInt32.le_iff_toNat_le] using h
  have hany : isAlphanumeric c = true := by
    refine List.any_eq_true.mpr ⟨(0x30, 0x39), List.mem_cons_self, ?_⟩
    simp only [hrange.1, hrange.2, decide_true, Bool.and_true]
  rw [isIdentifierChar, hany, Bool.or_true]

/-- A text that no identifier before it can go on with. -/
def Bounded (text : List Char) : Prop :=
  ∀ c ∈ text.head?, isIdentifierChar c = false

theorem bounded_nil : Bounded [] := fun _ h => nomatch h

theorem bounded_cons {c : Char} (hc : isIdentifierChar c = false) (rest : List Char) :
    Bounded (c :: rest) := by
  intro d hd
  rw [List.head?_cons, Option.mem_some_iff] at hd
  exact hd ▸ hc

theorem Bounded.append {w text : List Char} (hw : Blank w) (h : Bounded text) :
    Bounded (w ++ text) := by
  cases w with
  | nil => exact h
  | cons c w => exact bounded_cons (isIdentifierChar_of_isBlank (hw c List.mem_cons_self)) _

theorem Bounded.cases {text : List Char} (h : Bounded text) :
    text = [] ∨ ∃ c rest, text = c :: rest ∧ isIdentifierChar c = false := by
  cases text with
  | nil => exact .inl rfl
  | cons c rest => exact .inr ⟨c, rest, rfl, h c rfl⟩

theorem Bounded.span {p : Char → Bool} (hp : ∀ c, p c = true → isIdentifierChar c = true)
    {rest : List Char} (h : Bounded rest) {word : List Char} (hword : ∀ c ∈ word, p c = true) :
    (word ++ rest).takeWhile p = word ∧ (word ++ rest).dropWhile p = rest := by
  have hstop : rest.takeWhile p = [] ∧ rest.dropWhile p = rest := by
    rcases h.cases with rfl | ⟨c, after, rfl, hc⟩
    · exact ⟨rfl, rfl⟩
    · have hnot : p c = false := by
        by_contra hpc
        rw [hp c (by simpa using hpc)] at hc
        cases hc
      rw [List.takeWhile_cons, List.dropWhile_cons, hnot]
      exact ⟨rfl, rfl⟩
  rw [List.takeWhile_append_of_pos hword, List.dropWhile_append_of_pos hword, hstop.1, hstop.2,
    List.append_nil]
  exact ⟨rfl, rfl⟩

end TraceAutomata.Text
