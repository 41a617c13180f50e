import Mathlib.Data.List.Infix
import TraceAutomata.Definition.Input

namespace TraceAutomata

theorem Text.occursIn_iff {part text : List Char} :
    Text.occursIn part text = true ↔ part <:+: text := by
  induction text with
  | nil => rw [occursIn, List.isEmpty_iff, List.infix_nil]
  | cons c rest ih =>
      rw [occursIn, Bool.or_eq_true, List.isPrefixOf_iff_prefix, ih, List.infix_cons_iff]

/-- What one place of a pattern stands for. -/
inductive PatternPlace where
  /-- Any characters, or none. -/
  | anything
  | literal (c : Char)
deriving DecidableEq

namespace PatternPlace

/-- The places of a pattern. A star stands for anything if it is the first or the last character;
every other character stands for itself. -/
def ofPattern (pattern : List Char) : List PatternPlace :=
  pattern.mapIdx fun i c =>
    if c = '*' ∧ (i = 0 ∨ i + 1 = pattern.length) then .anything else .literal c

/-- The names that are spelled by places, one place after the other. -/
inductive Spells : List PatternPlace → List Char → Prop
  | done : Spells [] []
  | anything (skipped : List Char) {places : List PatternPlace} {name : List Char}
      (rest : Spells places name) : Spells (.anything :: places) (skipped ++ name)
  | literal (c : Char) {places : List PatternPlace} {name : List Char}
      (rest : Spells places name) : Spells (.literal c :: places) (c :: name)

section Spells

variable {places : List PatternPlace} {name : List Char}

theorem spells_anything_iff :
    Spells (.anything :: places) name ↔ ∃ rest, rest <:+ name ∧ Spells places rest := by
  constructor
  · rintro (_ | ⟨skipped, rest⟩)
    exact ⟨_, List.suffix_append skipped _, rest⟩
  · rintro ⟨rest, ⟨skipped, rfl⟩, hrest⟩
    exact .anything skipped hrest

theorem spells_literals_iff (word : List Char) :
    Spells (word.map .literal ++ places) name ↔ ∃ rest, name = word ++ rest ∧ Spells places rest := by
  induction word generalizing name with
  | nil => simp
  | cons c word ih =>
      constructor
      · rintro (_ | _ | ⟨_, hword⟩)
        obtain ⟨rest, rfl, hrest⟩ := ih.mp hword
        exact ⟨rest, rfl, hrest⟩
      · rintro ⟨rest, rfl, hrest⟩
        exact .literal c (ih.mpr ⟨rest, rfl, hrest⟩)

theorem spells_nil_iff : Spells [] name ↔ name = [] := by
  constructor
  · rintro ⟨⟩
    rfl
  · rintro rfl
    exact .done

theorem spells_word_iff (word : List Char) : Spells (word.map .literal) name ↔ name = word := by
  rw [← List.append_nil (word.map _), spells_literals_iff]
  simp [spells_nil_iff]

theorem spells_last : Spells [.anything] name :=
  spells_anything_iff.mpr ⟨[], List.nil_suffix, .done⟩

theorem spells_prefix_iff (word : List Char) :
    Spells (word.map .literal ++ [.anything]) name ↔ word <+: name := by
  rw [spells_literals_iff]
  constructor
  · rintro ⟨rest, rfl, -⟩
    exact List.prefix_append word rest
  · rintro ⟨rest, rfl⟩
    exact ⟨rest, rfl, spells_last⟩

end Spells

section OfPattern

theorem mapIdx_literal {f : Nat → Char → PatternPlace} {word : List Char}
    (h : ∀ i (hi : i < word.length), f i word[i] = .literal word[i]) :
    word.mapIdx f = word.map .literal := by
  apply List.ext_getElem
  · rw [List.length_mapIdx, List.length_map]
  · intro i hi _
    rw [List.getElem_mapIdx, List.getElem_map, h]

theorem ofPattern_stars (inner : List Char) :
    ofPattern ('*' :: (inner ++ ['*'])) = .anything :: (inner.map .literal ++ [.anything]) := by
  have hinner : inner.mapIdx (fun i c => if c = '*' ∧ (i + 1 = 0 ∨ i + 1 + 1 =
      ('*' :: (inner ++ ['*'])).length) then anything else .literal c) = inner.map .literal := by
    refine mapIdx_literal fun i hi => if_neg ?_
    simp only [List.length_cons, List.length_append, List.length_nil]
    omega
  rw [ofPattern, List.mapIdx_cons, List.mapIdx_append, hinner]
  simp

theorem ofPattern_last {c : Char} (word : List Char) (hc : c ≠ '*') :
    ofPattern (c :: (word ++ ['*'])) = (c :: word).map .literal ++ [.anything] := by
  have hword : word.mapIdx (fun i c' => if c' = '*' ∧ (i + 1 = 0 ∨ i + 1 + 1 =
      (c :: (word ++ ['*'])).length) then anything else .literal c') = word.map .literal := by
    refine mapIdx_literal fun i hi => if_neg ?_
    simp only [List.length_cons, List.length_append, List.length_nil]
    omega
  rw [ofPattern, List.mapIdx_cons, List.mapIdx_append, hword]
  simp [hc]

theorem ofPattern_first {word : List Char} (hlast : word.getLast? ≠ some '*') :
    ofPattern ('*' :: word) = .anything :: word.map .literal := by
  rw [ofPattern, List.mapIdx_cons, mapIdx_literal]
  · simp
  · intro i hi
    refine if_neg ?_
    rintro ⟨hstar, hzero | hend⟩
    · cases hzero
    · rw [List.length_cons, Nat.add_right_cancel_iff] at hend
      refine hlast ?_
      rw [List.getLast?_eq_getElem?, ← hend, Nat.add_sub_cancel, List.getElem?_eq_getElem hi, hstar]

theorem ofPattern_word {word : List Char} (hfirst : word.head? ≠ some '*')
    (hlast : word.getLast? ≠ some '*') : ofPattern word = word.map .literal := by
  refine mapIdx_literal fun i hi => if_neg ?_
  rintro ⟨hstar, rfl | hend⟩
  · rw [List.head?_eq_getElem?, List.getElem?_eq_getElem hi, hstar] at hfirst
    exact hfirst rfl
  · refine hlast ?_
    rw [List.getLast?_eq_getElem?, ← hend, Nat.add_sub_cancel, List.getElem?_eq_getElem hi, hstar]

end OfPattern

end PatternPlace

open PatternPlace

theorem nameMatches_iff (pattern name : String) :
    nameMatches pattern name = true ↔
      pattern = "any" ∨ pattern = "#any" ∨ Spells (ofPattern pattern.toList) name.toList := by
  rw [nameMatches, ← or_assoc]
  by_cases hany : pattern = "any" ∨ pattern = "#any"
  · simp [hany]
  · rw [if_neg (by simpa using hany), or_iff_right hany]
    have hword : (pattern == name) = true ↔ name.toList = pattern.toList := by
      rw [beq_iff_eq, eq_comm, String.toList_inj]
    generalize pattern.toList = p at hword ⊢
    generalize name.toList = n at hword ⊢
    simp only [Bool.and_eq_true, beq_iff_eq]
    split
    · next hstars =>
      obtain ⟨word, rfl⟩ := List.head?_eq_some_iff.mp hstars.1
      obtain ⟨inner, hinner⟩ := List.getLast?_eq_some_iff.mp hstars.2
      obtain rfl : word = inner ++ ['*'] := hinner
      rw [ofPattern_stars, spells_anything_iff, List.drop_one, List.tail_cons,
        List.dropLast_concat, Text.occursIn_iff,
        List.infix_iff_prefix_suffix]
      exact exists_congr fun rest => by rw [spells_prefix_iff, and_comm]
    · next hstars =>
      split
      · next hlast =>
        obtain ⟨word, rfl⟩ := List.getLast?_eq_some_iff.mp hlast
        rw [List.dropLast_concat, List.isPrefixOf_iff_prefix]
        cases word with
        | nil => simpa [ofPattern] using spells_last
        | cons c word =>
            have hc : c ≠ '*' := by
              rintro rfl
              exact hstars ⟨rfl, by simp⟩
            rw [List.cons_append, ofPattern_last word hc, spells_prefix_iff]
      · next hlast =>
        split
        · next hfirst =>
          obtain ⟨word, rfl⟩ := List.head?_eq_some_iff.mp hfirst
          have hend : word.getLast? ≠ some '*' := fun h => hstars ⟨hfirst, h⟩
          rw [ofPattern_first hend, spells_anything_iff]
          simp [spells_word_iff]
        · next hfirst => rw [hword, ofPattern_word hfirst hlast, spells_word_iff]

/-- A name matches a pattern exactly if the pattern is one of the two for every name or its places spell
the name, with stars for anything at its two ends only; patterns of nothing but such stars match every
name. A test matches a name exactly if one of its patterns does. -/
theorem event_names_match :
    (∀ pattern name : String, nameMatches pattern name = true ↔
      pattern = "any" ∨ pattern = "#any" ∨ Spells (ofPattern pattern.toList) name.toList) ∧
    (∀ name : String, nameMatches "*" name = true ∧ nameMatches "**" name = true) ∧
    ∀ (t : EventTest) (name : String),
      t.matchesName name = true ↔ ∃ pattern ∈ t.names, nameMatches pattern name = true := by
  refine ⟨nameMatches_iff, fun name => ⟨?_, ?_⟩, fun t name => List.any_eq_true⟩
  · rw [nameMatches_iff]
    exact .inr (.inr spells_last)
  · rw [nameMatches_iff]
    exact .inr (.inr (.anything [] spells_last))

/-- The star in the middle stands for itself, the one at the end for anything. -/
example : nameMatches "a*b*" "a*b.c" = true ∧ nameMatches "a*b*" "a.b.c" = false := by
  decide

end TraceAutomata
