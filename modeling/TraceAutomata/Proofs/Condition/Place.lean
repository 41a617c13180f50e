import Mathlib.Data.List.Forall2
import TraceAutomata.Proofs.Condition.Operand

/-!
Places in a condition text. What stands in a string literal is passed over as a whole, and so is a
query with its parentheses; what the reader reads it reads at places that are reached in this way.
-/

namespace TraceAutomata.Condition

open Text

/-- A place of a text that is reached without a stop within a string literal. A quote begins one,
unless it stands within the parentheses of a query. -/
inductive Ahead : List Char → List Char → Prop
  | here (text : List Char) : Ahead text text
  | char {c : Char} {rest place : List Char} (hc : c ≠ '"') (h : Ahead rest place) :
      Ahead (c :: rest) place
  | literal {rest s after place : List Char} (hs : stringBody? rest = some (s, after))
      (h : Ahead after place) : Ahead ('"' :: rest) place
  | query {w body after place : List Char} (hw : Blank w) (hbody : ')' ∉ body)
      (h : Ahead after place) :
      Ahead ("query".toList ++ w ++ '(' :: (body ++ ')' :: after)) place

variable {text place rest : List Char}

namespace Ahead

theorem trans {later : List Char} (h : Ahead text place) (h' : Ahead place later) :
    Ahead text later := by
  induction h with
  | here => exact h'
  | char hc _ ih => exact .char hc (ih h')
  | literal hs _ ih => exact .literal hs (ih h')
  | query hw hbody _ ih => exact .query hw hbody (ih h')

theorem of_append {front : List Char} (h : '"' ∉ front) (rest : List Char) :
    Ahead (front ++ rest) rest := by
  induction front with
  | nil => exact .here rest
  | cons c front ih =>
      rw [List.mem_cons, not_or] at h
      exact .char (Ne.symm h.1) (ih h.2)

theorem dropWhile {p : Char → Bool} (hp : p '"' = false) (text : List Char) :
    Ahead text (text.dropWhile p) := by
  have hfront : '"' ∉ text.takeWhile p := fun hmem =>
    Bool.false_ne_true (hp.symm.trans (List.mem_takeWhile_imp hmem))
  have h := of_append hfront (text.dropWhile p)
  rwa [List.takeWhile_append_dropWhile] at h

theorem dropBlank (text : List Char) : Ahead text (dropBlank text) :=
  dropWhile (by decide) text

theorem of_dropBlank (front : List Char) (htext : Text.dropBlank text = front ++ rest)
    (hfront : '"' ∉ front) : Ahead text rest :=
  (dropBlank text).trans (htext ▸ of_append hfront rest)

end Ahead

theorem stringBody?_append {s : List Char} (h : stringBody? text = some (s, rest))
    (tail : List Char) : stringBody? (text ++ tail) = some (s, rest ++ tail) := by
  fun_induction stringBody? text generalizing s with
  | case1 => cases h
  | case2 after =>
      obtain ⟨rfl, rfl⟩ := Prod.mk.inj (Option.some.inj h)
      rfl
  | case3 => cases h
  | case4 c after ih =>
      obtain ⟨⟨s', rest'⟩, hbody, heq⟩ := Option.map_eq_some_iff.mp h
      obtain ⟨rfl, rfl⟩ := Prod.mk.inj heq
      rw [List.cons_append, List.cons_append, stringBody?, ih hbody]
      rfl
  | case5 c after hquote hlast hescape ih =>
      obtain ⟨⟨s', rest'⟩, hbody, heq⟩ := Option.map_eq_some_iff.mp h
      obtain ⟨rfl, rfl⟩ := Prod.mk.inj heq
      have hplain : c ≠ '\\' := by
        intro hc
        cases after with
        | nil => exact hlast hc rfl
        | cons c' after => exact hescape c' after hc rfl
      rw [List.cons_append, stringBody?, ih hbody]
      · rfl
      · exact hquote
      · exact fun hc => (hplain hc).elim
      · exact fun _ _ hc => (hplain hc).elim

theorem Ahead.append (h : Ahead text place) (tail : List Char) :
    Ahead (text ++ tail) (place ++ tail) := by
  induction h with
  | here text => exact .here _
  | char hc _ ih => exact .char hc ih
  | literal hs _ ih => exact .literal (stringBody?_append hs tail) ih
  | query hw hbody _ ih =>
      have h := Ahead.query hw hbody ih
      simpa using h

theorem identifier_eq {word : String} (h : identifier text = .ok (word, rest)) :
    word ≠ "" ∧ text = word.toList ++ rest := by
  unfold identifier at h
  split at h
  · cases h
  · next hne =>
    obtain ⟨rfl, rfl⟩ := Prod.mk.inj (Except.ok.inj h)
    refine ⟨fun hempty => hne ?_, ?_⟩
    · rw [String.ofList_eq_empty_iff.mp hempty]
      rfl
    · rw [String.toList_ofList, List.takeWhile_append_dropWhile]

theorem identifier_ahead {word : String} (h : identifier text = .ok (word, rest)) :
    Ahead text rest := by
  unfold identifier at h
  split at h
  · cases h
  · obtain ⟨-, rfl⟩ := Prod.mk.inj (Except.ok.inj h)
    exact .dropWhile (isIdentifierChar_of_mark '"' (by decide)) text

theorem splitSign_ahead (text : List Char) : Ahead text (splitSign text).2 := by
  unfold splitSign
  split
  · exact .char (by decide) (.here _)
  · exact .here _

theorem number_ahead {value : Value} (h : number text = .ok (value, rest)) : Ahead text rest := by
  have hdigits := (splitSign_ahead text).trans (.dropWhile (p := Char.isDigit) (by decide) _)
  unfold number at h
  simp only at h
  split at h
  · next after hafter =>
    rw [hafter] at hdigits
    split at h
    · obtain ⟨-, rfl⟩ := Prod.mk.inj (Except.ok.inj h)
      exact hdigits.trans (.char (by decide) (.dropWhile (by decide) after))
    · cases h
  · split at h
    · obtain ⟨-, rfl⟩ := Prod.mk.inj (Except.ok.inj h)
      exact hdigits
    · cases h

theorem parentheses_eq {inner : List Char} {c : Char} (hopen : dropBlank text = '(' :: inner)
    (hclose : inner.dropWhile (· != ')') = c :: rest) :
    ∃ w, Blank w ∧ ')' ∉ inner.takeWhile (· != ')') ∧
      text = w ++ '(' :: (inner.takeWhile (· != ')') ++ ')' :: rest) := by
  have hblank : text.takeWhile isBlank ++ dropBlank text = text := List.takeWhile_append_dropWhile
  have hinner : inner.takeWhile (· != ')') ++ inner.dropWhile (· != ')') = inner :=
    List.takeWhile_append_dropWhile
  obtain rfl : c = ')' := by
    have hstop := List.head?_dropWhile_not (· != ')') inner
    rw [hclose] at hstop
    simpa using hstop
  refine ⟨text.takeWhile isBlank, fun c => List.mem_takeWhile_imp, fun hmem => ?_, ?_⟩
  · simpa using List.mem_takeWhile_imp hmem
  · rw [← hclose, hinner, ← hopen, hblank]

theorem queryPath_eq {path : AttributePath} (h : queryPath text = .ok (path, rest)) :
    ∃ w body, Blank w ∧ ')' ∉ body ∧ text = w ++ '(' :: (body ++ ')' :: rest) ∧
      pathOfBody body = .ok path := by
  unfold queryPath at h
  split at h
  · next inner hopen =>
    split at h
    · cases h
    · next hclose =>
      obtain ⟨w, hw, hbody, htext⟩ := parentheses_eq hopen hclose
      split at h
      · next hpath =>
        obtain ⟨rfl, rfl⟩ := Prod.mk.inj (Except.ok.inj h)
        exact ⟨w, _, hw, hbody, htext, hpath⟩
      · cases h
  · cases h

theorem wordOperand_ahead {source : ValueSource} (h : wordOperand text = .ok (source, rest)) :
    Ahead text rest := by
  unfold wordOperand at h
  cases hword : identifier text with
  | error m => rw [hword] at h; cases h
  | ok read =>
      obtain ⟨word, after⟩ := read
      have hafter := identifier_ahead hword
      rw [hword] at h
      simp only [bind, Except.bind, pure, Except.pure] at h
      split at h
      · cases h
        exact hafter
      split at h
      · cases h
        exact hafter
      split at h
      · cases h
        exact hafter
      split at h
      · next hquery =>
        split at h
        · cases h
        · next read hpath =>
          obtain ⟨path, after'⟩ := read
          obtain ⟨-, rfl⟩ := Prod.mk.inj (Except.ok.inj h)
          obtain ⟨w, body, hw, hbody, rfl, -⟩ := queryPath_eq hpath
          obtain ⟨-, rfl⟩ := identifier_eq hword
          rw [hquery, ← List.append_assoc]
          exact .query hw hbody (.here _)
      · cases h

theorem exists_of_map_ok {α β : Type} {r : Reading α} {f : α → β} {b : β}
    (h : r.map (fun (a, after) => (f a, after)) = .ok (b, rest)) : ∃ a, r = .ok (a, rest) ∧ b = f a := by
  cases r with
  | error m => cases h
  | ok read =>
      obtain ⟨rfl, rfl⟩ := Prod.mk.inj (Except.ok.inj h)
      exact ⟨read.1, rfl, rfl⟩

theorem operand_ahead {source : ValueSource} (h : operand text = .ok (source, rest)) :
    Ahead text rest := by
  have hblank := Ahead.dropBlank text
  unfold operand at h
  split at h
  · cases h
  · next after htext =>
    obtain ⟨word, hword, -⟩ := exists_of_map_ok h
    exact (hblank.trans (htext ▸ .char (by decide) (.here after))).trans (identifier_ahead hword)
  · next after htext =>
    obtain ⟨word, hword, -⟩ := exists_of_map_ok h
    exact (hblank.trans (htext ▸ .char (by decide) (.here after))).trans (identifier_ahead hword)
  · next inner htext =>
    split at h
    · next s after hs =>
      obtain ⟨-, rfl⟩ := Prod.mk.inj (Except.ok.inj h)
      exact hblank.trans (htext ▸ .literal hs (.here after))
    · cases h
  · next c after _ _ _ htext =>
    rw [htext] at hblank
    split at h
    · obtain ⟨value, hvalue, -⟩ := exists_of_map_ok h
      exact hblank.trans (number_ahead hvalue)
    · exact hblank.trans (wordOperand_ahead h)

theorem operator?_ahead {op : CompareOp} (h : operator? text = some (op, rest)) :
    Ahead text rest := by
  unfold operator? at h
  split at h <;> cases h
  · exact .char (by decide) (.char (by decide) (.here rest))
  · exact .char (by decide) (.char (by decide) (.here rest))
  · exact .char (by decide) (.char (by decide) (.here rest))
  · exact .char (by decide) (.char (by decide) (.here rest))
  · exact .char (by decide) (.here rest)
  · exact .char (by decide) (.here rest)

theorem comparison_ahead {c : Condition} (h : comparison text = .ok (c, rest)) :
    Ahead text rest := by
  unfold comparison at h
  cases hl : operand text with
  | error m => rw [hl] at h; cases h
  | ok read =>
      obtain ⟨left, after⟩ := read
      have hafter := operand_ahead hl
      rw [hl] at h
      simp only [bind, Except.bind, pure, Except.pure] at h
      split at h
      · next op place hop =>
        have hplace := (hafter.trans (.dropBlank after)).trans (operator?_ahead hop)
        split at h
        · cases h
        · next read hr =>
          obtain ⟨right, rest'⟩ := read
          obtain ⟨-, rfl⟩ := Prod.mk.inj (Except.ok.inj h)
          exact hplace.trans (operand_ahead hr)
      · obtain ⟨-, rfl⟩ := Prod.mk.inj (Except.ok.inj h)
        exact hafter

/-- What stands between the parentheses of a query of the text, outside of its string literals. -/
def QueryIn (text body : List Char) : Prop :=
  ∃ w after, Blank w ∧ ')' ∉ body ∧
    Ahead text ("query".toList ++ w ++ '(' :: (body ++ ')' :: after))

/-- What stands between the parentheses of the query with which the text begins, and behind them. -/
def queryBody? : List Char → Option (List Char × List Char)
  | 'q' :: 'u' :: 'e' :: 'r' :: 'y' :: rest =>
      match dropBlank rest with
      | '(' :: inner =>
          match inner.dropWhile (· != ')') with
          | _ :: after => some (inner.takeWhile (· != ')'), after)
          | [] => none
      | _ => none
  | _ => none

/-- The places behind the character, string literal or query with which the text begins. -/
def nextPlaces (text : List Char) : List (List Char) :=
  let behind :=
    match text with
    | [] => []
    | '"' :: rest => (stringBody? rest).toList.map Prod.snd
    | _ :: rest => [rest]
  behind ++ (queryBody? text).toList.map Prod.snd

/-- The places that are ahead in a text of at most so many characters. -/
def placesAhead : Nat → List Char → List (List Char)
  | 0, text => [text]
  | n + 1, text => text :: (nextPlaces text).flatMap (placesAhead n)

theorem queryBody?_eq_some_iff {body after : List Char} :
    queryBody? text = some (body, after) ↔
      ∃ w, Blank w ∧ ')' ∉ body ∧ text = "query".toList ++ w ++ '(' :: (body ++ ')' :: after) := by
  constructor
  · intro h
    unfold queryBody? at h
    split at h
    · next rest =>
      split at h
      · next inner hopen =>
        split at h
        · next hclose =>
          obtain ⟨w, hw, hbody, hrest⟩ := parentheses_eq hopen hclose
          obtain ⟨rfl, rfl⟩ := Prod.mk.inj (Option.some.inj h)
          exact ⟨w, hw, hbody, congrArg ("query".toList ++ ·) hrest⟩
        · cases h
      · cases h
    · cases h
  · rintro ⟨w, hw, hbody, rfl⟩
    obtain ⟨htake, hinner⟩ := span_body hbody after
    change queryBody? ('q' :: 'u' :: 'e' :: 'r' :: 'y' :: (w ++ '(' :: (body ++ ')' :: after))) = _
    rw [queryBody?, dropBlank_append_cons hw (by decide)]
    simp only [hinner, htake]

theorem mem_nextPlaces_of_char {c : Char} (hc : c ≠ '"') (rest : List Char) :
    rest ∈ nextPlaces (c :: rest) := by
  rw [nextPlaces]
  · exact List.mem_append_left _ (List.mem_singleton_self _)
  · exact hc

theorem mem_placesAhead_of_next {n : Nat} (hnext : rest ∈ nextPlaces text)
    (hplace : place ∈ placesAhead n rest) : place ∈ placesAhead (n + 1) text :=
  List.mem_cons_of_mem _ (List.mem_flatMap.mpr ⟨rest, hnext, hplace⟩)

theorem Ahead.mem_placesAhead (h : Ahead text place) {n : Nat} (hn : text.length ≤ n) :
    place ∈ placesAhead n text := by
  induction h generalizing n with
  | here text => cases n <;> exact List.mem_cons_self
  | @char c rest place hc _ ih =>
      obtain ⟨n, rfl⟩ : ∃ m, n = m + 1 := Nat.exists_eq_add_of_le' (Nat.le_trans (by simp) hn)
      exact mem_placesAhead_of_next (mem_nextPlaces_of_char hc rest)
        (ih (Nat.le_of_succ_le_succ hn))
  | @literal rest s after place hs _ ih =>
      obtain ⟨n, rfl⟩ : ∃ m, n = m + 1 := Nat.exists_eq_add_of_le' (Nat.le_trans (by simp) hn)
      have hlength := length_stringBody hs
      have hnext : after ∈ nextPlaces ('"' :: rest) :=
        List.mem_append_left _ (by simp [hs])
      exact mem_placesAhead_of_next hnext
        (ih (Nat.le_of_lt_succ (Nat.lt_of_lt_of_le (Nat.lt_succ_of_lt hlength) hn)))
  | @query w body after place hw hbody _ ih =>
      simp only [List.length_append, List.length_cons] at hn
      obtain ⟨n, rfl⟩ : ∃ m, n = m + 1 := Nat.exists_eq_add_of_le' (by omega)
      have hnext : after ∈ nextPlaces ("query".toList ++ w ++ '(' :: (body ++ ')' :: after)) := by
        refine List.mem_append_right _ ?_
        rw [queryBody?_eq_some_iff.mpr ⟨w, hw, hbody, rfl⟩]
        exact List.mem_singleton_self _
      exact mem_placesAhead_of_next hnext (ih (by omega))

theorem ahead_of_mem_nextPlaces (h : rest ∈ nextPlaces text) : Ahead text rest := by
  rcases List.mem_append.mp h with h | h
  · split at h
    · cases h
    · obtain ⟨⟨s, after⟩, hs, rfl⟩ := List.mem_map.mp h
      exact .literal (Option.mem_toList.mp hs) (.here _)
    · next hquote _ =>
      obtain rfl := List.mem_singleton.mp h
      exact .char hquote (.here _)
  · obtain ⟨⟨body, after⟩, hbody, rfl⟩ := List.mem_map.mp h
    obtain ⟨w, hw, hclose, rfl⟩ := queryBody?_eq_some_iff.mp (Option.mem_toList.mp hbody)
    exact .query hw hclose (.here _)

theorem ahead_of_mem_placesAhead {n : Nat} (h : place ∈ placesAhead n text) : Ahead text place := by
  induction n generalizing text with
  | zero =>
      obtain rfl := List.mem_singleton.mp h
      exact .here _
  | succ n ih =>
      rcases List.mem_cons.mp h with rfl | h
      · exact .here _
      · obtain ⟨rest, hrest, hplace⟩ := List.mem_flatMap.mp h
        exact (ahead_of_mem_nextPlaces hrest).trans (ih hplace)

theorem queryIn_iff {body : List Char} :
    QueryIn text body ↔ ∃ place ∈ placesAhead text.length text,
      body ∈ (queryBody? place).map Prod.fst := by
  constructor
  · rintro ⟨w, after, hw, hbody, hahead⟩
    refine ⟨_, hahead.mem_placesAhead (Nat.le_refl _), ?_⟩
    rw [queryBody?_eq_some_iff.mpr ⟨w, hw, hbody, rfl⟩]
    exact rfl
  · rintro ⟨place, hplace, hbody⟩
    obtain ⟨⟨body, after⟩, hsome, rfl⟩ := Option.map_eq_some_iff.mp hbody
    obtain ⟨w, hw, hclose, rfl⟩ := queryBody?_eq_some_iff.mp hsome
    exact ⟨w, after, hw, hclose, ahead_of_mem_placesAhead hplace⟩

end TraceAutomata.Condition
