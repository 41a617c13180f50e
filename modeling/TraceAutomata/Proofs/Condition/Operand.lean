import TraceAutomata.Condition.Text
import TraceAutomata.Proofs.Number
import TraceAutomata.Proofs.Text

namespace TraceAutomata

open Text

def marks : List Char :=
  ['$', '@', '"', '(', ')', '=', '!', '<', '>', '&', '|']

theorem isIdentifierChar_of_mark : ∀ c ∈ marks, isIdentifierChar c = false := by
  have hall : marks.all (fun c => !isIdentifierChar c) = true := by decide +kernel
  simpa using hall

theorem bounded_mark {w : List Char} (hw : Blank w) {c : Char} (hc : c ∈ marks)
    (rest : List Char) : Bounded (w ++ c :: rest) :=
  .append hw (bounded_cons (isIdentifierChar_of_mark c hc) rest)

/-- The name of a field or of a scratch slot that a condition text can mention. -/
def IsIdentifier (name : String) : Prop :=
  name ≠ "" ∧ ∀ c ∈ name.toList, isIdentifierChar c = true

theorem isIdentifier_of_all {name : String} (hne : name ≠ "")
    (h : name.toList.all isIdentifierChar = true) : IsIdentifier name :=
  ⟨hne, List.all_eq_true.mp h⟩

def IsSegmentName (name : String) : Prop :=
  name ≠ "" ∧ '/' ∉ name.toList ∧ ')' ∉ name.toList ∧ trimChars name.toList = name.toList

namespace PathSegment

def Textual : PathSegment → Prop
  | .name text => IsSegmentName text ∧ text ≠ "~" ∧ text.toList.head? ≠ some '$'
  | .field text => IsSegmentName text
  | .query _ => False
  | .scenario => True

def spelling : PathSegment → List Char
  | .name text => text.toList
  | .field text => '$' :: text.toList
  | .query _ => []
  | .scenario => ['~']

end PathSegment

/-- The segments of a path between slashes, with any blanks around them. -/
inductive AttributePath.Spells : AttributePath → List Char → Prop
  | last {segment : PathSegment} {w w' : List Char} (hs : segment.Textual) (hw : Blank w)
      (hw' : Blank w') : Spells [segment] (w ++ segment.spelling ++ w')
  | cons {segment : PathSegment} {rest : AttributePath} {w w' body : List Char}
      (hs : segment.Textual) (hw : Blank w) (hw' : Blank w') (hrest : Spells rest body) :
      Spells (segment :: rest) (w ++ segment.spelling ++ w' ++ '/' :: body)

/-- The characters of a text as they stand between quotes: a backslash goes before each quote and
each backslash. -/
def escaped : List Char → List Char
  | [] => []
  | c :: rest => if c = '"' ∨ c = '\\' then '\\' :: c :: escaped rest else c :: escaped rest

namespace ValueSource

def Textual : ValueSource → Prop
  | .field text => IsIdentifier text
  | .scratch text => IsIdentifier text
  | .eventName => True
  | .timestamp => True
  | .literal .null => True
  | .literal (.string _) => True
  | .literal (.int _) => True
  | .literal (.long n) => Number.int32? n.toInt = none
  | .literal (.double _) => False
  | .query path => path ≠ [] ∧ ∀ segment ∈ path, segment.Textual

/-- The spellings of an operand. Blanks may stand in those of a query alone. -/
inductive Spells : ValueSource → List Char → Prop
  | field {field : String} (h : IsIdentifier field) : Spells (.field field) ('$' :: field.toList)
  | scratch {slot : String} (h : IsIdentifier slot) : Spells (.scratch slot) ('@' :: slot.toList)
  | eventName : Spells .eventName "name".toList
  | timestamp : Spells .timestamp "ts".toList
  | null : Spells (.literal .null) "null".toList
  | string (s : String) : Spells (.literal (.string s)) ('"' :: escaped s.toList ++ ['"'])
  | int (n : Int32) : Spells (.literal (.int n)) (toString n.toInt).toList
  | long {n : Int64} (h : Number.int32? n.toInt = none) :
      Spells (.literal (.long n)) (toString n.toInt).toList
  | query {path : AttributePath} {w body : List Char} (hw : Blank w) (h : path.Spells body) :
      Spells (.query path) ("query".toList ++ w ++ '(' :: body ++ [')'])

end ValueSource

namespace PathSegment

variable {segment : PathSegment}

theorem Textual.tight (h : segment.Textual) : Tight segment.spelling := by
  have hname : ∀ {name : String}, IsSegmentName name → Tight name.toList := fun hn =>
    .of_trimmed (fun hnil => hn.1 (String.toList_eq_nil_iff.mp hnil)) hn.2.2.2
  cases segment with
  | name name => exact hname h.1
  | field field => exact (hname h).cons (by decide)
  | query path => exact h.elim
  | scenario => exact .single (by decide)

theorem Textual.not_mem (h : segment.Textual) :
    '/' ∉ segment.spelling ∧ ')' ∉ segment.spelling := by
  cases segment with
  | name name => exact ⟨h.1.2.1, h.1.2.2.1⟩
  | field field =>
      constructor
      · exact fun hmem => (List.mem_cons.mp hmem).elim (by decide) h.2.1
      · exact fun hmem => (List.mem_cons.mp hmem).elim (by decide) h.2.2.1
  | query path => exact h.elim
  | scenario => decide

theorem querySegment?_padded (h : segment.Textual) {w w' : List Char} (hw : Blank w)
    (hw' : Blank w') : Condition.querySegment? (w ++ segment.spelling ++ w') = some segment := by
  rw [Condition.querySegment?, trimChars_padded hw hw' h.tight]
  cases segment with
  | name name =>
      obtain ⟨⟨hne, -⟩, htilde, hdollar⟩ := h
      simp only [spelling]
      split
      · next heq => exact (hne (String.toList_eq_nil_iff.mp heq)).elim
      · next heq => exact (htilde (String.toList_injective heq)).elim
      · next heq => exact (hdollar (by rw [heq]; rfl)).elim
      · rw [String.ofList_toList]
  | field field => simp only [spelling, String.ofList_toList]
  | query path => exact h.elim
  | scenario => rfl

end PathSegment

namespace AttributePath.Spells

variable {path : AttributePath} {body : List Char}

theorem not_mem_close (h : path.Spells body) : ')' ∉ body := by
  have hblank : ∀ {w : List Char}, Blank w → ')' ∉ w := fun hw hmem =>
    Bool.false_ne_true (hw ')' hmem)
  induction h with
  | last hs hw hw' => simp [hblank hw, hblank hw', hs.not_mem.2]
  | cons hs hw hw' hrest ih => simp [hblank hw, hblank hw', hs.not_mem.2, ih]

theorem mapM_split (h : path.Spells body) :
    (split (· == '/') body).mapM Condition.querySegment? = some path := by
  have hblank : ∀ {w : List Char}, Blank w → ∀ c ∈ w, (c == '/') = false := fun hw c hc => by
    rw [beq_eq_false_iff_ne]
    rintro rfl
    exact Bool.false_ne_true (hw '/' hc)
  have hpart : ∀ {segment : PathSegment} {w w' : List Char}, segment.Textual → Blank w →
      Blank w' → ∀ c ∈ w ++ segment.spelling ++ w', (c == '/') = false := by
    intro segment w w' hs hw hw' c hc
    rcases List.mem_append.mp hc with hc | hc
    · rcases List.mem_append.mp hc with hc | hc
      · exact hblank hw c hc
      · rw [beq_eq_false_iff_ne]
        rintro rfl
        exact hs.not_mem.1 hc
    · exact hblank hw' c hc
  induction h with
  | last hs hw hw' =>
      rw [split_eq_singleton (hpart hs hw hw'), List.mapM_cons,
        PathSegment.querySegment?_padded hs hw hw']
      rfl
  | cons hs hw hw' hrest ih =>
      rw [split_append_cons (hpart hs hw hw') (by decide), List.mapM_cons,
        PathSegment.querySegment?_padded hs hw hw', ih]
      rfl

theorem after (h : path.Spells body) {v : List Char} (hv : Blank v) :
    path.Spells (v ++ body) := by
  have hblank : ∀ {w : List Char}, Blank w → Blank (v ++ w) := fun hw =>
    List.forall_mem_append.mpr ⟨hv, hw⟩
  cases h with
  | last hs hw hw' => simpa using Spells.last hs (hblank hw) hw'
  | cons hs hw hw' hrest => simpa using Spells.cons hs (hblank hw) hw' hrest

theorem trimmed (h : path.Spells body) :
    ∃ w w' core, Blank w ∧ Blank w' ∧ Tight core ∧ body = w ++ core ++ w' ∧ path.Spells core := by
  induction h with
  | @last segment w w' hs hw hw' =>
      refine ⟨w, w', segment.spelling, hw, hw', hs.tight, rfl, ?_⟩
      simpa using Spells.last hs blank_nil blank_nil
  | @cons segment rest w w' body hs hw hw' hrest ih =>
      obtain ⟨v, v', core, hv, hv', hcore, rfl, hspells⟩ := ih
      refine ⟨w, v', segment.spelling ++ (w' ++ '/' :: v) ++ core, hw, hv',
        hs.tight.around _ hcore, by simp, ?_⟩
      simpa using Spells.cons hs blank_nil hw' (hspells.after hv)

theorem pathOfBody_eq (h : path.Spells body) : Condition.pathOfBody body = .ok path := by
  obtain ⟨w, w', core, hw, hw', hcore, rfl, hspells⟩ := h.trimmed
  obtain ⟨c, rest, hne, -⟩ := hcore.first
  have hfull : core.isEmpty = false := by rw [hne, List.isEmpty_cons]
  rw [Condition.pathOfBody, trimChars_padded hw hw' hcore, hfull, hspells.mapM_split]
  rfl

end AttributePath.Spells

theorem AttributePath.exists_spelling {path : AttributePath} (hne : path ≠ [])
    (h : ∀ segment ∈ path, segment.Textual) : ∃ body, path.Spells body := by
  induction path with
  | nil => exact (hne rfl).elim
  | cons segment rest ih =>
      obtain ⟨hs, hrest⟩ := List.forall_mem_cons.mp h
      by_cases hnil : rest = []
      · subst hnil
        exact ⟨_, .last hs blank_nil blank_nil⟩
      · obtain ⟨body, hbody⟩ := ih hnil hrest
        exact ⟨_, .cons hs blank_nil blank_nil hbody⟩

namespace Condition

variable {rest : List Char}

theorem identifier_append {word : String} (h : IsIdentifier word) (hrest : Bounded rest) :
    identifier (word.toList ++ rest) = .ok (word, rest) := by
  obtain ⟨htake, hdrop⟩ := hrest.span (fun _ hc => hc) h.2
  have hfull : word.toList.isEmpty = false := by
    simpa using fun hnil => h.1 hnil
  rw [identifier, htake, hdrop, hfull, String.ofList_toList]
  rfl

theorem stringBody?_escaped (s rest : List Char) :
    stringBody? (escaped s ++ '"' :: rest) = some (s, rest) := by
  induction s with
  | nil => rw [escaped, List.nil_append, stringBody?]
  | cons c s ih =>
      rw [escaped]
      split
      · simp only [List.cons_append, stringBody?, ih, Option.map_some]
      · next hplain =>
        rw [not_or] at hplain
        rw [List.cons_append, stringBody?, ih, Option.map_some]
        · exact hplain.1
        · exact fun heq => (hplain.2 heq).elim
        · exact fun _ _ heq => (hplain.2 heq).elim

theorem splitSign_digits (m : Nat) (rest : List Char) :
    splitSign (Nat.toDigits 10 m ++ rest) = ([], Nat.toDigits 10 m ++ rest) := by
  obtain ⟨d, digits, hd⟩ := List.exists_cons_of_ne_nil (Nat.toDigits_ne_nil (n := m) (b := 10))
  have hmem : d ∈ Nat.toDigits 10 m := hd ▸ List.mem_cons_self
  rw [hd, List.cons_append]
  unfold splitSign
  split
  · next heq =>
    obtain ⟨rfl, -⟩ := List.cons.inj heq
    exact (Number.not_mem_toDigits rfl m hmem).elim
  · rfl

theorem number_digits {text sign digits : List Char} {n : Int64}
    (hsign : splitSign text = (sign, digits ++ rest)) (hdigits : ∀ c ∈ digits, c.isDigit = true)
    (hread : Number.int64OfText? (sign ++ digits) = some n) (hrest : Bounded rest) :
    number text = .ok (.ofInt64 n, rest) := by
  obtain ⟨htake, hdrop⟩ := hrest.span (fun _ => isIdentifierChar_of_isDigit) hdigits
  simp only [number, hsign, htake, hdrop]
  split
  · exact absurd (hrest '.' rfl) (by decide)
  · rw [hread]

theorem number_append (n : Int64) (hrest : Bounded rest) :
    number ((toString n.toInt).toList ++ rest) = .ok (.ofInt64 n, rest) := by
  have hread := Number.int64OfText?_toString n
  obtain ⟨m, -, htext⟩ | ⟨m, -, htext⟩ := Number.exists_numeral n.toInt
  · rw [htext] at hread ⊢
    exact number_digits (splitSign_digits m rest) (fun c => Number.isDigit_of_mem_toDigits)
      (by rwa [List.nil_append]) hrest
  · rw [htext] at hread ⊢
    exact number_digits rfl (fun c => Number.isDigit_of_mem_toDigits) hread hrest

theorem span_body {body : List Char} (h : ')' ∉ body) (rest : List Char) :
    (body ++ ')' :: rest).takeWhile (· != ')') = body ∧
      (body ++ ')' :: rest).dropWhile (· != ')') = ')' :: rest := by
  have hopen : ∀ c ∈ body, (c != ')') = true := fun c hc =>
    bne_iff_ne.mpr fun heq => h (heq ▸ hc)
  rw [List.takeWhile_append_of_pos hopen, List.dropWhile_append_of_pos hopen]
  exact ⟨List.append_nil body, rfl⟩

theorem queryPath_append {path : AttributePath} {w body : List Char} (hw : Blank w)
    (h : path.Spells body) :
    queryPath (w ++ '(' :: (body ++ ')' :: rest)) = .ok (path, rest) := by
  obtain ⟨hbody, hinner⟩ := span_body (fun hc => h.not_mem_close hc) rest
  rw [queryPath, dropBlank_append_cons hw (by decide)]
  simp only [hinner, hbody, h.pathOfBody_eq]

theorem operand_blank {w : List Char} (hw : Blank w) (text : List Char) :
    operand (w ++ text) = operand text := by
  rw [operand, operand, dropBlank_append hw]

theorem isBlank_of_identifier {c : Char} (h : isIdentifierChar c = true) : isBlank c = false := by
  by_contra hblank
  rw [isIdentifierChar_of_isBlank (by simpa using hblank)] at h
  cases h

theorem operand_identifier {c : Char} (hc : isIdentifierChar c = true) (rest : List Char) :
    operand (c :: rest) =
      if c == '-' || c.isDigit then
        (number (c :: rest)).map fun (value, after) => (.literal value, after)
      else wordOperand (c :: rest) := by
  have hmark : c ∉ marks := fun hmem => by
    rw [isIdentifierChar_of_mark c hmem] at hc
    cases hc
  rw [operand, dropBlank_cons (isBlank_of_identifier hc)]
  split
  · next heq => cases heq
  · next heq =>
    obtain ⟨rfl, -⟩ := List.cons.inj heq
    exact (hmark (by decide)).elim
  · next heq =>
    obtain ⟨rfl, -⟩ := List.cons.inj heq
    exact (hmark (by decide)).elim
  · next heq =>
    obtain ⟨rfl, -⟩ := List.cons.inj heq
    exact (hmark (by decide)).elim
  · next heq =>
    obtain ⟨rfl, rfl⟩ := List.cons.inj heq
    rfl

theorem operand_word {word : String} (h : IsIdentifier word) {c : Char} {tail : List Char}
    (hword : word.toList = c :: tail) (hc : (c == '-' || c.isDigit) = false) (rest : List Char) :
    operand (word.toList ++ rest) = wordOperand (word.toList ++ rest) := by
  have hident : isIdentifierChar c = true := h.2 c (hword ▸ List.mem_cons_self)
  rw [hword, List.cons_append, operand_identifier hident, hc]
  rfl

theorem exists_first_of_numeral (n : Int) :
    ∃ c tail, (toString n).toList = c :: tail ∧ (c == '-' || c.isDigit) = true := by
  obtain ⟨m, -, htext⟩ | ⟨m, -, htext⟩ := Number.exists_numeral n
  · obtain ⟨d, digits, hd⟩ := List.exists_cons_of_ne_nil (Nat.toDigits_ne_nil (n := m) (b := 10))
    have hdigit : d.isDigit = true :=
      Number.isDigit_of_mem_toDigits (n := m) (hd ▸ List.mem_cons_self)
    exact ⟨d, digits, htext.trans hd, by rw [hdigit, Bool.or_true]⟩
  · exact ⟨'-', _, htext, rfl⟩

theorem isIdentifierChar_of_numeral {c : Char} (h : (c == '-' || c.isDigit) = true) :
    isIdentifierChar c = true := by
  rcases Bool.or_eq_true_iff.mp h with h | h
  · rw [isIdentifierChar, h, Bool.or_true, Bool.true_or]
  · exact isIdentifierChar_of_isDigit h

theorem operand_number (n : Int64) (hrest : Bounded rest) :
    operand ((toString n.toInt).toList ++ rest) = .ok (.literal (.ofInt64 n), rest) := by
  have hnumber := number_append n hrest
  obtain ⟨c, tail, htext, hc⟩ := exists_first_of_numeral n.toInt
  rw [htext, List.cons_append] at hnumber ⊢
  rw [operand_identifier (isIdentifierChar_of_numeral hc), hc, hnumber]
  rfl

end Condition

theorem ValueSource.Textual.exists_spelling {source : ValueSource} (h : source.Textual) :
    ∃ text, source.Spells text := by
  cases source with
  | field field => exact ⟨_, .field h⟩
  | scratch slot => exact ⟨_, .scratch h⟩
  | eventName => exact ⟨_, .eventName⟩
  | timestamp => exact ⟨_, .timestamp⟩
  | query path =>
      obtain ⟨body, hbody⟩ := AttributePath.exists_spelling h.1 h.2
      exact ⟨_, .query blank_nil hbody⟩
  | literal value =>
      cases value with
      | null => exact ⟨_, .null⟩
      | string s => exact ⟨_, .string s⟩
      | int n => exact ⟨_, .int n⟩
      | long n => exact ⟨_, .long h⟩
      | double x => exact h.elim

namespace ValueSource.Spells

variable {source : ValueSource} {text rest : List Char}

theorem operand_eq (h : source.Spells text) (hrest : Bounded rest) :
    Condition.operand (text ++ rest) = .ok (source, rest) := by
  cases h with
  | field h =>
      rw [List.cons_append, Condition.operand, dropBlank_cons (by decide)]
      simp only [Condition.identifier_append h hrest]
      rfl
  | scratch h =>
      rw [List.cons_append, Condition.operand, dropBlank_cons (by decide)]
      simp only [Condition.identifier_append h hrest]
      rfl
  | eventName =>
      have h : IsIdentifier "name" := isIdentifier_of_all (by decide) (by decide)
      rw [Condition.operand_word h rfl rfl, Condition.wordOperand,
        Condition.identifier_append h hrest]
      rfl
  | timestamp =>
      have h : IsIdentifier "ts" := isIdentifier_of_all (by decide) (by decide)
      rw [Condition.operand_word h rfl rfl, Condition.wordOperand,
        Condition.identifier_append h hrest]
      rfl
  | null =>
      have h : IsIdentifier "null" := isIdentifier_of_all (by decide) (by decide)
      rw [Condition.operand_word h rfl rfl, Condition.wordOperand,
        Condition.identifier_append h hrest]
      rfl
  | string s =>
      rw [List.cons_append, List.cons_append, List.append_assoc, List.singleton_append,
        Condition.operand, dropBlank_cons (by decide)]
      simp only [Condition.stringBody?_escaped, String.ofList_toList]
  | int n =>
      have hsmall : Value.ofInt64 n.toInt64 = .int n := by
        rw [Value.ofInt64, Int32.toInt_toInt64, Number.int32?_toInt]
      rw [← Int32.toInt_toInt64, Condition.operand_number n.toInt64 hrest, hsmall]
  | @long n h =>
      have hlong : Value.ofInt64 n = .long n := by rw [Value.ofInt64, h]
      rw [Condition.operand_number n hrest, hlong]
  | @query path w body hw hpath =>
      have h : IsIdentifier "query" := isIdentifier_of_all (by decide) (by decide)
      have hbounded : Bounded (w ++ '(' :: (body ++ ')' :: rest)) :=
        bounded_mark hw (by decide) _
      have hsplit : "query".toList ++ w ++ '(' :: body ++ [')'] ++ rest =
          "query".toList ++ (w ++ '(' :: (body ++ ')' :: rest)) := by simp
      rw [hsplit, Condition.operand_word h rfl rfl, Condition.wordOperand,
        Condition.identifier_append h hbounded]
      simp only [bind, Except.bind]
      rw [Condition.queryPath_append hw hpath]
      rfl

theorem exists_first (h : source.Spells text) :
    ∃ c tail, text = c :: tail ∧ isBlank c = false ∧ c ∉ ['=', '!', '('] := by
  have hident : ∀ c tail, text = c :: tail → isIdentifierChar c = true →
      ∃ c tail, text = c :: tail ∧ isBlank c = false ∧ c ∉ ['=', '!', '('] := by
    intro c tail htext hc
    refine ⟨c, tail, htext, Condition.isBlank_of_identifier hc, fun hmem => ?_⟩
    have hmark : c ∈ marks := by
      simp only [List.mem_cons, List.not_mem_nil, or_false] at hmem
      rcases hmem with rfl | rfl | rfl <;> decide
    rw [isIdentifierChar_of_mark c hmark] at hc
    cases hc
  have hnumeral : ∀ n : Int, text = (toString n).toList →
      ∃ c tail, text = c :: tail ∧ isBlank c = false ∧ c ∉ ['=', '!', '('] := fun n htext => by
    obtain ⟨c, tail, hfirst, hc⟩ := Condition.exists_first_of_numeral n
    exact hident c tail (htext.trans hfirst) (Condition.isIdentifierChar_of_numeral hc)
  cases h with
  | field h => exact ⟨'$', _, rfl, by decide, by decide⟩
  | scratch h => exact ⟨'@', _, rfl, by decide, by decide⟩
  | string s => exact ⟨'"', _, rfl, by decide, by decide⟩
  | eventName => exact hident 'n' _ rfl (by decide)
  | timestamp => exact hident 't' _ rfl (by decide)
  | null => exact hident 'n' _ rfl (by decide)
  | int n => exact hnumeral n.toInt rfl
  | @long n h => exact hnumeral n.toInt rfl
  | query hw h => exact hident 'q' _ rfl (by decide)

theorem tight (h : source.Spells text) : Tight text := by
  have hidentifier : ∀ {name : String}, IsIdentifier name → Tight name.toList := fun h =>
    .of_forall (fun hnil => h.1 (String.toList_eq_nil_iff.mp hnil))
      fun c hc => Condition.isBlank_of_identifier (h.2 c hc)
  have hnumeral : ∀ n : Int, Tight (toString n).toList := fun n => by
    have hdigits : ∀ m c, c ∈ Nat.toDigits 10 m → isBlank c = false := fun m c hc =>
      Condition.isBlank_of_identifier
        (isIdentifierChar_of_isDigit (Number.isDigit_of_mem_toDigits hc))
    obtain ⟨m, -, htext⟩ | ⟨m, -, htext⟩ := Number.exists_numeral n
    · rw [htext]
      exact .of_forall Nat.toDigits_ne_nil (hdigits m)
    · rw [htext]
      exact .of_forall (List.cons_ne_nil _ _) (List.forall_mem_cons.mpr ⟨by decide, hdigits m⟩)
  cases h with
  | field h => exact (hidentifier h).cons (by decide)
  | scratch h => exact (hidentifier h).cons (by decide)
  | eventName => exact hidentifier (isIdentifier_of_all (by decide) (by decide))
  | timestamp => exact hidentifier (isIdentifier_of_all (by decide) (by decide))
  | null => exact hidentifier (isIdentifier_of_all (by decide) (by decide))
  | string s => exact (Tight.single (by decide)).around _ (.single (by decide))
  | int n => exact hnumeral n.toInt
  | @long n h => exact hnumeral n.toInt
  | @query path w body hw h =>
      have hword : Tight "query".toList := hidentifier (isIdentifier_of_all (by decide) (by decide))
      simpa using hword.around (w ++ '(' :: body) (.single (c := ')') (by decide))

end ValueSource.Spells

end TraceAutomata
