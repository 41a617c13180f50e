import TraceAutomata.Condition.Basic
import TraceAutomata.Text.Alphanumeric
import TraceAutomata.Text.Blank

/-!
Conditions written as text. An operand is a field `$f`, a scratch slot `@s`, `name`, `ts`, a
query of the store or a literal; comparisons of operands are combined by `!`, `&&`, `||` and
parentheses, and an operand by itself holds when it is not null. The reader goes over the text
once and keeps the parentheses that are still open.
-/

namespace TraceAutomata

/-- What is wrong with a condition text at one place in it. -/
inductive SyntaxFault where
  | trailing (rest : String)
  | expectedClose
  | unknownOperand (word : String)
  | expectedOperand
  | expectedQueryOpen
  | unterminatedQuery
  | emptyQuery
  | emptyQuerySegment
  | emptyIdentifier
  | unterminatedString
  | invalidNumber (text : String)
deriving DecidableEq

namespace SyntaxFault

def message : SyntaxFault → String
  | .trailing rest => s!"unexpected trailing input '{rest}'"
  | .expectedClose => "expected ')'"
  | .unknownOperand word => s!"unknown operand '{word}'"
  | .expectedOperand => "expected operand"
  | .expectedQueryOpen => "expected '(' after query"
  | .unterminatedQuery => "unterminated query path"
  | .emptyQuery => "empty query path"
  | .emptyQuerySegment => "empty query path segment"
  | .emptyIdentifier => "empty identifier"
  | .unterminatedString => "unterminated string"
  | .invalidNumber text => s!"invalid number '{text}'"

end SyntaxFault

/-- Why a text is no condition. -/
inductive ConditionFault where
  | empty
  /-- The offset counts the bytes of the trimmed text before the place. -/
  | misread (text : String) (offset : Nat) (fault : SyntaxFault)
deriving DecidableEq

namespace ConditionFault

def message : ConditionFault → String
  | .empty => "empty condition expression"
  | .misread text offset fault => s!"condition '{text}' at offset {offset}: {fault.message}"

end ConditionFault

namespace Condition

/-- A fault, and the text that remains at its place. -/
structure Misreading where
  fault : SyntaxFault
  rest : List Char

/-- What is read, and the text after it. -/
abbrev Reading (α : Type) := Except Misreading (α × List Char)

/-- The longest run of identifier characters, which must not be empty. -/
def identifier (text : List Char) : Reading String :=
  if (text.takeWhile Text.isIdentifierChar).isEmpty then .error ⟨.emptyIdentifier, text⟩
  else
    .ok (String.ofList (text.takeWhile Text.isIdentifierChar),
      text.dropWhile Text.isIdentifierChar)

/-- The characters up to the closing quote. A backslash makes the character after it count as
itself. -/
def stringBody? : List Char → Option (List Char × List Char)
  | [] => none
  | '"' :: rest => some ([], rest)
  | ['\\'] => none
  | '\\' :: c :: rest => (stringBody? rest).map fun (s, after) => (c :: s, after)
  | c :: rest => (stringBody? rest).map fun (s, after) => (c :: s, after)

/-- Splits off the minus sign that may precede a number. -/
def splitSign : List Char → List Char × List Char
  | '-' :: rest => (['-'], rest)
  | text => ([], text)

/-- A whole number, of the narrower integral kind that holds it, or a number with a point. -/
def number (text : List Char) : Reading Value :=
  let (sign, digits) := splitSign text
  let whole := sign ++ digits.takeWhile Char.isDigit
  match digits.dropWhile Char.isDigit with
  | '.' :: after =>
      let lexeme := whole ++ '.' :: after.takeWhile Char.isDigit
      let rest := after.dropWhile Char.isDigit
      match Decimal.ofChars? lexeme with
      | some d => .ok (.double d.toDouble, rest)
      | none => .error ⟨.invalidNumber (String.ofList lexeme), rest⟩
  | rest =>
      match Number.int64OfText? whole with
      | some n => .ok (.ofInt64 n, rest)
      | none => .error ⟨.invalidNumber (String.ofList whole), rest⟩

/-- A segment of a query path: the scenario, a field or a plain name. -/
def querySegment? (text : List Char) : Option PathSegment :=
  match Text.trimChars text with
  | [] => none
  | ['~'] => some .scenario
  | '$' :: field => some (.field (String.ofList field))
  | name => some (.name (String.ofList name))

def pathOfBody (body : List Char) : Except SyntaxFault AttributePath :=
  if (Text.trimChars body).isEmpty then .error .emptyQuery
  else
    match (Text.split (· == '/') (Text.trimChars body)).mapM querySegment? with
    | some path => .ok path
    | none => .error .emptyQuerySegment

def queryPath (text : List Char) : Reading AttributePath :=
  match Text.dropBlank text with
  | '(' :: inner =>
      match inner.dropWhile (· != ')') with
      | [] => .error ⟨.unterminatedQuery, []⟩
      | _ :: rest =>
          match pathOfBody (inner.takeWhile (· != ')')) with
          | .ok path => .ok (path, rest)
          | .error fault => .error ⟨fault, rest⟩
  | text => .error ⟨.expectedQueryOpen, text⟩

def wordOperand (text : List Char) : Except Misreading (ValueSource × List Char) := do
  let (word, rest) ← identifier text
  if word = "name" then return (.eventName, rest)
  else if word = "ts" then return (.timestamp, rest)
  else if word = "null" then return (.literal .null, rest)
  else if word = "query" then
    let (path, rest) ← queryPath rest
    return (.query path, rest)
  else throw ⟨.unknownOperand word, rest⟩

def operand (text : List Char) : Reading ValueSource :=
  match Text.dropBlank text with
  | [] => .error ⟨.expectedOperand, []⟩
  | '$' :: rest => (identifier rest).map fun (field, after) => (.field field, after)
  | '@' :: rest => (identifier rest).map fun (slot, after) => (.scratch slot, after)
  | '"' :: rest =>
      match stringBody? rest with
      | some (s, after) => .ok (.literal (.string (String.ofList s)), after)
      | none => .error ⟨.unterminatedString, rest⟩
  | c :: rest =>
      if c == '-' || c.isDigit then
        (number (c :: rest)).map fun (value, after) => (.literal value, after)
      else wordOperand (c :: rest)

def operator? : List Char → Option (CompareOp × List Char)
  | '=' :: '=' :: rest => some (.eq, rest)
  | '!' :: '=' :: rest => some (.ne, rest)
  | '>' :: '=' :: rest => some (.ge, rest)
  | '<' :: '=' :: rest => some (.le, rest)
  | '>' :: rest => some (.gt, rest)
  | '<' :: rest => some (.lt, rest)
  | _ => none

/-- Two operands with an operator between them, or one operand, which must not be null. -/
def comparison (text : List Char) : Except Misreading (Condition × List Char) := do
  let (left, rest) ← operand text
  match operator? (Text.dropBlank rest) with
  | some (op, rest) =>
      let (right, rest) ← operand rest
      return (.compare left op right, rest)
  | none => return (.compare left .ne (.literal .null), rest)

theorem length_identifier {text rest : List Char} {word : String}
    (h : identifier text = .ok (word, rest)) : rest.length < text.length := by
  unfold identifier at h
  split at h
  · contradiction
  · next hne =>
    obtain ⟨-, rfl⟩ := Prod.mk.inj (Except.ok.inj h)
    exact Text.length_dropWhile_lt (by simpa using hne)

theorem length_stringBody {text s rest : List Char} (h : stringBody? text = some (s, rest)) :
    rest.length < text.length := by
  fun_induction stringBody? text generalizing s <;> simp_all <;> grind

theorem length_splitSign_le (text : List Char) : (splitSign text).2.length ≤ text.length := by
  unfold splitSign
  split <;> simp

theorem not_int64OfText_nil : Number.int64OfText? [] = none := by
  decide

theorem not_int64OfText_minus : Number.int64OfText? ['-'] = none := by
  decide

theorem length_number {text rest : List Char} {value : Value}
    (h : number text = .ok (value, rest)) : rest.length < text.length := by
  unfold number at h
  have hsign := length_splitSign_le text
  cases hs : splitSign text with
  | mk sign digits =>
      rw [hs] at hsign h
      simp only at hsign h
      have hlen := congrArg List.length
        (List.takeWhile_append_dropWhile (p := Char.isDigit) (l := digits))
      simp only [List.length_append] at hlen
      split at h
      · next after hrest =>
        have hafter := Text.length_dropWhile_le Char.isDigit after
        rw [hrest, List.length_cons] at hlen
        split at h
        · obtain ⟨-, rfl⟩ := Prod.mk.inj (Except.ok.inj h)
          omega
        · contradiction
      · split at h
        · next n hn =>
          obtain ⟨-, rfl⟩ := Prod.mk.inj (Except.ok.inj h)
          cases hw : digits.takeWhile Char.isDigit with
          | nil =>
              rw [hw, List.append_nil] at hn
              unfold splitSign at hs
              split at hs
              · obtain ⟨rfl, -⟩ := Prod.mk.inj hs
                rw [not_int64OfText_minus] at hn
                contradiction
              · obtain ⟨rfl, -⟩ := Prod.mk.inj hs
                rw [not_int64OfText_nil] at hn
                contradiction
          | cons c w =>
              rw [hw, List.length_cons] at hlen
              omega
        · contradiction

theorem length_queryPath_le {text rest : List Char} {path : AttributePath}
    (h : queryPath text = .ok (path, rest)) : rest.length ≤ text.length := by
  unfold queryPath at h
  have hblank := Text.length_dropBlank_le text
  split at h
  · next inner hinner =>
    have hdrop := Text.length_dropWhile_le (· != ')') inner
    rw [hinner, List.length_cons] at hblank
    split at h
    · contradiction
    · next rest' hrest =>
      rw [hrest, List.length_cons] at hdrop
      split at h
      · obtain ⟨-, rfl⟩ := Prod.mk.inj (Except.ok.inj h)
        omega
      · contradiction
  · contradiction

theorem length_wordOperand {text rest : List Char} {source : ValueSource}
    (h : wordOperand text = .ok (source, rest)) : rest.length < text.length := by
  unfold wordOperand at h
  cases hi : identifier text with
  | error e => rw [hi] at h; contradiction
  | ok read =>
      obtain ⟨word, after⟩ := read
      have hlt := length_identifier hi
      rw [hi] at h
      simp only [bind, Except.bind, pure, Except.pure] at h
      split at h
      · obtain ⟨-, rfl⟩ := Prod.mk.inj (Except.ok.inj h)
        exact hlt
      split at h
      · obtain ⟨-, rfl⟩ := Prod.mk.inj (Except.ok.inj h)
        exact hlt
      split at h
      · obtain ⟨-, rfl⟩ := Prod.mk.inj (Except.ok.inj h)
        exact hlt
      split at h
      · split at h
        · contradiction
        · next read hq =>
          obtain ⟨path, rest'⟩ := read
          obtain ⟨-, rfl⟩ := Prod.mk.inj (Except.ok.inj h)
          exact Nat.lt_of_le_of_lt (length_queryPath_le hq) hlt
      · contradiction

theorem length_of_map_ok {α β : Type} {r : Reading α} {f : α → β} {n : Nat} {b : β}
    {rest : List Char} (h : r.map (fun (a, after) => (f a, after)) = .ok (b, rest))
    (hr : ∀ a after, r = .ok (a, after) → after.length < n) : rest.length < n := by
  cases r with
  | error e => contradiction
  | ok read =>
      obtain ⟨a, after⟩ := read
      obtain ⟨-, rfl⟩ := Prod.mk.inj (Except.ok.inj h)
      exact hr a after rfl

theorem length_operand {text rest : List Char} {source : ValueSource}
    (h : operand text = .ok (source, rest)) : rest.length < text.length := by
  unfold operand at h
  refine Nat.lt_of_lt_of_le ?_ (Text.length_dropBlank_le text)
  split at h
  · contradiction
  · next after heq =>
    rw [heq, List.length_cons]
    exact Nat.lt_succ_of_lt (length_of_map_ok h fun _ _ => length_identifier)
  · next after heq =>
    rw [heq, List.length_cons]
    exact Nat.lt_succ_of_lt (length_of_map_ok h fun _ _ => length_identifier)
  · next after heq =>
    rw [heq, List.length_cons]
    split at h
    · next s rest' hs =>
      obtain ⟨-, rfl⟩ := Prod.mk.inj (Except.ok.inj h)
      exact Nat.lt_succ_of_lt (length_stringBody hs)
    · contradiction
  · next c after _ _ _ heq =>
    rw [heq]
    split at h
    · exact length_of_map_ok h fun _ _ => length_number
    · exact length_wordOperand h

theorem length_operator {text rest : List Char} {op : CompareOp}
    (h : operator? text = some (op, rest)) : rest.length < text.length := by
  unfold operator? at h
  split at h <;> cases h <;> simp only [List.length_cons] <;> omega

theorem length_comparison {text rest : List Char} {c : Condition}
    (h : comparison text = .ok (c, rest)) : rest.length < text.length := by
  unfold comparison at h
  cases hl : operand text with
  | error e => rw [hl] at h; contradiction
  | ok read =>
      obtain ⟨left, after⟩ := read
      have hlt := length_operand hl
      rw [hl] at h
      simp only [bind, Except.bind, pure, Except.pure] at h
      split at h
      · next op rest' hop =>
        have hop := length_operator hop
        have hblank := Text.length_dropBlank_le after
        split at h
        · contradiction
        · next read hr =>
          obtain ⟨right, rest''⟩ := read
          obtain ⟨-, rfl⟩ := Prod.mk.inj (Except.ok.inj h)
          have hlt' : rest''.length < rest'.length := length_operand hr
          simp only
          omega
      · obtain ⟨-, rfl⟩ := Prod.mk.inj (Except.ok.inj h)
        exact hlt

/-- The conditions of one pair of parentheses, or of the whole text, as far as they are read. -/
structure Level where
  /-- The complete parts between `||`, in reverse order. -/
  alternatives : List Condition := []
  /-- The complete parts between `&&` of the part that is being read, in reverse order. -/
  conjuncts : List Condition := []
  /-- How many `!` stand before the next part. -/
  negations : Nat := 0

namespace Level

/-- A part is negated as often as `!` stands before it. -/
def put (l : Level) (c : Condition) : Level :=
  { l with conjuncts := Nat.repeat .not l.negations c :: l.conjuncts, negations := 0 }

/-- The parts between `&&`; a single one stands for itself. -/
def conjunction (reversed : List Condition) : Condition :=
  match reversed with
  | [c] => c
  | cs => .and cs.reverse

/-- The parts between `||`; a single one stands for itself. -/
def disjunction (reversed : List Condition) : Condition :=
  match reversed with
  | [c] => c
  | cs => .or cs.reverse

def nextAlternative (l : Level) : Level :=
  { alternatives := conjunction l.conjuncts :: l.alternatives }

def result (l : Level) : Condition :=
  disjunction (conjunction l.conjuncts :: l.alternatives)

end Level

/-- The text after the closing parenthesis with which it begins. -/
def afterClose? : List Char → Option (List Char)
  | ')' :: rest => some rest
  | _ => none

theorem length_afterClose {text rest : List Char} (h : afterClose? text = some rest) :
    rest.length < text.length := by
  unfold afterClose? at h
  split at h <;> simp_all

/-- What the text goes on with. -/
inductive Awaited where
  | part
  | connective
deriving DecidableEq

/-- Reads up to the end of the outermost level. The levels of open parentheses are listed from
the inside out. -/
def combine (awaited : Awaited) (level : Level) (outer : List Level) (text : List Char) :
    Reading Condition :=
  match awaited with
  | .part =>
      match _h : Text.dropBlank text with
      | '!' :: rest =>
          if rest.head? = some '=' then .error ⟨.emptyIdentifier, '!' :: rest⟩
          else combine .part { level with negations := level.negations + 1 } outer rest
      | '(' :: rest => combine .part {} (level :: outer) rest
      | body =>
          match _hc : comparison body with
          | .error e => .error e
          | .ok (c, rest) => combine .connective (level.put c) outer rest
  | .connective =>
      match _h : Text.dropBlank text with
      | '&' :: '&' :: rest => combine .part level outer rest
      | '|' :: '|' :: rest => combine .part level.nextAlternative outer rest
      | body =>
          match outer with
          | [] => .ok (level.result, body)
          | enclosing :: outer =>
              match _hc : afterClose? body with
              | some rest => combine .connective (enclosing.put level.result) outer rest
              | none => .error ⟨.expectedClose, body⟩
termination_by text.length
decreasing_by
  all_goals
    have hblank := Text.length_dropBlank_le text
    simp only [_h, List.length_cons] at hblank
    first
      | omega
      | have := length_comparison _hc
        omega
      | have := length_afterClose _hc
        omega

/-- The condition that a text spells; blanks around it do not count. -/
def parse (text : String) : Except ConditionFault Condition :=
  let chars := Text.trimChars text.toList
  let misread := fun (m : Misreading) =>
    ConditionFault.misread (String.ofList chars) (Text.byteSize chars - Text.byteSize m.rest)
      m.fault
  if chars.isEmpty then .error .empty
  else
    match combine .part {} [] chars with
    | .error m => .error (misread m)
    | .ok (c, []) => .ok c
    | .ok (_, rest) => .error (misread ⟨.trailing (String.ofList rest), rest⟩)

end Condition

end TraceAutomata
