import TraceAutomata.Number.Integer
import TraceAutomata.Text.Blank

/-!
Scalars of YAML texts, written plainly or between quotes. Inside a scalar that goes over several
lines a single line break counts as a space, and each further one as itself.
-/

namespace TraceAutomata.Yaml

def isSpace (c : Char) : Bool :=
  c == ' ' || c == '\t'

/-- Whether the character ends a line, once all usual line ends are newlines. -/
def isBreak (c : Char) : Bool :=
  c == '\n' || c == '\u2028' || c == '\u2029'

/-- Whether the character may stand between two words. -/
def isGap (c : Char) : Bool :=
  isSpace c || isBreak c

def isPrintable (c : Char) : Bool :=
  let n := c.toNat
  n == 9 || n == 10 || n == 13 || (0x20 ≤ n && n ≤ 0x7E) || n == 0x85 ||
    (0xA0 ≤ n && n ≤ 0xFFFD) || 0x10000 ≤ n

/-- The text with a newline for each of the usual line ends. -/
def withNewlines : List Char → List Char
  | [] => []
  | '\r' :: '\n' :: rest => '\n' :: withNewlines rest
  | c :: rest => (if c == '\r' || c == '\u0085' then '\n' else c) :: withNewlines rest

/-- Whether a word ends before the text. -/
def atWordEnd : List Char → Bool
  | [] => true
  | c :: _ => isGap c

/-- Whether the text begins with a mark that separates documents, if it stands at the beginning
of a line. -/
def atMarker : List Char → Bool
  | '-' :: '-' :: '-' :: rest => atWordEnd rest
  | '.' :: '.' :: '.' :: rest => atWordEnd rest
  | _ => false

/-- What a gap between two words of a scalar counts as. -/
def fold (gap : List Char) : List Char :=
  match gap.filter isBreak with
  | [] => gap
  | ['\n'] => [' ']
  | '\n' :: more => more
  | breaks => breaks

/-- Whether a gap ends at the beginning of a line. -/
def endsLine (gap : List Char) : Bool :=
  gap.getLast?.any isBreak

/-- The number of hexadecimal digits that follow an escape character. -/
def escapeDigits : Char → Nat
  | 'x' => 2
  | 'u' => 4
  | 'U' => 8
  | _ => 0

/-- The character of a code point. Halves of pairs are none. -/
def charOfCode? (code : Nat) : Option Char :=
  if _h : code.isValidChar then some (Char.ofNat code) else none

/-- The character that an escape and its digits stand for. -/
def escaped? (escape : Char) (digits : List Char) : Option Char :=
  match escape with
  | '0' => some '\x00'
  | 'a' => some '\x07'
  | 'b' => some '\x08'
  | 't' | '\t' => some '\t'
  | 'n' => some '\n'
  | 'v' => some '\x0b'
  | 'f' => some '\x0c'
  | 'r' => some '\r'
  | 'e' => some '\x1b'
  | ' ' => some ' '
  | '"' => some '"'
  | '/' => some '/'
  | '\\' => some '\\'
  | 'N' => some '\u0085'
  | '_' => some '\u00a0'
  | 'L' => some '\u2028'
  | 'P' => some '\u2029'
  | 'x' | 'u' | 'U' =>
      if digits.length < escapeDigits escape then none
      else (Number.naturalIn? 16 digits).bind charOfCode?
  | _ => none

/-- The value of a scalar between double quotes, from after the first of them, and the text
after the last one. A line break after a backslash counts as nothing. -/
def doubleQuoted? (text : List Char) : Option (List Char × List Char) :=
  match text with
  | [] => none
  | '"' :: rest => some ([], rest)
  | ['\\'] => none
  | '\\' :: c :: rest =>
      if isBreak c then
        let gap := rest.takeWhile isGap
        let after := rest.dropWhile isGap
        if endsLine (c :: gap) && atMarker after then none
        else (doubleQuoted? after).map fun (s, rest) => (gap.filter isBreak ++ s, rest)
      else
        match escaped? c (rest.take (escapeDigits c)) with
        | none => none
        | some e =>
            (doubleQuoted? (rest.drop (escapeDigits c))).map fun (s, rest) => (e :: s, rest)
  | c :: rest =>
      if isGap c then
        let gap := c :: rest.takeWhile isGap
        let after := rest.dropWhile isGap
        if endsLine gap && atMarker after then none
        else (doubleQuoted? after).map fun (s, rest) => (fold gap ++ s, rest)
      else (doubleQuoted? rest).map fun (s, rest) => (c :: s, rest)
termination_by text.length
decreasing_by
  all_goals
    have := Text.length_dropWhile_le isGap rest
    simp only [List.length_cons, List.length_drop]
    omega

/-- The value of a scalar between single quotes, from after the first of them, and the text
after the last one. A quote in the value is written twice. -/
def singleQuoted? (text : List Char) : Option (List Char × List Char) :=
  match text with
  | [] => none
  | '\'' :: '\'' :: rest => (singleQuoted? rest).map fun (s, rest) => ('\'' :: s, rest)
  | '\'' :: rest => some ([], rest)
  | c :: rest =>
      if isGap c then
        let gap := c :: rest.takeWhile isGap
        let after := rest.dropWhile isGap
        if endsLine gap && atMarker after then none
        else (singleQuoted? after).map fun (s, rest) => (fold gap ++ s, rest)
      else (singleQuoted? rest).map fun (s, rest) => (c :: s, rest)
termination_by text.length
decreasing_by
  all_goals
    have := Text.length_dropWhile_le isGap rest
    simp only [List.length_cons]
    omega

/-- Whether the character has a meaning of its own between brackets. -/
def isFlowMark (c : Char) : Bool :=
  c == ',' || c == '[' || c == ']' || c == '{' || c == '}'

/-- Whether a plain scalar may begin with the text. -/
def startsPlain (inFlow : Bool) : List Char → Bool
  | [] => false
  | '-' :: rest => !(rest.head?.any isSpace)
  | '?' :: rest => !inFlow && !atWordEnd rest
  | ':' :: rest => !inFlow && !atWordEnd rest
  | c :: _ =>
      !isGap c && !isFlowMark c &&
        ['#', '&', '*', '!', '|', '>', '\'', '"', '%', '@', '\x60'].all (c != ·)

/-- The characters of a word of a plain scalar, and the text after them. A colon belongs to the
word unless the word ends after it. -/
def plainWord (inFlow : Bool) : List Char → List Char × List Char
  | [] => ([], [])
  | c :: rest =>
      if isGap c || (c == ':' && atWordEnd rest) || (inFlow && isFlowMark c) then ([], c :: rest)
      else
        let (word, after) := plainWord inFlow rest
        (c :: word, after)

/-- Between brackets no word has a colon right before a mark. -/
def hasStrayColon : List Char → List Char → Bool
  | [], _ => false
  | [c], after => c == ':' && after.head?.any isFlowMark
  | c :: d :: rest, after => (c == ':' && d == '?') || hasStrayColon (d :: rest) after

/-- Whether a line of the gap begins with a tab in the margin. -/
def hasTabInMargin (margin : Nat) : (column : Option Nat) → List Char → Bool
  | _, [] => false
  | column, c :: rest =>
      if isBreak c then hasTabInMargin margin (some 0) rest
      else
        (c == '\t' && column.any (· < margin)) || hasTabInMargin margin (column.map (· + 1)) rest

/-- The column at which a text goes on after what was read from a column on. -/
def columnAfter (column : Nat) (read : List Char) : Nat :=
  read.foldl (fun column c => if isBreak c then 0 else column + 1) column

/-- Whether a plain scalar goes on after a gap: with a further word, which on a later line has
to stand beyond the margin. -/
def continuesPlain (inFlow : Bool) (margin : Nat) (gap after : List Char) : Bool :=
  !gap.isEmpty && !(plainWord inFlow after).1.isEmpty && after.head? != some '#' &&
    !(endsLine gap && atMarker after) &&
    (inFlow || !gap.any isBreak || margin ≤ columnAfter 0 gap)

theorem length_plainWord_le (inFlow : Bool) (text : List Char) :
    (plainWord inFlow text).2.length ≤ text.length := by
  induction text with
  | nil => simp [plainWord]
  | cons c rest ih =>
      rw [plainWord]
      split
      · simp
      · exact Nat.le_succ_of_le ih

/-- The value of a plain scalar with which the text begins, and the text after the scalar and the
gap that follows it. -/
def plain? (inFlow : Bool) (margin : Nat) (text : List Char) : Option (List Char × List Char) :=
  let gap := (plainWord inFlow text).2.takeWhile isGap
  let after := (plainWord inFlow text).2.dropWhile isGap
  if (inFlow && hasStrayColon (plainWord inFlow text).1 (plainWord inFlow text).2) ||
      hasTabInMargin margin none gap then none
  else if _h : continuesPlain inFlow margin gap after then
    (plain? inFlow margin after).map fun (s, rest) =>
      ((plainWord inFlow text).1 ++ fold gap ++ s, rest)
  else some ((plainWord inFlow text).1, after)
termination_by text.length
decreasing_by
  have hle := length_plainWord_le inFlow text
  have hgap : gap.isEmpty = false := by
    cases hg : gap.isEmpty <;> simp_all [continuesPlain]
  have := Text.length_dropWhile_lt hgap
  omega

end TraceAutomata.Yaml
