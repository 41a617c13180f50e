import TraceAutomata.Yaml.Scalar

/-!
The tokens of YAML texts. Lists and maps that are laid out by indentation are enclosed in tokens
of their own, as those between brackets are, so that the columns in which things stand matter
nowhere else. Tags, anchors, block scalars and further documents are refused.
-/

namespace TraceAutomata.Yaml

inductive Token where
  /-- A list that is laid out by indentation begins. -/
  | openBlockList
  | openBlockMap
  | closeBlock
  /-- The hyphen before an item of a list that is laid out by indentation. -/
  | hyphen
  /-- A name and the colon after it. -/
  | key (name : String)
  | plain (text : String)
  | quoted (text : String)
  | openList
  | closeList
  | openMap
  | closeMap
  | comma
deriving DecidableEq

/-- A place in a text. -/
structure Cursor where
  rest : List Char
  column : Nat := 0
  /-- Whether a key may stand here: at the beginning of a line, after a hyphen, and after an
  opening bracket or a comma. -/
  keyAllowed : Bool := true
  /-- The columns of the open lists and maps that are laid out by indentation, innermost
  first. -/
  indents : List Nat := []
  /-- How many brackets are open. -/
  brackets : Nat := 0
  /-- Whether the document has begun. -/
  begun : Bool := false

namespace Cursor

def inFlow (s : Cursor) : Bool :=
  0 < s.brackets

/-- The cursor after what was read up to a remaining text. -/
def moveTo (s : Cursor) (rest : List Char) : Cursor :=
  { s with
    rest
    column := columnAfter s.column (s.rest.take (s.rest.length - rest.length)) }

/-- Goes past spaces, line ends and comments. Tabs indent nothing, so outside of brackets none
may stand where a key may stand. -/
def skipFrom (inFlow : Bool) : (inComment keyAllowed : Bool) → (column : Nat) → List Char →
    Bool × Nat × List Char
  | _, keyAllowed, column, [] => (keyAllowed, column, [])
  | inComment, keyAllowed, column, c :: rest =>
      if isBreak c then skipFrom inFlow false (keyAllowed || !inFlow) 0 rest
      else if inComment then skipFrom inFlow true keyAllowed (column + 1) rest
      else if c == ' ' || (c == '\t' && (inFlow || !keyAllowed)) then
        skipFrom inFlow false keyAllowed (column + 1) rest
      else if c == '#' then skipFrom inFlow true keyAllowed (column + 1) rest
      else (keyAllowed, column, c :: rest)

def skip (s : Cursor) : Cursor :=
  let (keyAllowed, column, rest) := skipFrom s.inFlow false s.keyAllowed s.column s.rest
  { s with keyAllowed, column, rest }

/-- Goes past one character that is a token by itself. -/
def past (s : Cursor) (keyAllowed : Bool) : Cursor :=
  { s with rest := s.rest.drop 1, column := s.column + 1, keyAllowed }

/-- Closes the lists and maps that are laid out further in than a column. -/
def dedent (s : Cursor) (column : Nat) : List Token × Cursor :=
  if s.inFlow then ([], s)
  else
    (List.replicate (s.indents.takeWhile (column < ·)).length .closeBlock,
      { s with indents := s.indents.dropWhile (column < ·) })

/-- Opens a list or map at the column of the cursor, unless one at that column is open. -/
def indent (s : Cursor) (opening : Token) : List Token × Cursor :=
  if s.inFlow || s.indents.head?.any (s.column ≤ ·) then ([], s)
  else ([opening], { s with indents := s.column :: s.indents })

/-- Whether the cursor is where nothing but a key or a hyphen may stand. -/
def atMargin (s : Cursor) : Bool :=
  !s.inFlow && s.keyAllowed && s.indents.head? == some s.column

/-- The column beyond which the lines of a plain scalar have to stand. -/
def margin (s : Cursor) : Nat :=
  (s.indents.head?.map (· + 1)).getD 0

/-- Whether the text goes on with the colon after a key. -/
def atColon (s : Cursor) : List Char → Bool
  | ':' :: rest => s.inFlow || atWordEnd rest
  | _ => false

/-- A key has at most this many characters, its colon not counted. -/
def keyLimit : Nat := 1024

/-- A scalar, or a key if a colon follows it. A key stands on one line. -/
def scalar (s : Cursor) (token : String → Token) (text : List Char) (rest : List Char) :
    Option (List Token × Cursor) :=
  let read := s.rest.take (s.rest.length - rest.length)
  let after := rest.dropWhile isSpace
  if s.atColon after then
    if s.keyAllowed && !read.any isBreak && s.rest.length - after.length ≤ keyLimit then
      let (opened, s) := s.indent .openBlockMap
      some (opened ++ [.key (String.ofList text)],
        { s.moveTo (after.drop 1) with keyAllowed := false })
    else none
  else if s.atMargin then none
  else some ([token (String.ofList text)],
    { s.moveTo rest with
        keyAllowed := !s.inFlow && (read.reverse.takeWhile isGap).any isBreak })

/-- Reads a mark between documents. Only one that begins the document, and one after which
nothing else stands, are admitted. -/
def marker (s : Cursor) : Option (List Token × Cursor) :=
  let after := { s with rest := s.rest.drop 3, column := 3, keyAllowed := false, begun := true }
  if s.inFlow then none
  else if s.rest.head? == some '-' then
    if s.begun then none else some ([], after)
  else
    if after.skip.rest.isEmpty then
      some (s.indents.map fun _ => .closeBlock, { after.skip with indents := [] })
    else none

/-- The tokens at the cursor, which stands at neither a space nor the end of the text. -/
def token (s : Cursor) (c : Char) (rest : List Char) : Option (List Token × Cursor) :=
  if c == '-' && atWordEnd rest then
    if s.inFlow || !s.keyAllowed then none
    else
      let (opened, s) := s.indent .openBlockList
      some (opened ++ [.hyphen], s.past true)
  else if c == '[' || c == '{' then
    if s.atMargin then none
    else
      some ([if c == '[' then .openList else .openMap],
        { s.past true with brackets := s.brackets + 1 })
  else if c == ']' || c == '}' then
    if s.inFlow then
      some ([if c == ']' then .closeList else .closeMap],
        { s.past false with brackets := s.brackets - 1 })
    else none
  else if c == ',' then
    if s.inFlow then some ([.comma], s.past true) else none
  else if c == ':' && s.inFlow then
    if s.keyAllowed then some ([.key ""], s.past false) else none
  else if c == '"' then
    (doubleQuoted? rest).bind fun (text, rest) => s.scalar .quoted text rest
  else if c == '\'' then
    (singleQuoted? rest).bind fun (text, rest) => s.scalar .quoted text rest
  else if startsPlain s.inFlow (c :: rest) then
    (plain? s.inFlow s.margin (c :: rest)).bind fun (text, rest) => s.scalar .plain text rest
  else none

/-- The next tokens of a text, after those that close what ends before them. -/
def next (s : Cursor) (c : Char) (rest : List Char) : Option (List Token × Cursor) :=
  if s.column == 0 && atMarker (c :: rest) then s.marker
  else
    let (closed, s) := s.dedent s.column
    ({ s with begun := true }.token c rest).map fun (tokens, s) => (closed ++ tokens, s)

/-- All tokens from a place in a text on. Every step reads at least one character. -/
def tokens? (s : Cursor) : Option (List Token) :=
  match s.skip.rest with
  | [] => if s.inFlow then none else some (s.indents.map fun _ => .closeBlock)
  | c :: rest =>
      match s.skip.next c rest with
      | none => none
      | some (tokens, after) =>
          if _h : after.rest.length < s.rest.length then
            after.tokens?.map fun more => tokens ++ more
          else none
termination_by s.rest.length

end Cursor

def tokens? (text : List Char) : Option (List Token) :=
  let text := if text.head? == some '\ufeff' then text.drop 1 else text
  if text.all isPrintable then Cursor.tokens? { rest := withNewlines text } else none

end TraceAutomata.Yaml
