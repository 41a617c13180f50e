import TraceAutomata.Json.Basic

/-!
JSON texts, on one line or laid out over several. Strings are written as they are, except for
quotes, backslashes and control characters.
-/

namespace TraceAutomata.Json

/-- How the parts of lists and objects are set apart. -/
structure Layout where
  /-- What precedes each part, and the closing bracket, at a depth of nesting. -/
  gap : Nat → List Char
  afterColon : List Char

/-- Everything on one line, without spaces. -/
def Layout.compact : Layout :=
  ⟨fun _ => [], []⟩

/-- Each part on a line of its own, two spaces further in than what holds it. -/
def Layout.pretty : Layout :=
  ⟨fun depth => '\n' :: List.replicate (2 * depth) ' ', [' ']⟩

def hexChar (n : Nat) : Char :=
  Nat.digitChar n

def escape (c : Char) : List Char :=
  match c with
  | '"' => ['\\', '"']
  | '\\' => ['\\', '\\']
  | '\x08' => ['\\', 'b']
  | '\x0c' => ['\\', 'f']
  | '\n' => ['\\', 'n']
  | '\r' => ['\\', 'r']
  | '\t' => ['\\', 't']
  | c =>
      if c.toNat < 0x20 then
        ['\\', 'u', '0', '0', hexChar (c.toNat / 16), hexChar (c.toNat % 16)]
      else [c]

def quote (s : String) : List Char :=
  '"' :: s.toList.flatMap escape ++ ['"']

/-- Lists and objects without parts are written without a gap. -/
def enclose (layout : Layout) (depth : Nat) (opening closing : Char) (parts : List Char) :
    List Char :=
  if parts.isEmpty then [opening, closing]
  else opening :: parts ++ layout.gap depth ++ [closing]

mutual

def chars (layout : Layout) (depth : Nat) : Json → List Char
  | .null => ['n', 'u', 'l', 'l']
  | .bool true => ['t', 'r', 'u', 'e']
  | .bool false => ['f', 'a', 'l', 's', 'e']
  | .int n => Double.signed (n < 0) (Nat.toDigits 10 n.natAbs)
  | .double x => x.jsonChars
  | .str s => quote s
  | .list items => enclose layout depth '[' ']' (itemChars layout (depth + 1) items)
  | .object members => enclose layout depth '{' '}' (memberChars layout (depth + 1) members)

def itemChars (layout : Layout) (depth : Nat) : List Json → List Char
  | [] => []
  | j :: rest =>
      layout.gap depth ++ chars layout depth j ++
        (if rest.isEmpty then [] else ',' :: itemChars layout depth rest)

def memberChars (layout : Layout) (depth : Nat) : List (String × Json) → List Char
  | [] => []
  | (name, j) :: rest =>
      layout.gap depth ++ quote name ++ ':' :: layout.afterColon ++ chars layout depth j ++
        (if rest.isEmpty then [] else ',' :: memberChars layout depth rest)

end

def compact (j : Json) : String :=
  String.ofList (chars .compact 0 j)

def pretty (j : Json) : String :=
  String.ofList (chars .pretty 0 j)

end TraceAutomata.Json
