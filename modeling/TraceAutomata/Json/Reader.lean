import TraceAutomata.Json.Token

/-!
Reading JSON documents from their tokens. The run over the tokens keeps the lists and objects
that are still open, innermost first; a value that is complete goes into the innermost one.
-/

namespace TraceAutomata.Json

/-- A list or object that is still open, with the values that it holds so far. -/
inductive Frame where
  /-- The items in reverse order. -/
  | list (items : List Json)
  | object (members : List (String × Json))
  /-- An object whose next member has its name but not its value. -/
  | member (members : List (String × Json)) (name : String)

/-- What may follow the tokens read so far. -/
inductive Expected where
  | value
  | valueOrClose
  | name
  | nameOrClose
  | colon
  | separator
  | nothing
deriving DecidableEq

structure ReaderState where
  expected : Expected
  frames : List Frame
  /-- The whole document, once nothing more is expected. -/
  result : Json

namespace ReaderState

def start : ReaderState :=
  ⟨.value, [], .null⟩

/-- At most this many lists and objects may be open at once. -/
def depthLimit : Nat := 127

/-- Puts a complete value into the innermost open frame. Of members with one name the last
one counts. -/
def put (frames : List Frame) (value : Json) : Option ReaderState :=
  match frames with
  | [] => some ⟨.nothing, [], value⟩
  | .list items :: rest => some ⟨.separator, .list (value :: items) :: rest, .null⟩
  | .member members name :: rest =>
      some ⟨.separator, .object (insertEntry name value members) :: rest, .null⟩
  | .object _ :: _ => none

def enter (frames : List Frame) (expected : Expected) (frame : Frame) : Option ReaderState :=
  if frames.length < depthLimit then some ⟨expected, frame :: frames, .null⟩ else none

/-- The token begins a value or is one. -/
def value (frames : List Frame) : Token → Option ReaderState
  | .null => put frames .null
  | .bool b => put frames (.bool b)
  | .int n => put frames (.int n)
  | .double x => put frames (.double x)
  | .str s => put frames (.str s)
  | .openList => enter frames .valueOrClose (.list [])
  | .openObject => enter frames .nameOrClose (.object [])
  | _ => none

def close : List Frame → Token → Option ReaderState
  | .list items :: rest, .closeList => put rest (.list items.reverse)
  | .object members :: rest, .closeObject => put rest (.object members)
  | _, _ => none

def name : List Frame → Token → Option ReaderState
  | .object members :: rest, .str s => some ⟨.colon, .member members s :: rest, .null⟩
  | _, _ => none

def step (s : ReaderState) (t : Token) : Option ReaderState :=
  match s.expected with
  | .value => value s.frames t
  | .valueOrClose => if t = .closeList then close s.frames t else value s.frames t
  | .name => name s.frames t
  | .nameOrClose => if t = .closeObject then close s.frames t else name s.frames t
  | .colon => if t = .colon then some { s with expected := .value } else none
  | .separator =>
      if t = .comma then
        match s.frames with
        | .list _ :: _ => some { s with expected := .value }
        | .object _ :: _ => some { s with expected := .name }
        | _ => none
      else close s.frames t
  | .nothing => none

def finish (s : ReaderState) : Option Json :=
  if s.expected = .nothing then some s.result else none

end ReaderState

def ofTokens? (tokens : List Token) : Option Json :=
  (tokens.foldlM ReaderState.step .start).bind ReaderState.finish

/-- The document that a text spells; nothing but spaces may stand around it. -/
def ofText? (text : String) : Option Json :=
  (tokens? text.toList).bind ofTokens?

end TraceAutomata.Json
