import TraceAutomata.Yaml.Token

/-!
Reading YAML documents from their tokens. The run over the tokens keeps the lists and maps that
are still open, innermost first; a node that is complete goes into the innermost one.
-/

namespace TraceAutomata.Yaml

/-- A document or a part of one. What a plain scalar means is left to those who use it; a part
that is left out is an empty plain scalar. -/
inductive Node where
  | plain (text : String)
  | quoted (text : String)
  | list (items : List Node)
  /-- The entries in the order in which they are written, those of one name included. -/
  | map (entries : List (String × Node))
deriving Inhabited

namespace Node

/-- What stands where nothing is written. -/
def missing : Node := .plain ""

end Node

/-- A list or map that is still open, its parts in reverse order. -/
inductive Frame where
  /-- A list that is laid out by indentation; `awaits` tells whether an item is due after a
  hyphen. A list that stands no further in than the key before it has no tokens around it. -/
  | blockList (items : List Node) (awaits : Bool) (enclosed : Bool)
  /-- A map that is laid out by indentation, with the key of which the value is due. -/
  | blockMap (entries : List (String × Node)) (due : Option String)
  /-- A list between brackets; `awaits` tells whether an item may stand next. -/
  | flowList (items : List Node) (awaits : Bool)
  | flowMap (entries : List (String × Node)) (due : Option String) (awaits : Bool)
  /-- A map of one entry, written as an item of a list between brackets. -/
  | flowPair (name : String)

structure ReaderState where
  frames : List Frame := []
  /-- The whole document, once it is complete. -/
  result : Option Node := none

namespace ReaderState

/-- At most this many lists and maps may be open at once. -/
def depthLimit : Nat := 128

/-- Puts a complete node into the innermost open frame. -/
def put (node : Node) : List Frame → Option ReaderState
  | [] => some { result := some node }
  | .blockList items true enclosed :: rest =>
      some { frames := .blockList (node :: items) false enclosed :: rest }
  | .blockMap entries (some name) :: rest =>
      some { frames := .blockMap ((name, node) :: entries) none :: rest }
  | .flowList items true :: rest => some { frames := .flowList (node :: items) false :: rest }
  | .flowMap entries (some name) true :: rest =>
      some { frames := .flowMap ((name, node) :: entries) none false :: rest }
  | .flowPair name :: .flowList items true :: rest =>
      some { frames := .flowList (.map [(name, node)] :: items) false :: rest }
  | _ => none

/-- Opens a list or map where a node may stand. -/
def enter (s : ReaderState) (frame : Frame) : Option ReaderState :=
  if s.result.isSome || depthLimit ≤ s.frames.length then none
  else some { frames := frame :: s.frames }

/-- Whether a node may stand next. -/
def awaitsNode (s : ReaderState) : Bool :=
  match s.frames with
  | [] => s.result.isNone
  | .blockList _ awaits _ :: _ => awaits
  | .blockMap _ due :: _ => due.isSome
  | .flowList _ awaits :: _ => awaits
  | .flowMap _ due awaits :: _ => due.isSome && awaits
  | .flowPair _ :: _ => true

/-- The list of a frame, with an empty last item if one is due. -/
def itemsOf (items : List Node) (awaits : Bool) : Node :=
  .list (if awaits then Node.missing :: items else items).reverse

/-- The map of a frame, with an empty last value if one is due. -/
def entriesOf (entries : List (String × Node)) (due : Option String) : Node :=
  .map (match due with
    | some name => (name, Node.missing) :: entries
    | none => entries).reverse

/-- Closes a list that has no tokens around it. -/
def closeUnenclosed (s : ReaderState) : Option ReaderState :=
  match s.frames with
  | .blockList items awaits false :: rest => put (itemsOf items awaits) rest
  | _ => some s

/-- Closes the innermost list or map that is laid out by indentation. -/
def closeBlock (s : ReaderState) : Option ReaderState := do
  match (← s.closeUnenclosed).frames with
  | .blockList items awaits true :: rest => put (itemsOf items awaits) rest
  | .blockMap entries due :: rest => put (entriesOf entries due) rest
  | _ => none

/-- A hyphen begins the next item; after a key it begins a list that no tokens enclose. -/
def hyphen (s : ReaderState) : Option ReaderState :=
  match s.frames with
  | .blockList items awaits enclosed :: rest =>
      let items := if awaits then Node.missing :: items else items
      some { frames := .blockList items true enclosed :: rest }
  | .blockMap _ (some _) :: _ => s.enter (.blockList [] true false)
  | _ => none

def key (s : ReaderState) (name : String) : Option ReaderState := do
  match (← s.closeUnenclosed).frames with
  | .blockMap entries none :: rest => some { frames := .blockMap entries (some name) :: rest }
  | .blockMap entries (some last) :: rest =>
      some { frames := .blockMap ((last, Node.missing) :: entries) (some name) :: rest }
  | .flowMap entries none true :: rest =>
      some { frames := .flowMap entries (some name) true :: rest }
  | .flowList items true :: rest =>
      ReaderState.enter { frames := .flowList items true :: rest } (.flowPair name)
  | _ => none

/-- A scalar is a node, or a key without a value in a map between brackets. -/
def scalar (s : ReaderState) (node : Node) (text : String) : Option ReaderState :=
  match s.frames with
  | .flowMap entries none true :: rest =>
      some { frames := .flowMap ((text, Node.missing) :: entries) none false :: rest }
  | frames => if s.awaitsNode then put node frames else none

/-- An entry between brackets ends. A pair without a value has an empty one. -/
def endEntry (s : ReaderState) : Option ReaderState :=
  match s.frames with
  | .flowPair _ :: _ => put Node.missing s.frames
  | .flowMap _ (some _) true :: _ => put Node.missing s.frames
  | _ => some s

def comma (s : ReaderState) : Option ReaderState := do
  match (← s.endEntry).frames with
  | .flowList items false :: rest => some { frames := .flowList items true :: rest }
  | .flowMap entries none false :: rest => some { frames := .flowMap entries none true :: rest }
  | _ => none

def closeList (s : ReaderState) : Option ReaderState := do
  match (← s.endEntry).frames with
  | .flowList items _ :: rest => put (.list items.reverse) rest
  | _ => none

def closeMap (s : ReaderState) : Option ReaderState := do
  match (← s.endEntry).frames with
  | .flowMap entries none _ :: rest => put (.map entries.reverse) rest
  | _ => none

def step (s : ReaderState) : Token → Option ReaderState
  | .openBlockList => if s.awaitsNode then s.enter (.blockList [] false true) else none
  | .openBlockMap => if s.awaitsNode then s.enter (.blockMap [] none) else none
  | .closeBlock => s.closeBlock
  | .hyphen => s.hyphen
  | .key name => s.key name
  | .plain text => s.scalar (.plain text) text
  | .quoted text => s.scalar (.quoted text) text
  | .openList => if s.awaitsNode then s.enter (.flowList [] true) else none
  | .openMap => if s.awaitsNode then s.enter (.flowMap [] none true) else none
  | .closeList => s.closeList
  | .closeMap => s.closeMap
  | .comma => s.comma

/-- The document, once all tokens are read. A text without tokens is an empty document. -/
def finish (s : ReaderState) : Option Node :=
  if s.frames.isEmpty then some (s.result.getD Node.missing) else none

end ReaderState

def ofTokens? (tokens : List Token) : Option Node :=
  (tokens.foldlM ReaderState.step {}).bind ReaderState.finish

def Node.ofText? (text : String) : Option Node :=
  (tokens? text.toList).bind ofTokens?

end TraceAutomata.Yaml
