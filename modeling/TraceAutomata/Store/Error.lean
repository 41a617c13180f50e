namespace TraceAutomata

inductive StoreError where
  /-- No attribute stands at the path. -/
  | attributeNotFound (path : String)
  /-- The store has no attribute with this number. -/
  | invalidQuark (quark : Nat)
  /-- A write is earlier than the last one to the same attribute. -/
  | timeOrdering (path : String) (last attempted : Int64)
  /-- The attribute stands at or below a name that is locked. -/
  | locked (path : String)
  /-- A snapshot file does not have the checksum that its metadata states. -/
  | corruption (file expected actual : String)
  /-- A file cannot be read or written. -/
  | io
  /-- A snapshot or its metadata is no document of the right form. -/
  | json
deriving DecidableEq

namespace StoreError

def isWriteFailure : StoreError → Bool
  | .timeOrdering .. => true
  | .invalidQuark _ => true
  | _ => false

def message : StoreError → String
  | .attributeNotFound path => s!"attribute not found: {path}"
  | .invalidQuark quark => s!"invalid quark: {quark}"
  | .timeOrdering path last attempted =>
      s!"out-of-order write on '{path}': last write at {last.toInt}, attempted at {attempted.toInt}"
  | .locked path => s!"data corruption: attribute '{path}' is locked"
  | .corruption file expected actual =>
      s!"data corruption: snapshot {file} checksum mismatch (expected {expected}, got {actual})"
  | .io => "I/O error"
  | .json => "JSON error"

end StoreError

end TraceAutomata
