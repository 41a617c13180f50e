import TraceAutomata.Store.Basic

/-!
Scans by way of single operations. A scan needs no more than the children of attributes and the ends
of paths, so it goes over a store that several holders share as well, where every operation has the
store for itself while it lasts and finds what the operation before has left.
-/

namespace TraceAutomata

/-- The operations of which a scan is made. -/
structure StoreReader (m : Type → Type) where
  children : Quark → m (List Quark)
  resolve : Quark → List String → m Quark

namespace StoreReader

variable {m : Type → Type} [Monad m]

/-- The attributes one step below another one that a segment of a pattern matches. -/
def matching [MonadExceptOf StoreError m] (reader : StoreReader m) (segment : String) (q : Quark) :
    m (List Quark) :=
  if segment = Store.wildcard then reader.children q
  else tryCatch (return [← reader.resolve q [segment]]) fun _ : StoreError => return []

/-- The attributes below another one whose paths match a pattern segment by segment. -/
def scan [MonadExceptOf StoreError m] (reader : StoreReader m) (q : Quark)
    (pattern : List String) : m (List Quark) :=
  pattern.foldlM (fun found segment => return (← found.mapM (reader.matching segment)).flatten) [q]

end StoreReader

/-- The operations on a store that nobody else has. -/
def Store.reader (st : Store) : StoreReader (Except StoreError) where
  children := st.children
  resolve := st.resolve

/-- An operation on a store that several holders share. -/
abbrev SharedM := EStateM StoreError Store

namespace SharedM

/-- Looks at the store as it is and leaves it so. -/
def read {α : Type} (look : Store → Except StoreError α) : SharedM α := fun st =>
  match look st with
  | .ok a => .ok a st
  | .error e => .error e st

/-- The operations on a shared store, each of which looks at it anew. -/
def reader : StoreReader SharedM where
  children q := read fun st => st.children q
  resolve q path := read fun st => st.resolve q path

end SharedM

end TraceAutomata
