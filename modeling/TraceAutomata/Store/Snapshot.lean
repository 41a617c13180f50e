import TraceAutomata.Store.Basic
import TraceAutomata.Json.Reader
import TraceAutomata.Json.Writer
import TraceAutomata.Checksum

/-!
Snapshots of a store: the history of every attribute that was ever written, found on a walk down
from the root that goes deep first. A snapshot is kept as a document beside a second one that
states its checksum.
-/

namespace TraceAutomata

/-- The history of one attribute. -/
structure AttributeHistory where
  path : List String
  intervals : List Interval
deriving DecidableEq

structure Snapshot where
  startTime : Int64
  endTime : Int64
  attributes : List AttributeHistory
  /-- Milliseconds since the beginning of the year 1970. -/
  createdAt : Int64
deriving DecidableEq

/-- What is kept beside a snapshot. -/
structure SnapshotMeta where
  attributeCount : Nat
  endTime : Int64
  createdAt : Int64
  sizeBytes : Nat
  checksum : String
deriving DecidableEq

/-- A walk over the attributes of a store: those that wait to be visited, with their paths and
the next one first, and the histories that were found, the latest one first. -/
structure Walk where
  waiting : List (Quark × List String)
  found : List AttributeHistory := []

namespace Store

/-- Visits the next attribute. Its children come before all that waited already, in increasing
order of their names. -/
def visitNext (st : Store) (w : Walk) : Walk :=
  match w.waiting with
  | [] => w
  | (q, path) :: rest =>
      match st.nodes[q]? with
      | none => { w with waiting := rest }
      | some n =>
          { waiting := (n.children.entries.map fun (name, child) => (child, path ++ [name])) ++ rest
            found :=
              if n.intervals.isEmpty then w.found
              else ⟨path, n.intervals.toList⟩ :: w.found }

/-- The walk from the root after some visits. -/
def walk (st : Store) (visits : Nat) : Walk :=
  Nat.repeat st.visitNext visits { waiting := [(root, [])] }

/-- The histories of all attributes that were ever written, as a walk finds them that visits as
many attributes as there are. -/
def written (st : Store) : List AttributeHistory :=
  (st.walk st.size).found.reverse

def capture (st : Store) (createdAt : Int64) : Snapshot :=
  ⟨st.startTime, st.endTime, st.written, createdAt⟩

/-- Puts a history in the place of the one that an attribute has. -/
def setHistory (st : Store) (q : Quark) (intervals : List Interval) : Store :=
  { st with
    nodes := st.nodes.modify q fun n => { n with intervals := intervals.toArray } }

def addAttribute (st : Store) (a : AttributeHistory) : Except StoreError Store := do
  let (st, q) ← st.ensure root a.path
  return st.setHistory q a.intervals

end Store

namespace Interval

def toJson (i : Interval) : Json :=
  .object [("start", .int i.start.toInt), ("value", i.value.toJson)]

def ofJson? (j : Json) : Option Interval := do
  return ⟨← j.required "start" Json.int64?, ← j.required "value" Value.ofJson?⟩

end Interval

namespace AttributeHistory

def toJson (a : AttributeHistory) : Json :=
  .object [("path", .names a.path), ("intervals", .list (a.intervals.map Interval.toJson))]

def ofJson? (j : Json) : Option AttributeHistory := do
  return ⟨← j.required "path" (Json.listOf? Json.string?),
    ← j.required "intervals" (Json.listOf? Interval.ofJson?)⟩

end AttributeHistory

namespace SnapshotMeta

def toJson (m : SnapshotMeta) : Json :=
  .object [("attribute_count", .int m.attributeCount), ("end_time", .int m.endTime.toInt),
    ("created_at", .int m.createdAt.toInt), ("size_bytes", .int m.sizeBytes),
    ("checksum", .str m.checksum)]

def ofJson? (j : Json) : Option SnapshotMeta := do
  return ⟨← j.required "attribute_count" Json.count?, ← j.required "end_time" Json.int64?,
    ← j.required "created_at" Json.int64?, ← j.required "size_bytes" Json.count?,
    ← j.required "checksum" Json.string?⟩

/-- The name of the file that holds the metadata of a snapshot file. -/
def fileName (snapshot : String) : String :=
  snapshot ++ ".meta.json"

end SnapshotMeta

namespace Snapshot

def toJson (s : Snapshot) : Json :=
  .object [("start_time", .int s.startTime.toInt), ("end_time", .int s.endTime.toInt),
    ("attributes", .list (s.attributes.map AttributeHistory.toJson)),
    ("created_at", .int s.createdAt.toInt)]

def ofJson? (j : Json) : Option Snapshot := do
  return ⟨← j.required "start_time" Json.int64?, ← j.required "end_time" Json.int64?,
    ← j.required "attributes" (Json.listOf? AttributeHistory.ofJson?),
    ← j.required "created_at" Json.int64?⟩

/-- The store that has the attributes and histories of a snapshot. -/
def restore (s : Snapshot) : Except StoreError Store := do
  let st ← s.attributes.foldlM Store.addAttribute (Store.empty s.startTime)
  return { st with endTime := max s.endTime s.startTime }

def fileText (s : Snapshot) : String :=
  s.toJson.pretty

def metadata (s : Snapshot) : SnapshotMeta where
  attributeCount := s.attributes.length
  endTime := s.endTime
  createdAt := s.createdAt
  sizeBytes := s.fileText.utf8ByteSize
  checksum := Checksum.hex (Checksum.ofText s.fileText)

/-- Reads a snapshot from the text of its file and that of its metadata, if there is any. The
checksum is compared before the text is read as a document. -/
def load (file : String) (text : String) (metaText : Option String) :
    Except StoreError Snapshot := do
  if let some metaText := metaText then
    match (Json.ofText? metaText).bind SnapshotMeta.ofJson? with
    | none => throw .json
    | some m =>
        let actual := Checksum.hex (Checksum.ofText text)
        if actual != m.checksum then
          throw (.corruption file m.checksum actual)
  match (Json.ofText? text).bind ofJson? with
  | none => throw .json
  | some s => return s

end Snapshot

end TraceAutomata
