import TraceAutomata.Proofs.Store.Update
import TraceAutomata.Proofs.Json.Text

namespace TraceAutomata

open Json (Legible ReaderState finiteOrNull)

namespace Json

theorem legible_int64 (n : Int64) (height : Nat) : Legible height (.int n.toInt) := by
  have hlow := n.le_toInt
  have hhigh := n.toInt_lt
  exact .int _ (by omega) (by omega)

theorem legible_int32 (n : Int32) (height : Nat) : Legible height (.int n.toInt) := by
  have hlow := n.le_toInt
  have hhigh := n.toInt_lt
  exact .int _ (by omega) (by omega)

theorem legible_list_map {α : Type} {encode : α → Json} {items : List α} {height : Nat}
    (h : ∀ a ∈ items, Legible height (encode a)) :
    Legible (height + 1) (.list (items.map encode)) :=
  .list fun j hj => by
    obtain ⟨a, ha, rfl⟩ := List.mem_map.mp hj
    exact h a ha

theorem legible_ofDict {α : Type} {encode : α → Json} {d : Dict α} {height : Nat}
    (h : ∀ a ∈ d.values, Legible height (encode a)) : Legible (height + 1) (ofDict encode d) := by
  refine .object ?_ fun m hm => ?_
  · rw [List.map_map]
    exact (List.pairwise_map.mpr d.sorted).imp fun hlt => String.ne_of_lt hlt
  · obtain ⟨e, he, rfl⟩ := List.mem_map.mp hm
    exact h e.2 (List.mem_map_of_mem he)

end Json

namespace Value

/-- Whether the value is no infinity and no not-a-number. -/
def isFinite : Value → Bool
  | .double x => x.isFinite
  | _ => true

/-- The text of the value, if it is a finite number, is read as the number itself. -/
def ReadsBack : Value → Prop
  | .double x => x.isFinite = true → x.ReadsBack
  | _ => True

instance : DecidablePred ReadsBack
  | .double x => inferInstanceAs (Decidable (x.isFinite = true → x.ReadsBack))
  | .null | .string _ | .int _ | .long _ => isTrue trivial

theorem legible_toJson {v : Value} (h : v.ReadsBack) (height : Nat) :
    Legible (height + 1) v.toJson := by
  have htag : ∀ name content, Legible height content → Legible (height + 1) (.tag name content) :=
    fun name content hcontent => .object (by simp) (by simpa using hcontent)
  cases v with
  | null => exact .str _ _
  | string s => exact htag _ _ (.str _ _)
  | int n => exact htag _ _ (Json.legible_int32 n _)
  | long n => exact htag _ _ (Json.legible_int64 n _)
  | double x => exact htag _ _ (.double _ h)

theorem ofJson?_finiteOrNull (v : Value) :
    ofJson? (v.toJson.relay finiteOrNull) = Option.guard isFinite v := by
  cases hfinite : v.isFinite with
  | true =>
      rw [Option.guard_eq_ite, if_pos hfinite, ofJson?_relay]
      rintro x rfl
      exact if_pos hfinite
  | false =>
      rw [Option.guard_eq_ite, if_neg (by rw [hfinite]; decide)]
      cases v with
      | double x => exact ofJson?_relay_eq_none (if_neg (Bool.eq_false_iff.mp hfinite))
      | null | string | int | long => cases hfinite

end Value

namespace Interval

theorem legible_toJson {i : Interval} (h : i.value.ReadsBack) (height : Nat) :
    Legible (height + 2) i.toJson := by
  refine .object (by simp) ?_
  simp only [List.forall_mem_cons]
  exact ⟨Json.legible_int64 _ _, Value.legible_toJson h _, nofun⟩

theorem ofJson?_finiteOrNull (i : Interval) :
    ofJson? (i.toJson.relay finiteOrNull) = Option.guard (·.value.isFinite) i := by
  have hstart : (i.toJson.relay finiteOrNull).required "start" Json.int64? = some i.start :=
    Json.required_relay_int64 _ _ rfl
  have hvalue : (i.toJson.relay finiteOrNull).required "value" Value.ofJson? =
      Option.guard Value.isFinite i.value :=
    (Json.required_relay_of_lookup _ _ _ rfl).trans (Value.ofJson?_finiteOrNull _)
  rw [ofJson?, hstart, hvalue, Option.guard_eq_ite, Option.guard_eq_ite]
  split
  · rfl
  · rfl

end Interval

namespace AttributeHistory

def values (a : AttributeHistory) : List Value :=
  a.intervals.map Interval.value

theorem legible_toJson {a : AttributeHistory} (h : ∀ v ∈ a.values, v.ReadsBack) (height : Nat) :
    Legible (height + 4) a.toJson := by
  refine .object (by simp) ?_
  simp only [List.forall_mem_cons]
  refine ⟨Json.legible_list_map fun name _ => .str _ name,
    Json.legible_list_map fun i hi => ?_, nofun⟩
  exact Interval.legible_toJson (h i.value (List.mem_map_of_mem hi)) height

theorem ofJson?_finiteOrNull (a : AttributeHistory) :
    ofJson? (a.toJson.relay finiteOrNull) = Option.guard (·.values.all Value.isFinite) a := by
  have hpath : (a.toJson.relay finiteOrNull).required "path" (Json.listOf? Json.string?) =
      some a.path := by
    rw [toJson, Json.required_relay_of_lookup _ _ _ rfl, Json.relay_names, Json.listOf?_names]
  have hintervals : (a.toJson.relay finiteOrNull).required "intervals"
      (Json.listOf? Interval.ofJson?) =
      Option.guard (List.all · (·.value.isFinite)) a.intervals := by
    rw [toJson, Json.required_relay_of_lookup _ _ _ rfl, Json.relay_list, List.map_map]
    exact Json.listOf?_map_guard fun i _ => Interval.ofJson?_finiteOrNull i
  rw [ofJson?, hpath, hintervals, Option.guard_eq_ite, Option.guard_eq_ite, values, List.all_map]
  change _ = if (a.intervals.all (·.value.isFinite)) = true then some a else none
  split
  · rfl
  · rfl

end AttributeHistory

theorem utf8ByteSize_bounds (text : List Char) :
    text.length ≤ (String.ofList text).utf8ByteSize ∧
      (String.ofList text).utf8ByteSize ≤ 4 * text.length := by
  induction text with
  | nil => exact ⟨Nat.zero_le _, Nat.zero_le _⟩
  | cons c text ih =>
      have hsize : (String.ofList [c]).utf8ByteSize = c.utf8Size := by simp
      have hlow := c.utf8Size_pos
      have hhigh := c.utf8Size_le_four
      rw [← List.singleton_append, String.ofList_append, String.utf8ByteSize_append, hsize,
        List.length_append, List.length_singleton]
      omega

namespace Json

theorem length_le_itemChars (depth : Nat) (items : List Json) :
    items.length ≤ (itemChars .pretty depth items).length := by
  induction items with
  | nil => exact Nat.zero_le _
  | cons j rest ih =>
      have hgap : 0 < (Layout.pretty.gap depth).length := Nat.succ_pos _
      rw [itemChars, List.length_append, List.length_append, List.length_cons]
      cases rest with
      | nil =>
          rw [List.length_nil]
          omega
      | cons next rest =>
          rw [List.isEmpty_cons, if_neg Bool.false_ne_true]
          simp only [List.length_cons] at ih ⊢
          omega

theorem length_le_enclose (layout : Layout) (depth : Nat) (opening closing : Char)
    (parts : List Char) : parts.length ≤ (enclose layout depth opening closing parts).length := by
  unfold enclose
  split
  · next hempty =>
    rw [List.isEmpty_iff.mp hempty]
    exact Nat.zero_le _
  · simp only [List.length_append, List.length_cons]
    omega

theorem length_chars_le_memberChars {layout : Layout} {depth : Nat} {members : List (String × Json)}
    {m : String × Json} (h : m ∈ members) :
    (chars layout depth m.2).length ≤ (memberChars layout depth members).length := by
  induction members with
  | nil => cases h
  | cons head rest ih =>
      obtain ⟨name, j⟩ := head
      rw [memberChars]
      simp only [List.length_append, List.length_cons]
      rcases List.mem_cons.mp h with rfl | h
      · dsimp only
        omega
      · have hne : rest.isEmpty = false := by
          cases rest with
          | nil => cases h
          | cons => rfl
        rw [hne, if_neg Bool.false_ne_true, List.length_cons]
        have hrest := ih h
        omega

end Json

namespace Snapshot

def values (s : Snapshot) : List Value :=
  s.attributes.flatMap AttributeHistory.values

theorem legible_toJson {s : Snapshot} (h : ∀ v ∈ s.values, v.ReadsBack) (height : Nat) :
    Legible (height + 6) s.toJson := by
  refine .object (by simp) ?_
  simp only [List.forall_mem_cons]
  refine ⟨Json.legible_int64 _ _, Json.legible_int64 _ _, Json.legible_list_map fun a ha => ?_,
    Json.legible_int64 _ _, nofun⟩
  exact AttributeHistory.legible_toJson (fun v hv => h v (List.mem_flatMap_of_mem ha hv)) height

theorem ofJson?_finiteOrNull (s : Snapshot) :
    ofJson? (s.toJson.relay finiteOrNull) = Option.guard (·.values.all Value.isFinite) s := by
  have hstart : (s.toJson.relay finiteOrNull).required "start_time" Json.int64? =
      some s.startTime :=
    Json.required_relay_int64 _ _ rfl
  have hend : (s.toJson.relay finiteOrNull).required "end_time" Json.int64? = some s.endTime :=
    Json.required_relay_int64 _ _ rfl
  have hcreated : (s.toJson.relay finiteOrNull).required "created_at" Json.int64? =
      some s.createdAt :=
    Json.required_relay_int64 _ _ rfl
  have hattributes : (s.toJson.relay finiteOrNull).required "attributes"
      (Json.listOf? AttributeHistory.ofJson?) =
      Option.guard (List.all · (·.values.all Value.isFinite)) s.attributes := by
    rw [toJson, Json.required_relay_of_lookup _ _ _ rfl, Json.relay_list, List.map_map]
    exact Json.listOf?_map_guard fun a _ => AttributeHistory.ofJson?_finiteOrNull a
  rw [ofJson?, hstart, hend, hattributes, hcreated, Option.guard_eq_ite, Option.guard_eq_ite,
    values, List.all_flatMap]
  split
  · rfl
  · rfl

end Snapshot

namespace SnapshotMeta

theorem legible_toJson {m : SnapshotMeta} (hcount : m.attributeCount < 2 ^ 64)
    (hsize : m.sizeBytes < 2 ^ 64) (height : Nat) : Legible (height + 1) m.toJson := by
  refine .object (by simp) ?_
  simp only [List.forall_mem_cons]
  exact ⟨.int _ (by omega) (by omega), Json.legible_int64 _ _, Json.legible_int64 _ _,
    .int _ (by omega) (by omega), .str _ _, nofun⟩

theorem ofJson?_finiteOrNull {m : SnapshotMeta} (hcount : m.attributeCount < 2 ^ 64)
    (hsize : m.sizeBytes < 2 ^ 64) : ofJson? (m.toJson.relay finiteOrNull) = some m := by
  have hattributes : (m.toJson.relay finiteOrNull).required "attribute_count" Json.count? =
      some m.attributeCount :=
    Json.required_relay_count _ _ rfl hcount
  have hend : (m.toJson.relay finiteOrNull).required "end_time" Json.int64? = some m.endTime :=
    Json.required_relay_int64 _ _ rfl
  have hcreated : (m.toJson.relay finiteOrNull).required "created_at" Json.int64? =
      some m.createdAt :=
    Json.required_relay_int64 _ _ rfl
  have hbytes : (m.toJson.relay finiteOrNull).required "size_bytes" Json.count? =
      some m.sizeBytes :=
    Json.required_relay_count _ _ rfl hsize
  have hchecksum : (m.toJson.relay finiteOrNull).required "checksum" Json.string? =
      some m.checksum :=
    Json.required_relay_str _ _ rfl
  rw [ofJson?, hattributes, hend, hcreated, hbytes, hchecksum]
  rfl

end SnapshotMeta

namespace Snapshot

/-- A snapshot that is loaded from its own files passes the comparison of the checksums. -/
theorem load_fileText {s : Snapshot} (hcount : s.attributes.length < 2 ^ 64)
    (hsize : s.fileText.utf8ByteSize < 2 ^ 64) (hnumbers : ∀ v ∈ s.values, v.ReadsBack)
    (file : String) :
    load file s.fileText (some s.metadata.toJson.pretty) =
      if s.values.all Value.isFinite then .ok s else .error .json := by
  have hattributes : s.metadata.attributeCount < 2 ^ 64 := hcount
  have hbytes : s.metadata.sizeBytes < 2 ^ 64 := hsize
  have hmeta : (Json.ofText? s.metadata.toJson.pretty).bind SnapshotMeta.ofJson? =
      some s.metadata := by
    have hlegible : Legible ReaderState.depthLimit s.metadata.toJson :=
      SnapshotMeta.legible_toJson hattributes hbytes 126
    rw [Json.ofText?_pretty hlegible, Option.bind_some,
      SnapshotMeta.ofJson?_finiteOrNull hattributes hbytes]
  have hfile : (Json.ofText? s.fileText).bind ofJson? =
      Option.guard (·.values.all Value.isFinite) s := by
    have hlegible : Legible ReaderState.depthLimit s.toJson := legible_toJson hnumbers 121
    rw [fileText, Json.ofText?_pretty hlegible, Option.bind_some, ofJson?_finiteOrNull]
  have hchecksum : (Checksum.hex (Checksum.ofText s.fileText) != s.metadata.checksum) = false :=
    bne_self_eq_false _
  simp only [load, hmeta, hchecksum, hfile, Option.guard_eq_ite, Bool.false_eq_true, if_false]
  by_cases hfinite : s.values.all Value.isFinite = true
  · simp only [if_pos hfinite]
    rfl
  · simp only [if_neg hfinite]
    rfl

theorem length_attributes_le (s : Snapshot) : s.attributes.length ≤ s.fileText.utf8ByteSize := by
  let items := s.attributes.map AttributeHistory.toJson
  calc s.attributes.length
    _ = items.length := (List.length_map _).symm
    _ ≤ (Json.itemChars .pretty 2 items).length := Json.length_le_itemChars 2 items
    _ ≤ (Json.chars .pretty 1 (.list items)).length := by
      rw [Json.chars]
      exact Json.length_le_enclose _ _ _ _ _
    _ ≤ (Json.chars .pretty 0 s.toJson).length := by
      rw [toJson, Json.chars]
      refine le_trans ?_ (Json.length_le_enclose _ _ _ _ _)
      exact Json.length_chars_le_memberChars (m := ("attributes", .list items)) (by simp [items])
    _ ≤ s.fileText.utf8ByteSize := (utf8ByteSize_bounds _).1

end Snapshot

namespace Store

/-- A snapshot of a store is loaded from the two files that were written for it just as it was
captured, if all its numbers are finite; if one of them is not, loading fails. -/
theorem load_capture (st : Store) (createdAt : Int64) (file : String)
    (hsize : (st.capture createdAt).fileText.utf8ByteSize < 2 ^ 64)
    (hnumbers : ∀ v ∈ (st.capture createdAt).values, v.ReadsBack) :
    let s := st.capture createdAt
    Snapshot.load file s.fileText (some s.metadata.toJson.pretty) =
      if s.values.all Value.isFinite then .ok s else .error .json :=
  Snapshot.load_fileText ((Snapshot.length_attributes_le _).trans_lt hsize) hsize hnumbers file

theorem load_capture_sample :
    let st := (empty 0).updateAll
      [.create root ["a"], .create 1 ["b"], .write 1 1 (.string "say \"é\"\n"),
        .write 1 2 (.int (-5)), .write 1 3 .null, .write 2 4 (.long 9000000000),
        .write 2 5 (.double (.ofInt 2))]
    let s := st.capture 7
    s.values.length = 5 ∧
      Snapshot.load "s.json" s.fileText (some s.metadata.toJson.pretty) = .ok s := by
  intro st s
  have hnumbers : ∀ v ∈ s.values, v.ReadsBack := by decide +kernel
  have hfinite : s.values.all Value.isFinite = true := by decide +kernel
  have hsize : s.fileText.utf8ByteSize < 2 ^ 64 :=
    (utf8ByteSize_bounds _).2.trans_lt (by decide +kernel)
  refine ⟨by decide +kernel, ?_⟩
  rw [load_capture st 7 "s.json" hsize hnumbers, if_pos hfinite]

/-- An infinity may be written to a store, and the snapshot that is captured then cannot be loaded
from its own files. -/
theorem load_capture_infinite :
    let st := (empty 0).updateAll
      [.create root ["a"], .write 1 1 (.double (.ofMagnitude false Double.infinityMagnitude))]
    let s := st.capture 0
    s.values.length = 1 ∧
      Snapshot.load "s.json" s.fileText (some s.metadata.toJson.pretty) = .error .json := by
  intro st s
  have hnumbers : ∀ v ∈ s.values, v.ReadsBack := by decide +kernel
  have hfinite : ¬ s.values.all Value.isFinite = true := by decide +kernel
  have hsize : s.fileText.utf8ByteSize < 2 ^ 64 :=
    (utf8ByteSize_bounds _).2.trans_lt (by decide +kernel)
  have hcount : s.attributes.length < 2 ^ 64 := by decide +kernel
  refine ⟨by decide +kernel, ?_⟩
  rw [Snapshot.load_fileText hcount hsize hnumbers, if_neg hfinite]

end Store

end TraceAutomata
