import TraceAutomata.Proofs.Json.Relay
import TraceAutomata.Proofs.Json.Token

namespace TraceAutomata

/-- The text of the number is read as the number itself, not as one near to it. -/
def Double.ReadsBack (x : Double) : Prop :=
  Json.ofText? (Json.double x).compact = some (.double x)

namespace Json

def finiteOrNull (x : Double) : Json :=
  if x.isFinite then .double x else .null

mutual

def tokens : Json → List Token
  | .null => [.null]
  | .bool b => [.bool b]
  | .int n => [.int n]
  | .double x => [if x.isFinite then .double x else .null]
  | .str s => [.str s]
  | .list items => .openList :: itemTokens items ++ [.closeList]
  | .object members => .openObject :: memberTokens members ++ [.closeObject]

def itemTokens : List Json → List Token
  | [] => []
  | j :: rest => tokens j ++ (if rest.isEmpty then [] else .comma :: itemTokens rest)

def memberTokens : List (String × Json) → List Token
  | [] => []
  | (name, j) :: rest =>
      .str name :: .colon :: tokens j ++ (if rest.isEmpty then [] else .comma :: memberTokens rest)

end

/-- Documents that are read back: whole numbers that 64 bits hold, finite numbers that are read as
themselves, and objects without two members of one name, with lists and objects nested in each other
at most so many times. -/
inductive Legible : Nat → Json → Prop
  | null (height : Nat) : Legible height .null
  | bool (height : Nat) (b : Bool) : Legible height (.bool b)
  | int (height : Nat) {n : Int} (low : -(2 ^ 63) ≤ n) (high : n < 2 ^ 64) : Legible height (.int n)
  | double (height : Nat) {x : Double} (readsBack : x.isFinite = true → x.ReadsBack) :
      Legible height (.double x)
  | str (height : Nat) (s : String) : Legible height (.str s)
  | list {height : Nat} {items : List Json} (all : ∀ j ∈ items, Legible height j) :
      Legible (height + 1) (.list items)
  | object {height : Nat} {members : List (String × Json)} (nodup : (members.map Prod.fst).Nodup)
      (all : ∀ m ∈ members, Legible height m.2) : Legible (height + 1) (.object members)

theorem ofTokens?_singleton_eq_some {token : Token} {x : Double} :
    ofTokens? [token] = some (.double x) ↔ token = .double x := by
  cases token <;>
    simp [ofTokens?, ReaderState.start, ReaderState.step, ReaderState.value, ReaderState.put,
      ReaderState.enter, ReaderState.finish, ReaderState.depthLimit]

theorem readsBack_iff {x : Double} : x.ReadsBack ↔ word? x.jsonChars = some (.double x) := by
  have htext : ofText? (Json.double x).compact = (tokens? x.jsonChars).bind ofTokens? := by
    rw [ofText?, compact, String.toList_ofList, chars]
  rw [Double.ReadsBack, htext]
  by_cases hempty : x.jsonChars = []
  · rw [hempty, tokens?]
    constructor <;> intro h <;> cases h
  · have hword := tokens?_word hempty isWordChar_of_mem_jsonChars Apart.nil
    rw [List.append_nil] at hword
    rw [hword]
    cases word? x.jsonChars with
    | none => simp
    | some token =>
        rw [Option.bind_some, tokens?, Option.map_some, Option.bind_some,
          ofTokens?_singleton_eq_some, Option.some_inj]

instance (x : Double) : Decidable x.ReadsBack :=
  decidable_of_iff _ readsBack_iff.symm

/-- Nothing but spaces sets the parts of lists and objects apart. -/
structure Layout.Blank (layout : Layout) : Prop where
  gap : ∀ depth, ∀ c ∈ layout.gap depth, isSpace c = true
  afterColon : ∀ c ∈ layout.afterColon, isSpace c = true

theorem blank_compact : Layout.compact.Blank :=
  ⟨nofun, nofun⟩

theorem blank_pretty : Layout.pretty.Blank where
  gap := by
    intro depth c hc
    rcases List.mem_cons.mp hc with rfl | hc
    · rfl
    · rw [List.eq_of_mem_replicate hc]
      rfl
  afterColon := List.all_eq_true.mp rfl

theorem apart_separated (last : Prop) [Decidable last] (text : List Char) :
    Apart (if last then [] else ',' :: text) := by
  split
  · exact .nil
  · exact .mark_cons (c := ',') rfl _

namespace Spells

variable {text : List Char} {tokens : List Token}

theorem separated (last : Prop) [Decidable last] (h : Spells text tokens) :
    Spells (if last then [] else ',' :: text) (if last then [] else .comma :: tokens) := by
  split
  · exact .nil
  · exact .mark_cons rfl h

theorem enclose {layout : Layout} (hblank : layout.Blank) (depth : Nat) {opening closing : Char}
    {first last : Token} (hfirst : mark? opening = some first) (hlast : mark? closing = some last)
    (h : Spells text tokens) :
    Spells (enclose layout depth opening closing text) (first :: tokens ++ [last]) := by
  have hclose : Spells [closing] [last] := .mark_cons hlast .nil
  have hapart : Apart [closing] := .mark_cons hlast []
  unfold Json.enclose
  split
  · next hempty =>
    obtain rfl := List.isEmpty_iff.mp hempty
    exact .mark_cons hfirst (h.append hclose hapart)
  · rw [List.append_assoc]
    exact .mark_cons hfirst
      (h.append (.blank_append (hblank.gap depth) hclose) (.blank_append (hblank.gap depth) hapart))

end Spells

section Spelling

variable {layout : Layout} {depth : Nat}

theorem spells_items (hblank : layout.Blank) {items : List Json}
    (h : ∀ j ∈ items, Spells (chars layout depth j) j.tokens) :
    Spells (itemChars layout depth items) (itemTokens items) := by
  induction items with
  | nil => exact .nil
  | cons j rest ih =>
      obtain ⟨hj, hrest⟩ := List.forall_mem_cons.mp h
      rw [itemChars, itemTokens, List.append_assoc]
      exact .blank_append (hblank.gap depth)
        (hj.append (.separated _ (ih hrest)) (apart_separated _ _))

theorem spells_members (hblank : layout.Blank) {members : List (String × Json)}
    (h : ∀ m ∈ members, Spells (chars layout depth m.2) m.2.tokens) :
    Spells (memberChars layout depth members) (memberTokens members) := by
  induction members with
  | nil => exact .nil
  | cons head rest ih =>
      obtain ⟨name, j⟩ := head
      obtain ⟨hj, hrest⟩ := List.forall_mem_cons.mp h
      have hvalue := hj.append (.separated (rest.isEmpty = true) (ih hrest)) (apart_separated _ _)
      have hmember := Spells.blank_append (hblank.gap depth) <|
        Spells.quote_append name <| .mark_cons (c := ':') rfl <|
          .blank_append hblank.afterColon hvalue
      rw [memberChars, memberTokens]
      simpa only [List.append_assoc, List.cons_append] using hmember

theorem Legible.spells (hblank : layout.Blank) {height : Nat} {j : Json} (h : Legible height j) :
    Spells (chars layout depth j) j.tokens := by
  induction h generalizing depth with
  | null =>
      rw [chars, tokens]
      exact .word (List.cons_ne_nil _ _) (List.all_eq_true.mp rfl) rfl
  | bool _ b =>
      cases b with
      | false =>
          rw [chars, tokens]
          exact .word (List.cons_ne_nil _ _) (List.all_eq_true.mp rfl) rfl
      | true =>
          rw [chars, tokens]
          exact .word (List.cons_ne_nil _ _) (List.all_eq_true.mp rfl) rfl
  | @int _ n low high =>
      rw [chars, tokens]
      refine .word ?_ (isWordChar_of_mem_signed fun c => isWordChar_of_mem_toDigits)
        (word?_int low high)
      cases decide (n < 0) <;> simp [Double.signed, Nat.toDigits_ne_nil]
  | @double _ x readsBack =>
      rw [chars, tokens]
      by_cases hfinite : x.isFinite
      · have hword := readsBack_iff.mp (readsBack hfinite)
        rw [if_pos hfinite]
        refine .word ?_ isWordChar_of_mem_jsonChars hword
        intro hempty
        rw [hempty] at hword
        cases hword
      · rw [if_neg hfinite, Double.jsonChars, if_neg hfinite]
        exact .word (List.cons_ne_nil _ _) (List.all_eq_true.mp rfl) rfl
  | str _ s =>
      rw [chars, tokens, ← List.append_nil (quote s)]
      exact .quote_append s .nil
  | list _ ih =>
      rw [chars, tokens]
      exact .enclose hblank _ rfl rfl (spells_items hblank fun j hj => ih j hj)
  | object _ _ ih =>
      rw [chars, tokens]
      exact .enclose hblank _ rfl rfl (spells_members hblank fun m hm => ih m hm)

end Spelling

/-- Wherever a value may stand, with so many levels left inside, the tokens put the document
there. -/
def Reads (height : Nat) (tokens : List Token) (j : Json) : Prop :=
  ∀ expected frames result, expected = Expected.value ∨ expected = Expected.valueOrClose →
    frames.length + height ≤ ReaderState.depthLimit →
    tokens.foldlM ReaderState.step ⟨expected, frames, result⟩ = ReaderState.put frames j

namespace Reads

variable {height : Nat}

theorem ofTokens?_eq {tokens : List Token} {j : Json} (h : Reads ReaderState.depthLimit tokens j) :
    ofTokens? tokens = some j := by
  rw [ofTokens?, ReaderState.start, h _ _ _ (.inl rfl) (by simp)]
  rfl

theorem step_eq {expected : Expected} {token : Token}
    (hexpected : expected = Expected.value ∨ expected = Expected.valueOrClose)
    (hclose : token ≠ .closeList) (frames : List Frame) (result : Json) :
    ReaderState.step ⟨expected, frames, result⟩ token = ReaderState.value frames token := by
  obtain rfl | rfl := hexpected
  · rfl
  · exact if_neg hclose

theorem single {token : Token} {j : Json} (hclose : token ≠ .closeList)
    (h : ∀ frames, ReaderState.value frames token = ReaderState.put frames j) :
    Reads height [token] j := by
  intro expected frames result hexpected _
  rw [List.foldlM_cons, step_eq hexpected hclose, h]
  exact bind_pure _

theorem opened {first : Token} {rest : List Token} {inside : Expected} {frame : Frame} {j : Json}
    (hclose : first ≠ .closeList)
    (hfirst : ∀ frames, ReaderState.value frames first = ReaderState.enter frames inside frame)
    (hrest : ∀ frames : List Frame, frames.length + (height + 1) ≤ ReaderState.depthLimit →
      rest.foldlM ReaderState.step ⟨inside, frame :: frames, .null⟩ = ReaderState.put frames j) :
    Reads (height + 1) (first :: rest) j := by
  intro expected frames result hexpected hlimit
  have henter : ReaderState.enter frames inside frame = some ⟨inside, frame :: frames, .null⟩ :=
    if_pos (by omega)
  rw [List.foldlM_cons, step_eq hexpected hclose, hfirst, henter]
  exact hrest frames hlimit

theorem items_append {items : List Json} {f : Json → Json}
    (h : ∀ j ∈ items, Reads height j.tokens (f j)) {expected : Expected}
    (hexpected : expected = .valueOrClose ∨ expected = .value ∧ items ≠ [])
    (found : List Json) (frames : List Frame) (result : Json)
    (hlimit : frames.length + (height + 1) ≤ ReaderState.depthLimit) :
    (itemTokens items ++ [Token.closeList]).foldlM ReaderState.step
        ⟨expected, .list found :: frames, result⟩ =
      ReaderState.put frames (.list (found.reverse ++ items.map f)) := by
  induction items generalizing expected found result with
  | nil =>
      obtain rfl | ⟨-, hne⟩ := hexpected
      · rw [List.map_nil, List.append_nil]
        exact bind_pure _
      · exact absurd rfl hne
  | cons j rest ih =>
      obtain ⟨hj, hrest⟩ := List.forall_mem_cons.mp h
      have hitem := hj expected (.list found :: frames) result
        (hexpected.symm.imp And.left id) (by rw [List.length_cons]; omega)
      have hsplit : found.reverse ++ (j :: rest).map f = (f j :: found).reverse ++ rest.map f := by
        rw [List.map_cons, List.reverse_cons, List.append_assoc, List.singleton_append]
      rw [itemTokens, List.append_assoc, List.foldlM_append, hitem, hsplit]
      cases rest with
      | nil =>
          rw [List.map_nil, List.append_nil]
          exact bind_pure (ReaderState.put frames (.list (f j :: found).reverse))
      | cons next rest => exact ih hrest (.inr ⟨rfl, List.cons_ne_nil _ _⟩) (f j :: found) .null

theorem members_append {members : List (String × Json)} {f : Json → Json}
    (h : ∀ m ∈ members, Reads height m.2.tokens (f m.2)) {expected : Expected}
    (hexpected : expected = .nameOrClose ∨ expected = .name ∧ members ≠ [])
    (found : List (String × Json)) (frames : List Frame) (result : Json)
    (hlimit : frames.length + (height + 1) ≤ ReaderState.depthLimit) :
    (memberTokens members ++ [Token.closeObject]).foldlM ReaderState.step
        ⟨expected, .object found :: frames, result⟩ =
      ReaderState.put frames
        (.object (members.foldl (fun found m => insertEntry m.1 (f m.2) found) found)) := by
  induction members generalizing expected found result with
  | nil =>
      obtain rfl | ⟨-, hne⟩ := hexpected
      · exact bind_pure _
      · exact absurd rfl hne
  | cons head rest ih =>
      obtain ⟨name, j⟩ := head
      obtain ⟨hj, hrest⟩ := List.forall_mem_cons.mp h
      have hname : ReaderState.step ⟨expected, .object found :: frames, result⟩ (.str name) =
          some ⟨.colon, .member found name :: frames, .null⟩ := by
        obtain rfl | ⟨rfl, -⟩ := hexpected
        · rfl
        · rfl
      have hvalue := hj .value (.member found name :: frames) .null (.inl rfl)
        (by rw [List.length_cons]; omega)
      rw [memberTokens, List.append_assoc, List.cons_append, List.foldlM_cons, hname]
      change (j.tokens ++ _).foldlM ReaderState.step
        ⟨.value, .member found name :: frames, .null⟩ = _
      rw [List.foldlM_append, hvalue]
      cases rest with
      | nil => exact bind_pure (ReaderState.put frames (.object (insertEntry name (f j) found)))
      | cons next rest =>
          exact ih hrest (.inr ⟨rfl, List.cons_ne_nil _ _⟩) (insertEntry name (f j) found) .null

end Reads

theorem sorted_relayMembers {double : Double → Json} (members : List (String × Json)) :
    (relayMembers double members).Pairwise fun a b => a.1 < b.1 := by
  induction members with
  | nil => exact .nil
  | cons head rest ih =>
      obtain ⟨name, j⟩ := head
      rw [relayMembers]
      exact sorted_insertEntry ih

theorem lookup_map {f : Json → Json} (members : List (String × Json)) (name : String) :
    (members.map fun m => (m.1, f m.2)).lookup name = (members.lookup name).map f := by
  induction members with
  | nil => rfl
  | cons head rest ih =>
      rw [List.map_cons, lookup_cons_eq_ite, lookup_cons_eq_ite, ih]
      split
      · rfl
      · rfl

theorem foldl_insertEntry_eq_relayMembers {double : Double → Json} {members : List (String × Json)}
    (nodup : (members.map Prod.fst).Nodup) :
    members.foldl (fun found m => insertEntry m.1 (m.2.relay double) found) [] =
      relayMembers double members := by
  let entries := members.map fun m => (m.1, m.2.relay double)
  have hnodup : (entries.map Prod.fst).Nodup := by
    rw [List.map_map]
    exact nodup
  have hsame :
      Dict.ofList entries = ⟨relayMembers double members, sorted_relayMembers members⟩ := by
    refine Dict.ext_find? fun name => ?_
    rw [Dict.find?, Dict.entries_ofList, lookup_foldl_insertEntry hnodup, List.lookup_nil,
      Option.or_none, lookup_map, Dict.find?, lookup_relayMembers]
  have hentries := congrArg Dict.entries hsame
  rw [Dict.entries_ofList, List.foldl_map] at hentries
  exact hentries

theorem Legible.reads {height : Nat} {j : Json} (h : Legible height j) :
    Reads height j.tokens (j.relay finiteOrNull) := by
  induction h with
  | null | bool | int | str =>
      rw [tokens]
      exact .single nofun fun _ => rfl
  | @double _ x _ =>
      rw [tokens, relay, finiteOrNull]
      split
      · exact .single nofun fun _ => rfl
      · exact .single nofun fun _ => rfl
  | @list _ items _ ih =>
      rw [tokens, relay_list]
      exact .opened nofun (fun _ => rfl) fun frames =>
        Reads.items_append ih (.inl rfl) [] frames .null
  | @object _ members nodup _ ih =>
      rw [tokens, relay_object, ← foldl_insertEntry_eq_relayMembers nodup]
      exact .opened nofun (fun _ => rfl) fun frames =>
        Reads.members_append ih (.inl rfl) [] frames .null

/-- What is read from the text of a document, however it is laid out, is the document, but for its
numbers that are not finite. -/
theorem ofText?_chars {layout : Layout} (hblank : layout.Blank) {j : Json}
    (h : Legible ReaderState.depthLimit j) :
    ofText? (String.ofList (chars layout 0 j)) = some (j.relay finiteOrNull) := by
  rw [ofText?, String.toList_ofList, (h.spells hblank).tokens?_eq, Option.bind_some,
    h.reads.ofTokens?_eq]

theorem ofText?_compact {j : Json} (h : Legible ReaderState.depthLimit j) :
    ofText? j.compact = some (j.relay finiteOrNull) :=
  ofText?_chars blank_compact h

theorem ofText?_pretty {j : Json} (h : Legible ReaderState.depthLimit j) :
    ofText? j.pretty = some (j.relay finiteOrNull) :=
  ofText?_chars blank_pretty h

end Json

end TraceAutomata
