import TraceAutomata.Value
import TraceAutomata.Proofs.Dict
import TraceAutomata.Proofs.Number

/-!
Documents that are passed on. Whoever passes on a document keeps what stands under each name, but
not the order of the members, and may have no way to write every floating-point number. What is
found in a document that arrives is what was put in, passed on in the same way.
-/

namespace TraceAutomata

universe u

namespace Json

variable {α : Type u}

mutual

/-- The document as it arrives: the members of every object in increasing order of their names, and
in the place of each floating-point number what is written for it. -/
def relay (double : Double → Json) : Json → Json
  | .double x => double x
  | .list items => .list (relayItems double items)
  | .object members => .object (relayMembers double members)
  | j => j

def relayItems (double : Double → Json) : List Json → List Json
  | [] => []
  | j :: rest => relay double j :: relayItems double rest

def relayMembers (double : Double → Json) : List (String × Json) → List (String × Json)
  | [] => []
  | (name, j) :: rest => insertEntry name (relay double j) (relayMembers double rest)

end

mutual

theorem relay_double (j : Json) : j.relay .double = j.sortMembers := by
  match j with
  | .null | .bool _ | .int _ | .double _ | .str _ => simp only [relay, sortMembers]
  | .list items => rw [relay, sortMembers, relayItems_double]
  | .object members => rw [relay, sortMembers, relayMembers_double]

theorem relayItems_double (items : List Json) : relayItems .double items = sortItems items := by
  match items with
  | [] => rfl
  | j :: rest => rw [relayItems, sortItems, relay_double, relayItems_double]

theorem relayMembers_double (members : List (String × Json)) :
    relayMembers .double members = sortNamed members := by
  match members with
  | [] => rfl
  | (name, j) :: rest => rw [relayMembers, sortNamed, relay_double, relayMembers_double]

end

section Relay

variable {double : Double → Json}

@[simp] theorem relay_null : (null).relay double = null := rfl

@[simp] theorem relay_bool (b : Bool) : (bool b).relay double = bool b := rfl

@[simp] theorem relay_int (n : Int) : (int n).relay double = int n := rfl

@[simp] theorem relay_str (s : String) : (str s).relay double = str s := rfl

@[simp] theorem relay_list (items : List Json) :
    (list items).relay double = list (items.map (relay double)) := by
  rw [relay, list.injEq]
  induction items with
  | nil => rfl
  | cons j rest ih => rw [relayItems, ih, List.map_cons]

@[simp] theorem relay_tag (name : String) (content : Json) :
    (tag name content).relay double = tag name (content.relay double) := rfl

@[simp] theorem relay_names (names : List String) :
    (Json.names names).relay double = Json.names names := by
  rw [Json.names, relay_list, List.map_map]
  rfl

theorem relay_object (members : List (String × Json)) :
    (object members).relay double = object (relayMembers double members) := rfl

theorem lookup_relayMembers (members : List (String × Json)) (name : String) :
    (relayMembers double members).lookup name = (members.lookup name).map (relay double) := by
  induction members with
  | nil => rfl
  | cons head rest ih =>
      obtain ⟨n, j⟩ := head
      rw [relayMembers, lookup_insertEntry, lookup_cons_eq_ite, ih]
      split
      · rfl
      · rfl

theorem relayMembers_of_sorted {members : List (String × Json)}
    (h : members.Pairwise fun a b => a.1 < b.1) :
    relayMembers double members = members.map fun m => (m.1, m.2.relay double) := by
  induction members with
  | nil => rfl
  | cons head rest ih =>
      obtain ⟨hhead, hrest⟩ := List.pairwise_cons.mp h
      rw [relayMembers, ih hrest, List.map_cons, insertEntry_of_lt]
      intro e he
      obtain ⟨m, hm, rfl⟩ := List.mem_map.mp he
      exact hhead m hm

theorem relay_ofDict {encode : α → Json} (d : Dict α) :
    (ofDict encode d).relay double = ofDict (fun a => (encode a).relay double) d := by
  rw [ofDict, relay_object, relayMembers_of_sorted (List.pairwise_map.mpr d.sorted), List.map_map]
  rfl

variable (members : List (String × Json)) (name : String) (decode : Json → Option α)

theorem member?_relay : ((object members).relay double).member? name =
    (members.lookup name).map (relay double) :=
  lookup_relayMembers members name

@[simp] theorem required_relay : ((object members).relay double).required name decode =
    (members.lookup name).bind fun j => decode (j.relay double) := by
  rw [required, member?_relay]
  cases members.lookup name <;> rfl

theorem required_relay_of_lookup {j : Json} (hfound : members.lookup name = some j) :
    ((object members).relay double).required name decode = decode (j.relay double) := by
  rw [required_relay, hfound, Option.bind_some]

theorem required_relay_str {s : String} (hfound : members.lookup name = some (.str s)) :
    ((object members).relay double).required name string? = some s := by
  rw [required_relay_of_lookup members name string? hfound, relay_str, string?]

theorem required_relay_int64 {n : Int64} (hfound : members.lookup name = some (.int n.toInt)) :
    ((object members).relay double).required name int64? = some n := by
  rw [required_relay_of_lookup members name int64? hfound, relay_int, int64?, Number.int64?_toInt]

theorem required_relay_count {n : Nat} (hfound : members.lookup name = some (.int n))
    (hn : n < 2 ^ 64) : ((object members).relay double).required name count? = some n := by
  rw [required_relay_of_lookup members name count? hfound, relay_int, count?,
    Number.count?_of_lt hn]

@[simp] theorem withDefault_relay (default : α) :
    ((object members).relay double).withDefault name decode default =
      match members.lookup name with
      | none => some default
      | some j => decode (j.relay double) := by
  have hmember : ((object members).relay double).member? name = _ := member?_relay members name
  rw [relay_object] at hmember ⊢
  cases hfound : members.lookup name with
  | none => simp [withDefault, hmember, hfound]
  | some j => simp [withDefault, hmember, hfound]

@[simp] theorem optional_relay : ((object members).relay double).optional name decode =
    match (members.lookup name).map (relay double) with
    | none => some none
    | some .null => some none
    | some j => (decode j).map some := by
  have hmember : ((object members).relay double).member? name = _ := member?_relay members name
  rw [relay_object] at hmember ⊢
  rw [← hmember]
  cases hfound : (object (relayMembers double members)).member? name with
  | none => simp [optional, hfound]
  | some j => cases j <;> simp [optional, hfound]

theorem optional_relay_of_lookup (encode : α → Json) {value : Option α}
    (hfound : members.lookup name = value.map encode)
    (hdecode : ∀ a, decode ((encode a).relay double) = some a) (hnull : decode .null = none) :
    ((object members).relay double).optional name decode = some value := by
  rw [optional_relay, hfound]
  cases value with
  | none => rfl
  | some a =>
      have ha := hdecode a
      simp only [Option.map_some]
      split
      · next hnone => cases hnone
      · next hnone =>
        rw [Option.some.inj hnone, hnull] at ha
        cases ha
      · next hsome =>
        rw [← Option.some.inj hsome, ha]
        rfl

theorem optional_relay_int64 {value : Option Int64}
    (hfound : members.lookup name = value.map fun n => .int n.toInt) :
    ((object members).relay double).optional name int64? = some value :=
  optional_relay_of_lookup members name int64? _ hfound (fun n => Number.int64?_toInt n) rfl

theorem withDefault_relay_of_lookup {value default : α} (p : Prop) [Decidable p] (j : Json)
    (hfound : members.lookup name = if p then none else some j) (hdefault : p → value = default)
    (hdecode : decode (j.relay double) = some value) :
    ((object members).relay double).withDefault name decode default = some value := by
  rw [withDefault_relay, hfound]
  by_cases hp : p
  · rw [if_pos hp, hdefault hp]
  · rw [if_neg hp]
    exact hdecode

theorem lookup_unless (other : String) (p : Prop) [Decidable p] (j : Json) :
    (if p then [] else [(name, j)]).lookup other =
      if other = name then if p then none else some j else none := by
  by_cases hp : p
  · simp [hp]
  · simp [hp, lookup_cons_eq_ite]

theorem lookup_memberOfOption (other : String) (encode : α → Json) (value : Option α) :
    (memberOfOption name encode value).lookup other =
      if other = name then value.map encode else none := by
  cases value with
  | none => simp [memberOfOption]
  | some v => rw [memberOfOption, lookup_cons_eq_ite, List.lookup_nil, Option.map_some]

end Relay

theorem listOf?_map_guard {encode : α → Json} {decode : Json → Option α} {p : α → Bool}
    {items : List α} (h : ∀ a ∈ items, decode (encode a) = Option.guard p a) :
    listOf? decode (.list (items.map encode)) = Option.guard (List.all · p) items := by
  rw [listOf?]
  induction items with
  | nil => rfl
  | cons a rest ih =>
      obtain ⟨hfirst, hrest⟩ := List.forall_mem_cons.mp h
      rw [List.map_cons, List.mapM_cons, hfirst, ih hrest]
      simp only [Option.guard_eq_ite, List.all_cons, Bool.and_eq_true]
      by_cases ha : p a = true
      · by_cases hall : rest.all p = true
        · simp [ha, hall]
        · simp [ha, hall]
      · simp [ha]

theorem listOf?_map {encode : α → Json} {decode : Json → Option α} {items : List α}
    (h : ∀ a ∈ items, decode (encode a) = some a) :
    listOf? decode (.list (items.map encode)) = some items := by
  have hall : items.all (fun _ => true) = true := List.all_eq_true.mpr fun _ _ => rfl
  rw [listOf?_map_guard (p := fun _ => true) h, Option.guard_eq_ite, if_pos hall]

theorem names?_names (names : List String) : names? (.names names) = some names :=
  listOf?_map fun _ _ => rfl

theorem listOf?_names (names : List String) : listOf? string? (.names names) = some names :=
  listOf?_map fun _ _ => rfl

theorem dictOf?_ofDict_of_mem {encode : α → Json} {decode : Json → Option α} {d : Dict α}
    (h : ∀ a ∈ d.values, decode (encode a) = some a) :
    dictOf? decode (.ofDict encode d) = some d := by
  have hentries : ∀ entries : List (String × α), (∀ e ∈ entries, decode (encode e.2) = some e.2) →
      (entries.map fun e => (e.1, encode e.2)).mapM
        (fun (m : String × Json) => (decode m.2).map fun v => (m.1, v)) = some entries := by
    intro entries hall
    induction entries with
    | nil => rfl
    | cons e rest ih =>
        obtain ⟨hfirst, hrest⟩ := List.forall_mem_cons.mp hall
        rw [List.map_cons, List.mapM_cons, ih hrest, hfirst]
        rfl
  have hall : ∀ e ∈ d.entries, decode (encode e.2) = some e.2 := fun e he =>
    h e.2 (List.mem_map_of_mem he)
  rw [ofDict, dictOf?, hentries d.entries hall, Option.map_some, Dict.ofList_entries]

theorem dictOf?_ofDict {encode : α → Json} {decode : Json → Option α} {d : Dict α}
    (h : ∀ a, decode (encode a) = some a) : dictOf? decode (.ofDict encode d) = some d :=
  dictOf?_ofDict_of_mem fun a _ => h a

end Json

namespace Value

variable {double : Double → Json}

/-- A value arrives as it was, unless its number has been replaced. -/
theorem ofJson?_relay {v : Value} (h : ∀ x, v = .double x → double x = .double x) :
    ofJson? (v.toJson.relay double) = some v := by
  cases v with
  | null => rfl
  | string s => rfl
  | int n =>
      change (Number.int32? n.toInt).map Value.int = _
      rw [Number.int32?_toInt, Option.map_some]
  | long n =>
      change (Number.int64? n.toInt).map Value.long = _
      rw [Number.int64?_toInt, Option.map_some]
  | double x =>
      rw [toJson, Json.relay_tag, Json.relay, h x rfl]
      rfl

theorem ofJson?_relay_eq_none {x : Double} (h : double x = .null) :
    ofJson? ((Value.double x).toJson.relay double) = none := by
  rw [toJson, Json.relay_tag, Json.relay, h]
  rfl

end Value

end TraceAutomata
