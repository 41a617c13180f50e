import TraceAutomata.Proofs.Definition.Closed
import TraceAutomata.Proofs.Run.Composition
import TraceAutomata.Proofs.Run.Slots

namespace TraceAutomata

namespace DefinitionSet

/-- What a save puts in a slot: of the fields for that slot that the event has, the last one in the
order of their names. -/
def savedIn (d : DefinitionSet) (event : Event) (slot : String) : Option Value :=
  ((d.scratchFields.entries.filter fun entry => entry.2 == slot).filterMap
    fun entry => event.field? entry.1).getLast?

def operations (d : DefinitionSet) (id : String) : List Operation :=
  (d.actions.find? id).getD []

end DefinitionSet

namespace Moment

/-- What the act puts in a slot of a scenario, if it is a save or a clear by that scenario. -/
def puts? (name slot : String) (m : Moment) : Option Value :=
  match m.act with
  | .operate scope .saveScratch =>
      if scope.scenario = name then m.event.bind fun e => m.run.defs.savedIn e slot else none
  | .operate scope .clearScratch =>
      if scope.scenario = name ∧ slot ∈ m.run.defs.scratchFields.values then some .null else none
  | _ => none

def operation? (name : String) (m : Moment) : Option Operation :=
  match m.act with
  | .operate scope op => if scope.scenario = name then some op else none
  | _ => none

end Moment

namespace Run

/-- What was put in a slot of a scenario last, null if nothing was. -/
def lastPut (name slot : String) (ms : List Moment) : Value :=
  ((ms.filterMap (Moment.puts? name slot)).getLast?).getD .null

section Operations

variable {name slot : String}

theorem slotWrites_append (ms ms' : List Moment) :
    slotWrites name slot (ms ++ ms') = slotWrites name slot ms ++ slotWrites name slot ms' :=
  List.filterMap_append

theorem slotWrites_operation (r : Run) (event : Option Event) (scope : ActionScope)
    (op : Operation) (ms : List Moment) :
    slotWrites name slot (⟨r, event, .operate scope op⟩ :: ms) = slotWrites name slot ms := rfl

theorem slotWrites_slotMoments (event : Event) (scope : ActionScope) (r : Run)
    (entries : List (String × Value)) :
    slotWrites name slot (slotMoments event scope r entries) =
      if scope.scenario = name then
        (entries.filter fun entry => entry.1 == slot).map fun entry => ⟨event.nanos, entry.2⟩
      else [] := by
  rw [slotMoments]
  induction entries generalizing r with
  | nil => simp [slotWrites, foldMoments]
  | cons entry rest ih =>
      rw [foldMoments, slotWrites_append, ih]
      by_cases hname : scope.scenario = name
      · by_cases hslot : entry.1 = slot
        · simp [slotWrites, Moment.slotWrite?, hname, hslot]
        · simp [slotWrites, Moment.slotWrite?, hname, hslot]
      · simp [slotWrites, Moment.slotWrite?, hname]

theorem filter_savedSlots (r : Run) (event : Event) (slot : String) :
    ((r.savedSlots event).filter fun entry => entry.1 == slot).map (·.2) =
      (r.defs.scratchFields.entries.filter fun entry => entry.2 == slot).filterMap
        fun entry => event.field? entry.1 := by
  rw [savedSlots]
  induction r.defs.scratchFields.entries with
  | nil => rfl
  | cons entry rest ih =>
      obtain ⟨field, slot'⟩ := entry
      rw [List.filterMap_cons, List.filter_cons]
      by_cases hslot : slot' = slot
      · cases hfield : event.field? field <;> simp [hfield, hslot, ih]
      · cases hfield : event.field? field <;> simp [hfield, hslot, ih]

theorem getLast?_clearedSlots (r : Run) (slot : String) :
    ((r.clearedSlots.filter fun entry => entry.1 == slot).map (·.2)).getLast? =
      if slot ∈ r.defs.scratchFields.values then some .null else none := by
  have hnull : ∀ value ∈ (r.clearedSlots.filter fun entry => entry.1 == slot).map (·.2),
      value = .null := by
    intro value hvalue
    obtain ⟨entry, hentry, rfl⟩ := List.mem_map.mp hvalue
    obtain ⟨slot', -, rfl⟩ := List.mem_map.mp (List.mem_of_mem_filter hentry)
    rfl
  split
  · next hmem =>
    have hput : (slot, Value.null) ∈ r.clearedSlots.filter fun entry => entry.1 == slot :=
      List.mem_filter.mpr ⟨List.mem_map.mpr ⟨slot, hmem, rfl⟩, beq_self_eq_true slot⟩
    cases hlast : ((r.clearedSlots.filter fun entry => entry.1 == slot).map (·.2)).getLast? with
    | none =>
        rw [List.getLast?_eq_none_iff, List.map_eq_nil_iff] at hlast
        rw [hlast] at hput
        cases hput
    | some value => rw [hnull value (List.mem_of_getLast? hlast)]
  · next hmem =>
    rw [List.getLast?_eq_none_iff, List.map_eq_nil_iff, List.filter_eq_nil_iff]
    intro entry hentry heq
    obtain ⟨slot', hslot', rfl⟩ := List.mem_map.mp hentry
    exact hmem (beq_iff_eq.mp heq ▸ hslot')

theorem puts?_save (r : Run) (event : Event) (scope : ActionScope) (slot : String) :
    (⟨r, some event, .operate scope .saveScratch⟩ : Moment).puts? scope.scenario slot =
      r.defs.savedIn event slot :=
  if_pos rfl

theorem puts?_clear (r : Run) (event : Event) (scope : ActionScope) (slot : String) :
    (⟨r, some event, .operate scope .clearScratch⟩ : Moment).puts? scope.scenario slot =
      if slot ∈ r.defs.scratchFields.values then some .null else none := by
  simp only [Moment.puts?, true_and]

theorem getLast?_slotEntries {r : Run} {event : Event} {op : Operation}
    {entries : List (String × Value)} (h : r.slotEntries event op = some entries)
    (scope : ActionScope) (slot : String) :
    ((entries.filter fun entry => entry.1 == slot).map (·.2)).getLast? =
      (⟨r, some event, .operate scope op⟩ : Moment).puts? scope.scenario slot := by
  cases op with
  | saveScratch =>
      obtain rfl := Option.some.inj h
      rw [filter_savedSlots, puts?_save]
      rfl
  | clearScratch =>
      obtain rfl := Option.some.inj h
      rw [getLast?_clearedSlots, puts?_clear]
  | stateChange _ _ => cases h
  | synthetic _ _ => cases h
  | spawn _ => cases h

theorem getLast?_operation {r : Run} {event : Event} {op : Operation}
    {entries : List (String × Value)} (hentries : r.slotEntries event op = some entries)
    (scope : ActionScope) (slot : String) :
    ((slotWrites scope.scenario slot (⟨r, some event, .operate scope op⟩ ::
      slotMoments event scope r entries)).map Interval.value).getLast? =
        (⟨r, some event, .operate scope op⟩ : Moment).puts? scope.scenario slot := by
  rw [slotWrites_operation, slotWrites_slotMoments, if_pos rfl, List.map_map]
  exact getLast?_slotEntries hentries scope slot

end Operations

def Told (name slot : String) (ms : List Moment) : Prop :=
  (slotWrites name slot ms).getLast?.map Interval.value =
    (ms.filterMap (Moment.puts? name slot)).getLast?

/-- Up to any act that is not a write to a slot, what was written to a slot last is what was put
there last. -/
def ToldBetween (name slot : String) (ms : List Moment) : Prop :=
  ∀ past rest, ms = past ++ rest → (∀ m ∈ rest.head?, m.writesSlot = false) →
    Told name slot past

section Telling

variable {name slot : String} {ms ms' : List Moment}

theorem Told.nil (name slot : String) : Told name slot [] := rfl

theorem Told.append (h : Told name slot ms) (h' : Told name slot ms') :
    Told name slot (ms ++ ms') := by
  rw [Told, slotWrites_append, List.filterMap_append, List.getLast?_append, List.getLast?_append,
    Option.map_or]
  exact congrArg₂ Option.or h' h

theorem Told.ongoing_eq (h : Told name slot ms) :
    Interval.ongoing (slotWrites name slot ms) = lastPut name slot ms :=
  congrArg (fun last => last.getD Value.null) h

theorem ToldBetween.append (h : ToldBetween name slot ms) (h' : ToldBetween name slot ms') :
    ToldBetween name slot (ms ++ ms') := by
  intro past rest hsplit hrest
  rcases List.append_eq_append_iff.mp hsplit with ⟨mid, rfl, hms'⟩ | ⟨mid, hms, rfl⟩
  · exact (h ms [] (List.append_nil ms).symm (by simp)).append (h' mid rest hms' hrest)
  · refine h past mid hms fun m hm => hrest m ?_
    exact List.mem_head?_append_of_mem_head? hm

theorem ToldBetween.single {m : Moment} (hwrite : m.slotWrite? name slot = none)
    (hput : m.puts? name slot = none) : ToldBetween name slot [m] := by
  intro past rest hsplit _
  have hsub : past.Sublist [m] := hsplit ▸ List.sublist_append_left past rest
  have hall : ∀ x ∈ past, x = m := fun x hx => List.mem_singleton.mp (hsub.subset hx)
  have hwrites : slotWrites name slot past = [] :=
    List.filterMap_eq_nil_iff.mpr fun x hx => hall x hx ▸ hwrite
  have hputs : past.filterMap (Moment.puts? name slot) = [] :=
    List.filterMap_eq_nil_iff.mpr fun x hx => hall x hx ▸ hput
  rw [Told, hwrites, hputs]
  rfl

theorem Told.slots {r : Run} {event : Event} {scope : ActionScope} {op : Operation}
    {entries : List (String × Value)} (h : r.slotEntries event op = some entries) :
    Told name slot (⟨r, some event, .operate scope op⟩ :: slotMoments event scope r entries) := by
  have hputs : (slotMoments event scope r entries).filterMap (Moment.puts? name slot) = [] :=
    filterMap_slotMoments fun m slot' value hact => by rw [Moment.puts?, hact]
  rw [Told, ← List.getLast?_map, List.filterMap_cons, hputs]
  rcases eq_or_ne scope.scenario name with rfl | hne
  · rw [getLast?_operation h scope slot]
    cases (⟨r, some event, .operate scope op⟩ : Moment).puts? scope.scenario slot <;> rfl
  · have hnone : (⟨r, some event, .operate scope op⟩ : Moment).puts? name slot = none := by
      cases op <;> simp [Moment.puts?, hne]
    rw [hnone, slotWrites_operation, slotWrites_slotMoments, if_neg hne]
    rfl

/-- In between, the next act is one of the writes, unless none of them is left. -/
theorem ToldBetween.slots {r : Run} {event : Event} {scope : ActionScope} {op : Operation}
    {entries : List (String × Value)} (h : r.slotEntries event op = some entries) :
    ToldBetween name slot
      (⟨r, some event, .operate scope op⟩ :: slotMoments event scope r entries) := by
  intro past rest hsplit hrest
  cases past with
  | nil => exact Told.nil name slot
  | cons first past =>
      obtain ⟨rfl, hslots⟩ := List.cons.inj hsplit
      rw [List.append_eq] at hslots
      cases rest with
      | nil =>
          rw [List.append_nil] at hslots
          exact hslots ▸ Told.slots h
      | cons m rest =>
          have hmem : m ∈ slotMoments event scope r entries := by simp [hslots]
          obtain ⟨-, slot', value, hact⟩ := mem_slotMoments hmem
          have hnot := hrest m rfl
          rw [Moment.writesSlot_of_save hact] at hnot
          cases hnot

theorem Composed.toldBetween (h : Composed ms) (name slot : String) :
    ToldBetween name slot ms := by
  induction h with
  | nil =>
      intro past rest hsplit _
      rw [(List.append_eq_nil_iff.mp hsplit.symm).1]
      exact Told.nil name slot
  | append _ _ ih ih' => exact ih.append ih'
  | @plain m hplain =>
      obtain ⟨r, event, act⟩ := m
      cases act with
      | save scope slot value => exact hplain.elim
      | receive f s => exact hplain.elim
      | operate scope op =>
          cases op with
          | saveScratch => cases hplain
          | clearScratch => cases hplain
          | _ => exact .single rfl rfl
      | _ => exact .single rfl rfl
  | slots hentries => exact .slots hentries
  | rest _ => exact .single rfl rfl
  | step _ _ _ _ ih => exact (ToldBetween.single rfl rfl).append (ih.append (.single rfl rfl))

end Telling

end Run

end TraceAutomata
