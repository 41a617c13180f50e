import TraceAutomata.Proofs.Definition.Valid

namespace TraceAutomata.Condition

def Agree (ctx : GuardContext) (c c' : Condition) : Prop :=
  c.evaluate ctx = c'.evaluate ctx

/-- A condition in which one part is left open. -/
inductive Frame where
  | hole
  | not (inner : Frame)
  | and (before : List Condition) (inner : Frame) (after : List Condition)
  | or (before : List Condition) (inner : Frame) (after : List Condition)

def Frame.fill (c : Condition) : Frame → Condition
  | .hole => c
  | .not inner => .not (inner.fill c)
  | .and before inner after => .and (before ++ inner.fill c :: after)
  | .or before inner after => .or (before ++ inner.fill c :: after)

variable {ctx : GuardContext}

theorem evaluateAll_append (cs ds : List Condition) :
    evaluateAll ctx (cs ++ ds) = do
      if ← evaluateAll ctx cs then evaluateAll ctx ds else return false := by
  induction cs with
  | nil => rfl
  | cons c rest ih =>
      rw [List.cons_append, evaluateAll, evaluateAll, ih]
      rcases evaluate ctx c with fault | _ | _ <;> rfl

theorem evaluateAny_append (cs ds : List Condition) :
    evaluateAny ctx (cs ++ ds) = (do
      if ← evaluateAny ctx cs then return true else evaluateAny ctx ds) := by
  induction cs with
  | nil => rfl
  | cons c rest ih =>
      rw [List.cons_append, evaluateAny, evaluateAny, ih]
      rcases evaluate ctx c with fault | _ | _ <;> rfl

theorem evaluateAll_cons_and (cs ds : List Condition) :
    evaluateAll ctx (.and cs :: ds) = evaluateAll ctx (cs ++ ds) := by
  rw [evaluateAll_append, evaluateAll, evaluate]

theorem evaluateAny_cons_or (cs ds : List Condition) :
    evaluateAny ctx (.or cs :: ds) = evaluateAny ctx (cs ++ ds) := by
  rw [evaluateAny_append, evaluateAny, evaluate]

theorem evaluateAny_map_not (cs : List Condition) :
    evaluateAny ctx (cs.map .not) = (evaluateAll ctx cs).map (! ·) := by
  induction cs with
  | nil => rfl
  | cons c rest ih =>
      rw [List.map_cons, evaluateAny, evaluateAll, evaluate, ih]
      rcases evaluate ctx c with fault | _ | _ <;> rfl

theorem evaluateAll_map_not (cs : List Condition) :
    evaluateAll ctx (cs.map .not) = (evaluateAny ctx cs).map (! ·) := by
  induction cs with
  | nil => rfl
  | cons c rest ih =>
      rw [List.map_cons, evaluateAll, evaluateAny, evaluate, ih]
      rcases evaluate ctx c with fault | _ | _ <;> rfl

namespace Agree

variable {c c' : Condition}

theorem not (h : Agree ctx c c') : Agree ctx (.not c) (.not c') := by
  rw [Agree, evaluate, evaluate, h]

theorem and (h : Agree ctx c c') (before after : List Condition) :
    Agree ctx (.and (before ++ c :: after)) (.and (before ++ c' :: after)) := by
  rw [Agree, evaluate, evaluate, evaluateAll_append, evaluateAll_append, evaluateAll, evaluateAll, h]

theorem or (h : Agree ctx c c') (before after : List Condition) :
    Agree ctx (.or (before ++ c :: after)) (.or (before ++ c' :: after)) := by
  rw [Agree, evaluate, evaluate, evaluateAny_append, evaluateAny_append, evaluateAny, evaluateAny, h]

theorem fill (h : Agree ctx c c') (frame : Frame) : Agree ctx (frame.fill c) (frame.fill c') := by
  induction frame with
  | hole => exact h
  | not inner ih => exact ih.not
  | and before inner after ih => exact ih.and before after
  | or before inner after ih => exact ih.or before after

end Agree

theorem part_iff_fill {part c : Condition} :
    Part part c ↔ ∃ frame : Frame, frame.fill part = c := by
  constructor
  · intro h
    induction h with
    | self => exact ⟨.hole, rfl⟩
    | not _ ih =>
        obtain ⟨frame, rfl⟩ := ih
        exact ⟨.not frame, rfl⟩
    | and hchild _ ih =>
        obtain ⟨frame, rfl⟩ := ih
        obtain ⟨before, after, rfl⟩ := List.append_of_mem hchild
        exact ⟨.and before frame after, rfl⟩
    | or hchild _ ih =>
        obtain ⟨frame, rfl⟩ := ih
        obtain ⟨before, after, rfl⟩ := List.append_of_mem hchild
        exact ⟨.or before frame after, rfl⟩
  · rintro ⟨frame, rfl⟩
    induction frame with
    | hole => exact .self
    | not inner ih => exact .not ih
    | and before inner after ih => exact .and (List.mem_append_right _ List.mem_cons_self) ih
    | or before inner after ih => exact .or (List.mem_append_right _ List.mem_cons_self) ih

def IsLeaf : Condition → Prop
  | .not _ | .and _ | .or _ => False
  | _ => True

section Leaves

variable {ctx' : GuardContext}

mutual

theorem evaluate_congr : ∀ c : Condition,
    (∀ part ∈ c.subconditions, part.IsLeaf → part.evaluate ctx' = part.evaluate ctx) →
      c.evaluate ctx' = c.evaluate ctx
  | .not inner, hleaves => by
      rw [subconditions, List.forall_mem_cons] at hleaves
      rw [evaluate, evaluate, evaluate_congr inner hleaves.2]
  | .and children, hleaves => by
      rw [subconditions, List.forall_mem_cons] at hleaves
      rw [evaluate, evaluate, evaluateAll_congr children hleaves.2]
  | .or children, hleaves => by
      rw [subconditions, List.forall_mem_cons] at hleaves
      rw [evaluate, evaluate, evaluateAny_congr children hleaves.2]
  | .compare .., hleaves | .equal .., hleaves | .timeRange _, hleaves | .elapsed _, hleaves =>
      hleaves _ (mem_subconditions_iff.mpr .self) trivial

theorem evaluateAll_congr : ∀ cs : List Condition,
    (∀ part ∈ allSubconditions cs, part.IsLeaf → part.evaluate ctx' = part.evaluate ctx) →
      evaluateAll ctx' cs = evaluateAll ctx cs
  | [], _ => rfl
  | c :: rest, hleaves => by
      rw [allSubconditions, List.forall_mem_append] at hleaves
      rw [evaluateAll, evaluateAll, evaluate_congr c hleaves.1, evaluateAll_congr rest hleaves.2]

theorem evaluateAny_congr : ∀ cs : List Condition,
    (∀ part ∈ allSubconditions cs, part.IsLeaf → part.evaluate ctx' = part.evaluate ctx) →
      evaluateAny ctx' cs = evaluateAny ctx cs
  | [], _ => rfl
  | c :: rest, hleaves => by
      rw [allSubconditions, List.forall_mem_append] at hleaves
      rw [evaluateAny, evaluateAny, evaluate_congr c hleaves.1, evaluateAny_congr rest hleaves.2]

end

end Leaves

/-- Fault and answer stay what they are under a double negation, when a negation moves inwards, when a
part of the same kind is flattened, and when a part at any place is replaced by one that agrees with it. -/
theorem agree_laws (ctx : GuardContext) :
    (∀ c, Agree ctx (.not (.not c)) c) ∧
    (∀ cs, Agree ctx (.not (.and cs)) (.or (cs.map .not))) ∧
    (∀ cs, Agree ctx (.not (.or cs)) (.and (cs.map .not))) ∧
    (∀ xs ys zs, Agree ctx (.and (xs ++ [.and ys] ++ zs)) (.and (xs ++ ys ++ zs))) ∧
    (∀ xs ys zs, Agree ctx (.or (xs ++ [.or ys] ++ zs)) (.or (xs ++ ys ++ zs))) ∧
    (∀ part c, part ∈ c.subconditions ↔ ∃ frame : Frame, frame.fill part = c) ∧
    ∀ (frame : Frame) (part part' : Condition), Agree ctx part part' →
      Agree ctx (frame.fill part) (frame.fill part') := by
  refine ⟨fun c => ?_, fun cs => ?_, fun cs => ?_, fun xs ys zs => ?_, fun xs ys zs => ?_,
    fun part c => mem_subconditions_iff.trans part_iff_fill, fun frame part part' h => h.fill frame⟩
  · rw [Agree, evaluate, evaluate]
    rcases evaluate ctx c with fault | _ | _ <;> rfl
  · rw [Agree, evaluate, evaluate, evaluate, evaluateAny_map_not]
  · rw [Agree, evaluate, evaluate, evaluate, evaluateAll_map_not]
  · rw [Agree, evaluate, evaluate, List.append_assoc, List.append_assoc, evaluateAll_append xs,
      evaluateAll_append xs, List.singleton_append, evaluateAll_cons_and]
  · rw [Agree, evaluate, evaluate, List.append_assoc, List.append_assoc, evaluateAny_append xs,
      evaluateAny_append xs, List.singleton_append, evaluateAny_cons_or]

/-- The fault of a missing field hides what comes after it, below negations and beside other parts as
well. -/
theorem agree_laws_sample :
    let ctx : GuardContext := ⟨Store.empty 0, Store.root, "f#1", ⟨.ofNanos 1, "e", ∅, none⟩⟩
    let part : Condition := .compare (.field "fd") .eq (.literal (.int 3))
    let part' : Condition := .or [part, .equal .eventName .eventName]
    let frame : Frame := .not (.and [.equal .timestamp .timestamp] (.not .hole) [part'])
    Agree ctx part part' ∧ Agree ctx (frame.fill part) (frame.fill part') ∧
      (frame.fill part').evaluate ctx = .error (.missing (.eventField "fd")) := by
  intro ctx part part' frame
  have hparts : Agree ctx part part' := rfl
  obtain ⟨-, -, -, -, -, -, hfill⟩ := agree_laws ctx
  exact ⟨hparts, hfill frame part part' hparts, by decide +kernel⟩

end TraceAutomata.Condition
