import TraceAutomata.Proofs.Condition.Place
import TraceAutomata.Proofs.Condition.Spelling

namespace TraceAutomata

open Text

namespace PathSegment

/-- A segment other than one that is a query itself; a plain name is not empty. -/
def Plain : PathSegment → Prop
  | .name text => text ≠ ""
  | .field _ => True
  | .query _ => False
  | .scenario => True

def Named : PathSegment → Prop
  | .field text => text ≠ ""
  | _ => True

end PathSegment

/-- An operand with names for its field or slot, with an integer of the narrower kind that holds it, and
with a query of one segment or more, each of a given form. -/
def ValueSource.Shaped (form : PathSegment → Prop) : ValueSource → Prop
  | .literal (.long n) => Number.int32? n.toInt = none
  | .field text => text ≠ ""
  | .scratch text => text ≠ ""
  | .query path => path ≠ [] ∧ ∀ segment ∈ path, form segment
  | _ => True

namespace Condition

/-- A condition made of comparisons of operands of a given form. -/
inductive Composed (form : ValueSource → Prop) : Condition → Prop
  | compare {left right : ValueSource} {op : CompareOp} (hl : form left) (hr : form right) :
      Composed form (.compare left op right)
  | not {c : Condition} (h : Composed form c) : Composed form (.not c)
  | and {cs : List Condition} (hlength : 2 ≤ cs.length) (h : ∀ c ∈ cs, Composed form c) :
      Composed form (.and cs)
  | or {cs : List Condition} (hlength : 2 ≤ cs.length) (h : ∀ c ∈ cs, Composed form c) :
      Composed form (.or cs)

theorem Composed.mono {form form' : ValueSource → Prop} {c : Condition} (h : Composed form c)
    (hform : ∀ source, form source → form' source) : Composed form' c := by
  induction h with
  | compare hl hr => exact .compare (hform _ hl) (hform _ hr)
  | not _ ih => exact .not ih
  | and hlength _ ih => exact .and hlength ih
  | or hlength _ ih => exact .or hlength ih

/-- The query is spelled in the text: one after the other, each part between slashes is a segment of
it, and the segments without a name are those of which the part is a `$` alone. -/
def StandsIn (text : List Char) (path : AttributePath) : Prop :=
  ∃ body, QueryIn text body ∧
    List.Forall₂ (fun part segment => segment.Named ↔ trimChars part ≠ ['$'])
      (split (· == '/') (trimChars body)) path

/-- A query of the text has a part that is a `$` alone. -/
def LoneDollar (text : List Char) : Prop :=
  ∃ body, QueryIn text body ∧
    ∃ part ∈ split (· == '/') (trimChars body), trimChars part = ['$']

theorem StandsIn.of_ahead {text place : List Char} {path : AttributePath} (h : StandsIn place path)
    (hplace : Ahead text place) : StandsIn text path := by
  obtain ⟨body, ⟨w, after, hw, hclose, hahead⟩, hparts⟩ := h
  exact ⟨body, ⟨w, after, hw, hclose, hplace.trans hahead⟩, hparts⟩

theorem StandsIn.of_trimmed {text : List Char} {path : AttributePath}
    (h : StandsIn (trimChars text) path) : StandsIn text path := by
  obtain ⟨body, ⟨w, after, hw, hclose, hahead⟩, hparts⟩ := h
  obtain ⟨tail, htail⟩ : trimChars text <+: dropBlank text := List.rdropWhile_prefix _ _
  have htext := hahead.append tail
  rw [htail] at htext
  refine ⟨body, ⟨w, after ++ tail, hw, hclose, (Ahead.dropBlank text).trans ?_⟩, hparts⟩
  simpa using htext

theorem named_of_standsIn {text : List Char} {source : ValueSource}
    (h : source.Shaped PathSegment.Plain)
    (hstands : ∀ path, source = .query path → StandsIn text path) (hnone : ¬ LoneDollar text) :
    source.Shaped fun segment => segment.Plain ∧ segment.Named := by
  cases source with
  | literal value => cases value <;> exact h
  | query path =>
      obtain ⟨body, hquery, hparts⟩ := hstands path rfl
      refine ⟨h.1, fun segment hsegment => ⟨h.2 segment hsegment, ?_⟩⟩
      obtain ⟨i, hi, rfl⟩ := List.getElem_of_mem hsegment
      have hnamed := hparts.get (hparts.length_eq ▸ hi) hi
      exact hnamed.mpr fun hdollar => hnone ⟨body, hquery, _, List.getElem_mem _, hdollar⟩
  | _ => exact h

instance (text : List Char) : Decidable (LoneDollar text) :=
  decidable_of_iff
    (∃ place ∈ placesAhead text.length text, ∃ body ∈ (queryBody? place).map Prod.fst,
      ∃ part ∈ split (· == '/') (trimChars body), trimChars part = ['$'])
    ⟨fun ⟨place, hplace, body, hbody, hpart⟩ =>
        ⟨body, queryIn_iff.mpr ⟨place, hplace, hbody⟩, hpart⟩,
      fun ⟨body, hquery, hpart⟩ =>
        let ⟨place, hplace, hbody⟩ := queryIn_iff.mp hquery
        ⟨place, hplace, body, hbody, hpart⟩⟩

section Combinations

variable {form : ValueSource → Prop}

theorem composed_conjunction {reversed : List Condition} (hne : reversed ≠ [])
    (h : ∀ c ∈ reversed, Composed form c) : Composed form (Level.conjunction reversed) := by
  rcases reversed with _ | ⟨c, _ | ⟨d, rest⟩⟩
  · exact (hne rfl).elim
  · exact h c List.mem_cons_self
  · exact .and (by simp) fun c hc => h c (List.mem_reverse.mp hc)

theorem composed_disjunction {reversed : List Condition} (hne : reversed ≠ [])
    (h : ∀ c ∈ reversed, Composed form c) : Composed form (Level.disjunction reversed) := by
  rcases reversed with _ | ⟨c, _ | ⟨d, rest⟩⟩
  · exact (hne rfl).elim
  · exact h c List.mem_cons_self
  · exact .or (by simp) fun c hc => h c (List.mem_reverse.mp hc)

theorem composed_repeat_not {c : Condition} (h : Composed form c) (count : Nat) :
    Composed form (Nat.repeat .not count c) := by
  induction count with
  | zero => exact h
  | succ count ih => exact .not ih

/-- All that has been read of a level is composed. -/
structure Level.Composed (form : ValueSource → Prop) (l : Level) : Prop where
  alternatives : ∀ c ∈ l.alternatives, Condition.Composed form c
  conjuncts : ∀ c ∈ l.conjuncts, Condition.Composed form c

namespace Level.Composed

variable {l : Level}

theorem new : Level.Composed form {} :=
  ⟨List.forall_mem_nil _, List.forall_mem_nil _⟩

theorem put (h : l.Composed form) {c : Condition} (hc : Condition.Composed form c) :
    (l.put c).Composed form :=
  ⟨h.alternatives, List.forall_mem_cons.mpr ⟨composed_repeat_not hc _, h.conjuncts⟩⟩

theorem nextAlternative (h : l.Composed form) (hne : l.conjuncts ≠ []) :
    l.nextAlternative.Composed form :=
  ⟨List.forall_mem_cons.mpr ⟨composed_conjunction hne h.conjuncts, h.alternatives⟩,
    List.forall_mem_nil _⟩

theorem result (h : l.Composed form) (hne : l.conjuncts ≠ []) :
    Condition.Composed form l.result :=
  composed_disjunction (List.cons_ne_nil _ _)
    (List.forall_mem_cons.mpr ⟨composed_conjunction hne h.conjuncts, h.alternatives⟩)

end Level.Composed

variable {text rest : List Char} {c : Condition}

theorem composed_comparison
    (hread : ∀ place source rest, Ahead text place → operand place = .ok (source, rest) →
      form source)
    (hnull : form (.literal .null)) (h : comparison text = .ok (c, rest)) : Composed form c := by
  unfold comparison at h
  cases hl : operand text with
  | error m => rw [hl] at h; cases h
  | ok read =>
      obtain ⟨left, after⟩ := read
      have hleft := hread text left after (.here text) hl
      have hafter := operand_ahead hl
      rw [hl] at h
      simp only [bind, Except.bind, pure, Except.pure] at h
      split at h
      · next op place hop =>
        have hplace : Ahead text place :=
          (hafter.trans (.dropBlank after)).trans (operator?_ahead hop)
        split at h
        · cases h
        · next read hr =>
          obtain ⟨right, rest'⟩ := read
          obtain ⟨rfl, -⟩ := Prod.mk.inj (Except.ok.inj h)
          exact .compare hleft (hread place right rest' hplace hr)
      · obtain ⟨rfl, -⟩ := Prod.mk.inj (Except.ok.inj h)
        exact .compare hleft hnull

theorem afterClose?_ahead (h : afterClose? text = some rest) : Ahead text rest := by
  unfold afterClose? at h
  split at h
  · cases h
    exact .char (by decide) (.here _)
  · cases h

/-- What the reader has read is composed at every level, so what it returns is. Between parts, the
innermost level has a part that is not yet combined. -/
theorem composed_combine {awaited : Awaited} {level : Level} {outer : List Level}
    (hread : ∀ place source rest, Ahead text place → operand place = .ok (source, rest) →
      form source)
    (hnull : form (.literal .null)) (hlevel : level.Composed form)
    (houter : ∀ l ∈ outer, l.Composed form)
    (hpart : awaited = .connective → level.conjuncts ≠ [])
    (h : combine awaited level outer text = .ok (c, rest)) : Composed form c := by
  -- The induction is on what remains of the text, so the operands are those at all places ahead.
  have hwithin : ∀ {text after : List Char}, Ahead text after →
      (∀ place source rest, Ahead text place → operand place = .ok (source, rest) → form source) →
      ∀ place source rest, Ahead after place → operand place = .ok (source, rest) → form source :=
    fun hafter hread place source rest hplace =>
      hread place source rest (hafter.trans hplace)
  fun_induction combine awaited level outer text with
  | case1 => cases h
  | case2 level outer text after htext _ ih =>
      have hafter : Ahead text after := .of_dropBlank ['!'] htext (by decide)
      exact ih (hwithin hafter hread) ⟨hlevel.alternatives, hlevel.conjuncts⟩ houter nofun h
  | case3 level outer text after htext ih =>
      have hafter : Ahead text after := .of_dropBlank ['('] htext (by decide)
      exact ih (hwithin hafter hread) .new (List.forall_mem_cons.mpr ⟨hlevel, houter⟩) nofun h
  | case4 => cases h
  | case5 level outer text part after _ _ hcomparison ih =>
      have hbody := Ahead.dropBlank text
      have hafter := hbody.trans (comparison_ahead hcomparison)
      have hcomposed := composed_comparison (hwithin hbody hread) hnull hcomparison
      exact ih (hwithin hafter hread) (hlevel.put hcomposed) houter
        (fun _ => List.cons_ne_nil _ _) h
  | case6 level outer text after htext ih =>
      have hafter : Ahead text after := .of_dropBlank ['&', '&'] htext (by decide)
      exact ih (hwithin hafter hread) hlevel houter nofun h
  | case7 level outer text after htext ih =>
      have hafter : Ahead text after := .of_dropBlank ['|', '|'] htext (by decide)
      exact ih (hwithin hafter hread) (hlevel.nextAlternative (hpart rfl)) houter nofun h
  | case8 level text =>
      obtain ⟨rfl, -⟩ := Prod.mk.inj (Except.ok.inj h)
      exact hlevel.result (hpart rfl)
  | case9 level text enclosing outer after _ _ hclose ih =>
      have hafter := (Ahead.dropBlank text).trans (afterClose?_ahead hclose)
      obtain ⟨henclosing, houter⟩ := List.forall_mem_cons.mp houter
      exact ih (hwithin hafter hread) (henclosing.put (hlevel.result (hpart rfl))) houter
        (fun _ => List.cons_ne_nil _ _) h
  | case10 => cases h

end Combinations

section Queries

variable {text rest : List Char}

theorem forall₂_of_mapM {α β : Type} {f : α → Option β} {list : List α} {list' : List β}
    (h : list.mapM f = some list') : List.Forall₂ (fun a b => f a = some b) list list' := by
  induction list generalizing list' with
  | nil =>
      obtain rfl : [] = list' := by simpa using h
      exact .nil
  | cons a rest ih =>
      simp only [List.mapM_cons, Option.bind_eq_bind, Option.pure_def, Option.bind_eq_some_iff,
        Option.some.injEq] at h
      obtain ⟨b, hb, rest', hrest, rfl⟩ := h
      exact .cons hb (ih hrest)

theorem querySegment?_plain {part : List Char} {segment : PathSegment}
    (h : querySegment? part = some segment) :
    segment.Plain ∧ (segment.Named ↔ trimChars part ≠ ['$']) := by
  unfold querySegment? at h
  split at h
  · cases h
  · next hscenario =>
    cases h
    exact ⟨trivial, iff_of_true trivial (by simp [hscenario])⟩
  · next field hfield =>
    cases h
    refine ⟨trivial, ?_⟩
    rw [hfield]
    simp [PathSegment.Named]
  · next text hne _ hfield =>
    cases h
    refine ⟨fun hempty => hne (by simpa using hempty), iff_of_true trivial fun hdollar => ?_⟩
    exact hfield [] hdollar

theorem pathOfBody_shaped {body : List Char} {path : AttributePath}
    (h : pathOfBody body = .ok path) :
    path ≠ [] ∧ List.Forall₂
      (fun part segment => segment.Plain ∧ (segment.Named ↔ trimChars part ≠ ['$']))
      (split (· == '/') (trimChars body)) path := by
  unfold pathOfBody at h
  split at h
  · cases h
  split at h
  · next path' hpath =>
    cases h
    have hread := forall₂_of_mapM hpath
    refine ⟨?_, hread.imp fun _ _ => querySegment?_plain⟩
    rw [← List.length_pos_iff, ← hread.length_eq, List.length_pos_iff]
    exact split_ne_nil _
  · cases h

end Queries

section Operands

variable {text rest : List Char} {source : ValueSource} {form : PathSegment → Prop}

theorem ofInt64_shaped (n : Int64) : ValueSource.Shaped form (.literal (.ofInt64 n)) := by
  unfold Value.ofInt64
  split
  · trivial
  · next hnone => exact hnone

theorem number_shaped {value : Value} (h : number text = .ok (value, rest)) :
    ValueSource.Shaped form (.literal value) := by
  unfold number at h
  simp only at h
  split at h
  · split at h
    · obtain ⟨rfl, -⟩ := Prod.mk.inj (Except.ok.inj h)
      trivial
    · cases h
  · split at h
    · obtain ⟨rfl, -⟩ := Prod.mk.inj (Except.ok.inj h)
      exact ofInt64_shaped _
    · cases h

theorem wordOperand_shaped (h : wordOperand text = .ok (source, rest)) :
    source.Shaped PathSegment.Plain ∧ ∀ path, source = .query path → StandsIn text path := by
  unfold wordOperand at h
  cases hword : identifier text with
  | error m => rw [hword] at h; cases h
  | ok read =>
      obtain ⟨word, after⟩ := read
      obtain ⟨-, htext⟩ := identifier_eq hword
      rw [hword] at h
      simp only [bind, Except.bind, pure, Except.pure] at h
      split at h
      · cases h
        exact ⟨trivial, nofun⟩
      split at h
      · cases h
        exact ⟨trivial, nofun⟩
      split at h
      · cases h
        exact ⟨trivial, nofun⟩
      split at h
      · next hquery =>
        split at h
        · cases h
        · next read hpath =>
          obtain ⟨path, after'⟩ := read
          obtain ⟨rfl, -⟩ := Prod.mk.inj (Except.ok.inj h)
          obtain ⟨w, body, hw, hclose, rfl, hbody⟩ := queryPath_eq hpath
          obtain ⟨hne, hparts⟩ := pathOfBody_shaped hbody
          have hquery : QueryIn text body := by
            refine ⟨w, after', hw, hclose, ?_⟩
            rw [htext, hquery, List.append_assoc]
            exact .here _
          constructor
          · refine ⟨hne, fun segment hsegment => ?_⟩
            obtain ⟨i, hi, rfl⟩ := List.getElem_of_mem hsegment
            exact (hparts.get (hparts.length_eq ▸ hi) hi).1
          · rintro path ⟨⟩
            exact ⟨body, hquery, hparts.imp fun _ _ hpart => hpart.2⟩
      · cases h

theorem operand_shaped (h : operand text = .ok (source, rest)) :
    source.Shaped PathSegment.Plain ∧ ∀ path, source = .query path → StandsIn text path := by
  have hblank := Ahead.dropBlank text
  unfold operand at h
  split at h
  · cases h
  · obtain ⟨word, hword, rfl⟩ := exists_of_map_ok h
    exact ⟨(identifier_eq hword).1, nofun⟩
  · obtain ⟨word, hword, rfl⟩ := exists_of_map_ok h
    exact ⟨(identifier_eq hword).1, nofun⟩
  · split at h
    · obtain ⟨rfl, -⟩ := Prod.mk.inj (Except.ok.inj h)
      exact ⟨trivial, nofun⟩
    · cases h
  · next c after _ _ _ htext =>
    split at h
    · obtain ⟨value, hvalue, rfl⟩ := exists_of_map_ok h
      exact ⟨number_shaped hvalue, nofun⟩
    · obtain ⟨hshaped, hstands⟩ := wordOperand_shaped h
      exact ⟨hshaped, fun path hpath => (hstands path hpath).of_ahead (htext ▸ hblank)⟩

end Operands

theorem combine_of_parse {text : String} {c : Condition} (h : parse text = .ok c) :
    combine .part {} [] (trimChars text.toList) = .ok (c, []) := by
  unfold parse at h
  simp only at h
  split at h
  · cases h
  split at h
  · cases h
  · next c' hc =>
    cases h
    exact hc
  · cases h

theorem composed_parse {form : ValueSource → Prop} {text : String} {c : Condition}
    (hread : ∀ place source rest, Ahead (trimChars text.toList) place →
      operand place = .ok (source, rest) → form source)
    (hnull : form (.literal .null)) (h : parse text = .ok c) : Composed form c := by
  have hbegin : Awaited.part = .connective → ({} : Level).conjuncts ≠ [] := nofun
  exact composed_combine hread hnull .new (List.forall_mem_nil _) hbegin (combine_of_parse h)

/-- A condition that is read from a text consists of negations, conjunctions and disjunctions of two
parts or more, and comparisons. The operands of these have their names, except that a segment of a
query that is spelled by a `$` alone is a field without a name, and an integer of the wider kind does
not fit the narrower one. -/
theorem parse_shaped {text : String} {c : Condition} (h : parse text = .ok c) :
    Composed (ValueSource.Shaped PathSegment.Plain) c ∧
      Composed (fun source => ∀ path, source = .query path → StandsIn text.toList path) c ∧
      (¬ LoneDollar text.toList →
        Composed (ValueSource.Shaped fun segment => segment.Plain ∧ segment.Named) c) := by
  have hcomposed : Composed (fun source => source.Shaped PathSegment.Plain ∧
      ∀ path, source = .query path → StandsIn text.toList path) c := by
    refine composed_parse (fun place source rest hplace hsource => ?_) ⟨trivial, nofun⟩ h
    obtain ⟨hshaped, hstands⟩ := operand_shaped hsource
    exact ⟨hshaped, fun path hpath =>
      ((hstands path hpath).of_ahead hplace).of_trimmed⟩
  refine ⟨hcomposed.mono fun _ => And.left, hcomposed.mono fun _ => And.right, fun hnone => ?_⟩
  exact hcomposed.mono fun _ hsource => named_of_standsIn hsource.1 hsource.2 hnone

/-- A `$` alone that stands in a literal is none in a query. -/
theorem parse_shaped_sample :
    let text := "!(query(~/ $f/b) != \"query($)\" && @s >= 2147483648) || $g < ts"
    let known : Condition :=
      .compare (.query [.scenario, .field "f", .name "b"]) .ne (.literal (.string "query($)"))
    let late : Condition := .compare (.scratch "s") .ge (.literal (.long 2147483648))
    let c : Condition := .or [.not (.and [known, late]), .compare (.field "g") .lt .timestamp]
    parse text = .ok c ∧
      Composed (fun source => ∀ path, source = .query path → StandsIn text.toList path) c ∧
      ¬ LoneDollar text.toList ∧
      Composed (ValueSource.Shaped fun segment => segment.Plain ∧ segment.Named) c := by
  intro text known late c
  have hparse : parse text = .ok c := by
    have hspace : Blank [' '] := by simp [Blank, isBlank]
    have hscenario : PathSegment.Textual .scenario := trivial
    have hf : PathSegment.Textual (.field "f") := ⟨by decide, by decide, by decide, by decide⟩
    have hb : PathSegment.Textual (.name "b") :=
      ⟨⟨by decide, by decide, by decide, by decide⟩, by decide, by decide⟩
    have hpath : AttributePath.Spells [.scenario, .field "f", .name "b"] "~/ $f/b".toList :=
      .cons hscenario blank_nil blank_nil (.cons hf hspace blank_nil (.last hb blank_nil blank_nil))
    have hknown : Spells (.part known) "query(~/ $f/b) != \"query($)\"".toList :=
      .compare .ne (.query blank_nil hpath) hspace hspace (.string "query($)")
    have hlate : Spells (.part late) "@s >= 2147483648".toList :=
      .compare .ge (.scratch (isIdentifier_of_all (by decide) (by decide))) hspace hspace
        (.long (by decide))
    have hsoon : Spells (.part (.compare (.field "g") .lt .timestamp)) "$g < ts".toList :=
      .compare .lt (.field (isIdentifier_of_all (by decide) (by decide))) hspace hspace .timestamp
    have hboth : Spells (.part (.and [known, late])) _ :=
      Spells.parentheses blank_nil blank_nil
        ((Spells.conjunct hknown).and hspace hspace hlate).alternative
    have hall : Spells (.alternatives [.not (.and [known, late]), _]) _ :=
      (Spells.conjunct (hboth.not blank_nil)).alternative.or hspace hspace (Spells.conjunct hsoon)
    exact parse_of_spelled ⟨_, [], [], _, rfl, blank_nil, blank_nil, hall, by decide +kernel⟩
  have hnone : ¬ LoneDollar text.toList := by decide +kernel
  obtain ⟨-, hstands, hnamed⟩ := parse_shaped hparse
  exact ⟨hparse, hstands, hnone, hnamed hnone⟩

/-- A `$` alone in a query is read as a field without a name. -/
theorem parse_lone_dollar :
    ∃ c, parse "query($)" = .ok c ∧
      ¬ Composed (ValueSource.Shaped fun segment => segment.Plain ∧ segment.Named) c := by
  refine ⟨.compare (.query [.field ""]) .ne (.literal .null), ?_, fun h => ?_⟩
  · have hword : IsIdentifier "query" := isIdentifier_of_all (by decide) (by decide)
    have hbounded : Bounded "($)".toList :=
      bounded_cons (isIdentifierChar_of_mark '(' (by decide)) _
    have hpath : queryPath "($)".toList = .ok ([.field ""], []) := by rfl
    have hoperand : operand "query($)".toList = .ok (.query [.field ""], []) := by
      change operand ("query".toList ++ "($)".toList) = _
      rw [operand_word hword rfl rfl, wordOperand, identifier_append hword hbounded]
      simp only [bind, Except.bind]
      rw [hpath]
      rfl
    have hcomparison : comparison (dropBlank "query($)".toList) =
        .ok (.compare (.query [.field ""]) .ne (.literal .null), []) := by
      change comparison "query($)".toList = _
      rw [comparison, hoperand]
      rfl
    have hcombine : combine .part {} [] "query($)".toList =
        .ok (.compare (.query [.field ""]) .ne (.literal .null), []) := by
      have hstart : dropBlank "query($)".toList = 'q' :: "uery($)".toList := rfl
      have hnot : ∀ tail, dropBlank "query($)".toList ≠ '!' :: tail := by
        intro tail heq
        cases hstart.symm.trans heq
      have hopen : ∀ tail, dropBlank "query($)".toList ≠ '(' :: tail := by
        intro tail heq
        cases hstart.symm.trans heq
      rw [combine_comparison hnot hopen hcomparison, combine_end rfl]
      rfl
    have htrim : trimChars "query($)".toList = "query($)".toList := by decide
    simp only [parse, htrim, hcombine]
    rfl
  · cases h with
    | compare hl hr => exact (hl.2 (.field "") List.mem_cons_self).2 rfl

end Condition

end TraceAutomata
