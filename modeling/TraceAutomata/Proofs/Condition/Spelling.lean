import TraceAutomata.Proofs.Condition.Operand

namespace TraceAutomata

open Text

namespace CompareOp

def symbol : CompareOp → List Char
  | .eq => ['=', '=']
  | .ne => ['!', '=']
  | .ge => ['>', '=']
  | .gt => ['>']
  | .le => ['<', '=']
  | .lt => ['<']

end CompareOp

namespace Condition

/-- The conditions that a text can spell. -/
inductive Textual : Condition → Prop
  | compare {left right : ValueSource} {op : CompareOp} (hl : left.Textual) (hr : right.Textual) :
      Textual (.compare left op right)
  | not {c : Condition} (h : Textual c) : Textual (.not c)
  | and {cs : List Condition} (hlength : 2 ≤ cs.length) (h : ∀ c ∈ cs, Textual c) :
      Textual (.and cs)
  | or {cs : List Condition} (hlength : 2 ≤ cs.length) (h : ∀ c ∈ cs, Textual c) :
      Textual (.or cs)

/-- The condition that all of some hold; a single one stands for itself. -/
def all : List Condition → Condition
  | [c] => c
  | cs => .and cs

/-- The condition that one of some holds; a single one stands for itself. -/
def any : List Condition → Condition
  | [c] => c
  | cs => .or cs

/-- What a stretch of text spells: one part, or conditions with `&&` or with `||` between them. -/
inductive Phrase where
  | part (c : Condition)
  | conjuncts (cs : List Condition)
  | alternatives (cs : List Condition)

inductive Spells : Phrase → List Char → Prop
  | compare {left right : ValueSource} (op : CompareOp) {l r w w' : List Char}
      (hl : left.Spells l) (hw : Blank w) (hw' : Blank w') (hr : right.Spells r) :
      Spells (.part (.compare left op right)) (l ++ w ++ op.symbol ++ w' ++ r)
  | not {c : Condition} {w text : List Char} (hw : Blank w) (h : Spells (.part c) text) :
      Spells (.part (.not c)) ('!' :: w ++ text)
  | parentheses {cs : List Condition} {w w' text : List Char} (hw : Blank w) (hw' : Blank w')
      (h : Spells (.alternatives cs) text) :
      Spells (.part (any cs)) ('(' :: w ++ text ++ w' ++ [')'])
  | conjunct {c : Condition} {text : List Char} (h : Spells (.part c) text) :
      Spells (.conjuncts [c]) text
  | and {cs : List Condition} {c : Condition} {w w' front text : List Char}
      (hfront : Spells (.conjuncts cs) front) (hw : Blank w) (hw' : Blank w')
      (h : Spells (.part c) text) :
      Spells (.conjuncts (cs ++ [c])) (front ++ w ++ ['&', '&'] ++ w' ++ text)
  | alternative {cs : List Condition} {text : List Char} (h : Spells (.conjuncts cs) text) :
      Spells (.alternatives [all cs]) text
  | or {cs conjuncts : List Condition} {w w' front text : List Char}
      (hfront : Spells (.alternatives cs) front) (hw : Blank w) (hw' : Blank w')
      (h : Spells (.conjuncts conjuncts) text) :
      Spells (.alternatives (cs ++ [all conjuncts])) (front ++ w ++ ['|', '|'] ++ w' ++ text)

def Spelled (c : Condition) (text : String) : Prop :=
  ∃ cs w w' core, c = any cs ∧ Blank w ∧ Blank w' ∧ Spells (.alternatives cs) core ∧
    text.toList = w ++ core ++ w'

section Tokens

variable {level : Level} {outer : List Level} {text rest : List Char}

theorem combine_not (htext : dropBlank text = '!' :: rest) (hrest : rest.head? ≠ some '=') :
    combine .part level outer text =
      combine .part { level with negations := level.negations + 1 } outer rest := by
  conv_lhs => rw [combine]
  split
  · next heq =>
    obtain ⟨-, rfl⟩ := List.cons.inj (htext.symm.trans heq)
    rw [if_neg hrest]
  · next heq => cases htext.symm.trans heq
  · next hnot _ => exact (hnot _ htext).elim

theorem combine_open (htext : dropBlank text = '(' :: rest) :
    combine .part level outer text = combine .part {} (level :: outer) rest := by
  conv_lhs => rw [combine]
  split
  · next heq => cases htext.symm.trans heq
  · next heq =>
    obtain ⟨-, rfl⟩ := List.cons.inj (htext.symm.trans heq)
    rfl
  · next hnot => exact (hnot _ htext).elim

theorem combine_comparison {c : Condition} (hnot : ∀ tail, dropBlank text ≠ '!' :: tail)
    (hopen : ∀ tail, dropBlank text ≠ '(' :: tail)
    (hread : comparison (dropBlank text) = .ok (c, rest)) :
    combine .part level outer text = combine .connective (level.put c) outer rest := by
  conv_lhs => rw [combine]
  split
  · next heq => exact (hnot _ heq).elim
  · next heq => exact (hopen _ heq).elim
  · split
    · next heq => cases hread.symm.trans heq
    · next heq =>
      obtain ⟨rfl, rfl⟩ := Prod.mk.inj (Except.ok.inj (hread.symm.trans heq))
      rfl

theorem combine_and (htext : dropBlank text = '&' :: '&' :: rest) :
    combine .connective level outer text = combine .part level outer rest := by
  conv_lhs => rw [combine]
  split
  · next heq =>
    obtain ⟨-, heq⟩ := List.cons.inj (htext.symm.trans heq)
    obtain ⟨-, rfl⟩ := List.cons.inj heq
    rfl
  · next heq => cases htext.symm.trans heq
  · next hnot _ => exact (hnot _ htext).elim

theorem combine_or (htext : dropBlank text = '|' :: '|' :: rest) :
    combine .connective level outer text = combine .part level.nextAlternative outer rest := by
  conv_lhs => rw [combine]
  split
  · next heq => cases htext.symm.trans heq
  · next heq =>
    obtain ⟨-, heq⟩ := List.cons.inj (htext.symm.trans heq)
    obtain ⟨-, rfl⟩ := List.cons.inj heq
    rfl
  · next hnot => exact (hnot _ htext).elim

theorem combine_close {enclosing : Level} (htext : dropBlank text = ')' :: rest) :
    combine .connective level (enclosing :: outer) text =
      combine .connective (enclosing.put level.result) outer rest := by
  conv_lhs => rw [combine]
  split
  · next heq => cases htext.symm.trans heq
  · next heq => cases htext.symm.trans heq
  · have hclose : afterClose? (dropBlank text) = some rest := by rw [htext, afterClose?]
    split
    · next heq => cases heq
    · next heq =>
      obtain ⟨rfl, rfl⟩ := List.cons.inj heq
      split
      · next heq =>
        obtain rfl := Option.some.inj (hclose.symm.trans heq)
        rfl
      · next heq => cases hclose.symm.trans heq

theorem combine_end (htext : dropBlank text = []) :
    combine .connective level [] text = .ok (level.result, []) := by
  conv_lhs => rw [combine]
  split
  · next heq => cases htext.symm.trans heq
  · next heq => cases htext.symm.trans heq
  · rw [htext]

theorem head?_append_ne {w : List Char} (hw : Blank w) (htext : text.head? ≠ some '=') :
    (w ++ text).head? ≠ some '=' := by
  cases w with
  | nil => exact htext
  | cons c w =>
      rintro ⟨⟩
      exact Bool.false_ne_true (hw '=' List.mem_cons_self)

theorem operator?_symbol (op : CompareOp) (htext : text.head? ≠ some '=') :
    operator? (op.symbol ++ text) = some (op, text) := by
  have hother : ∀ tail, text ≠ '=' :: tail := fun tail heq => htext (heq ▸ rfl)
  cases op with
  | gt =>
      rw [CompareOp.symbol, List.singleton_append, operator?]
      exact fun tail heq => hother tail heq
  | lt =>
      rw [CompareOp.symbol, List.singleton_append, operator?]
      exact fun tail heq => hother tail heq
  | _ => rfl

theorem bounded_symbol (op : CompareOp) (text : List Char) : Bounded (op.symbol ++ text) := by
  cases op <;> exact bounded_cons (isIdentifierChar_of_mark _ (by decide)) _

theorem dropBlank_symbol (op : CompareOp) (text : List Char) :
    dropBlank (op.symbol ++ text) = op.symbol ++ text := by
  cases op <;> exact dropBlank_cons (by decide) _

end Tokens

theorem comparison_append {left right : ValueSource} (op : CompareOp) {l r w w' rest : List Char}
    (hl : left.Spells l) (hw : Blank w) (hw' : Blank w') (hr : right.Spells r)
    (hrest : Bounded rest) :
    comparison (l ++ w ++ op.symbol ++ w' ++ r ++ rest) = .ok (.compare left op right, rest) := by
  obtain ⟨c, tail, hfirst, hblank, hc⟩ := hr.exists_first
  have hhead : (w' ++ (r ++ rest)).head? ≠ some '=' := by
    refine head?_append_ne hw' ?_
    rw [hfirst]
    rintro ⟨⟩
    exact hc (by decide)
  have happ : l ++ w ++ op.symbol ++ w' ++ r ++ rest =
      l ++ (w ++ (op.symbol ++ (w' ++ (r ++ rest)))) := by simp
  have hafter : operand (w' ++ (r ++ rest)) = .ok (right, rest) := by
    rw [operand_blank hw', hr.operand_eq hrest]
  rw [happ, comparison, hl.operand_eq (.append hw (bounded_symbol op _))]
  simp only [bind, Except.bind, dropBlank_append hw, dropBlank_symbol, operator?_symbol op hhead,
    hafter]
  rfl

theorem conjunction_reverse (cs : List Condition) : Level.conjunction cs.reverse = all cs := by
  rcases cs with _ | ⟨c, _ | ⟨d, rest⟩⟩
  · rfl
  · rfl
  · rw [Level.conjunction, List.reverse_reverse]
    · rfl
    · intro c heq
      simpa using congrArg List.length heq

theorem disjunction_reverse (cs : List Condition) : Level.disjunction cs.reverse = any cs := by
  rcases cs with _ | ⟨c, _ | ⟨d, rest⟩⟩
  · rfl
  · rfl
  · rw [Level.disjunction, List.reverse_reverse]
    · rfl
    · intro c heq
      simpa using congrArg List.length heq

theorem repeat_not (count : Nat) (c : Condition) :
    Nat.repeat Condition.not count (.not c) = .not (Nat.repeat Condition.not count c) := by
  induction count with
  | zero => rfl
  | succ count ih => exact congrArg Condition.not ih

/-- What the reader has read after a phrase. The level at which a list of conditions is read is
new, since parentheses or the beginning of the text, or `||`, stand before it. -/
def Reads : Phrase → List Char → Prop
  | .part c, text => ∀ w rest level outer, Blank w → Bounded rest →
      combine .part level outer (w ++ text ++ rest) =
        combine .connective (level.put c) outer rest
  | .conjuncts cs, text => ∀ w rest alternatives outer, Blank w → Bounded rest →
      combine .part { alternatives } outer (w ++ text ++ rest) =
        combine .connective { alternatives, conjuncts := cs.reverse } outer rest
  | .alternatives cs, text => ∃ front back, cs.reverse = Level.conjunction back :: front ∧
      ∀ w rest outer, Blank w → Bounded rest →
        combine .part {} outer (w ++ text ++ rest) =
          combine .connective { alternatives := front, conjuncts := back } outer rest

namespace Spells

variable {phrase : Phrase} {text : List Char}

theorem tight (h : Spells phrase text) : Tight text := by
  induction h with
  | @compare left right op l r w w' hl hw hw' hr =>
      simpa using hl.tight.around (w ++ op.symbol ++ w') hr.tight
  | @not c w text hw h ih => simpa using ((Tight.single (by decide) : Tight ['!']).around w ih)
  | @parentheses cs w w' text hw hw' h ih =>
      have hopen : Tight ['('] := .single (by decide)
      simpa using hopen.around (w ++ text ++ w') (.single (by decide) : Tight [')'])
  | conjunct h ih => exact ih
  | @and cs c w w' front text hfront hw hw' h ihfront ih =>
      simpa using ihfront.around (w ++ ['&', '&'] ++ w') ih
  | alternative h ih => exact ih
  | @or cs conjuncts w w' front text hfront hw hw' h ihfront ih =>
      simpa using ihfront.around (w ++ ['|', '|'] ++ w') ih

theorem head?_ne (h : Spells phrase text) (rest : List Char) :
    (text ++ rest).head? ≠ some '=' := by
  have hfirst : ∃ c tail, text = c :: tail ∧ c ≠ '=' := by
    induction h with
    | compare op hl hw hw' hr =>
        obtain ⟨c, tail, rfl, -, hc⟩ := hl.exists_first
        exact ⟨c, _, rfl, fun heq => hc (heq ▸ List.mem_cons_self)⟩
    | not hw h ih => exact ⟨'!', _, rfl, by decide⟩
    | parentheses hw hw' h ih => exact ⟨'(', _, rfl, by decide⟩
    | conjunct h ih => exact ih
    | and hfront hw hw' h ihfront ih =>
        obtain ⟨c, tail, rfl, hc⟩ := ihfront
        exact ⟨c, _, rfl, hc⟩
    | alternative h ih => exact ih
    | or hfront hw hw' h ihfront ih =>
        obtain ⟨c, tail, rfl, hc⟩ := ihfront
        exact ⟨c, _, rfl, hc⟩
  obtain ⟨c, tail, rfl, hc⟩ := hfirst
  rintro ⟨⟩
  exact hc rfl

theorem reads (h : Spells phrase text) : Reads phrase text := by
  induction h with
  | @compare left right op l r w w' hl hw hw' hr =>
      intro v rest level outer hv hrest
      obtain ⟨c, tail, hfirst, hblank, hc⟩ := hl.exists_first
      have hread := comparison_append op hl hw hw' hr hrest
      have hdrop : dropBlank (v ++ (l ++ w ++ op.symbol ++ w' ++ r) ++ rest) =
          l ++ w ++ op.symbol ++ w' ++ r ++ rest := by
        rw [List.append_assoc, dropBlank_append hv, hfirst]
        simpa using dropBlank_cons hblank _
      refine combine_comparison ?_ ?_ (hdrop ▸ hread)
      · rw [hdrop, hfirst]
        rintro _ ⟨⟩
        exact hc (by decide)
      · rw [hdrop, hfirst]
        rintro _ ⟨⟩
        exact hc (by decide)
  | @not c w text hw h ih =>
      intro v rest level outer hv hrest
      have hdrop : dropBlank (v ++ ('!' :: w ++ text) ++ rest) = '!' :: (w ++ text ++ rest) := by
        rw [List.append_assoc, dropBlank_append hv, List.cons_append, List.cons_append,
          dropBlank_cons (by decide)]
      rw [combine_not hdrop (by simpa using head?_append_ne hw (h.head?_ne rest)),
        ih w rest _ outer hw hrest]
      rw [Level.put, Level.put, repeat_not]
      rfl
  | @parentheses cs w w' text hw hw' h ih =>
      intro v rest level outer hv hrest
      obtain ⟨front, back, hcs, hread⟩ := ih
      have hdrop : dropBlank (v ++ ('(' :: w ++ text ++ w' ++ [')']) ++ rest) =
          '(' :: (w ++ text ++ (w' ++ ')' :: rest)) := by
        rw [List.append_assoc, dropBlank_append hv]
        simpa using dropBlank_cons (by decide) _
      have hclose : dropBlank (w' ++ ')' :: rest) = ')' :: rest :=
        dropBlank_append_cons hw' (by decide) rest
      have hbounded : Bounded (w' ++ ')' :: rest) := bounded_mark hw' (by decide) rest
      have hresult : Level.result { alternatives := front, conjuncts := back } = any cs := by
        rw [Level.result, ← hcs, disjunction_reverse]
      rw [combine_open hdrop, hread w _ _ hw hbounded, combine_close hclose, hresult]
  | conjunct h ih => exact fun v rest alternatives outer hv hrest => ih v rest _ outer hv hrest
  | @and cs c w w' front text hfront hw hw' h ihfront ih =>
      intro v rest alternatives outer hv hrest
      have happ : v ++ (front ++ w ++ ['&', '&'] ++ w' ++ text) ++ rest =
          v ++ front ++ (w ++ '&' :: '&' :: (w' ++ text ++ rest)) := by simp
      have hdrop : dropBlank (w ++ '&' :: '&' :: (w' ++ text ++ rest)) =
          '&' :: '&' :: (w' ++ text ++ rest) :=
        dropBlank_append_cons hw (by decide) _
      have hbounded : Bounded (w ++ '&' :: '&' :: (w' ++ text ++ rest)) :=
        bounded_mark hw (by decide) _
      rw [happ, ihfront v _ alternatives outer hv hbounded, combine_and hdrop,
        ih w' rest _ outer hw' hrest, List.reverse_append]
      rfl
  | @alternative cs text h ih =>
      refine ⟨[], cs.reverse, by rw [conjunction_reverse]; rfl, fun v rest outer hv hrest => ?_⟩
      exact ih v rest [] outer hv hrest
  | @or cs conjuncts w w' front text hfront hw hw' h ihfront ih =>
      obtain ⟨alternatives, back, hcs, hread⟩ := ihfront
      refine ⟨cs.reverse, conjuncts.reverse, ?_, fun v rest outer hv hrest => ?_⟩
      · rw [List.reverse_append, conjunction_reverse]
        rfl
      have happ : v ++ (front ++ w ++ ['|', '|'] ++ w' ++ text) ++ rest =
          v ++ front ++ (w ++ '|' :: '|' :: (w' ++ text ++ rest)) := by simp
      have hdrop : dropBlank (w ++ '|' :: '|' :: (w' ++ text ++ rest)) =
          '|' :: '|' :: (w' ++ text ++ rest) :=
        dropBlank_append_cons hw (by decide) _
      have hbounded : Bounded (w ++ '|' :: '|' :: (w' ++ text ++ rest)) :=
        bounded_mark hw (by decide) _
      rw [happ, hread v _ outer hv hbounded, combine_or hdrop, Level.nextAlternative, ← hcs]
      exact ih w' rest cs.reverse outer hw' hrest

end Spells

theorem parse_of_spelled {c : Condition} {text : String} (h : c.Spelled text) :
    parse text = .ok c := by
  obtain ⟨cs, w, w', core, rfl, hw, hw', hspells, htext⟩ := h
  obtain ⟨front, back, hcs, hread⟩ := hspells.reads
  obtain ⟨first, tail, hfirst, -⟩ := hspells.tight.first
  have hfull : core.isEmpty = false := by rw [hfirst, List.isEmpty_cons]
  have hcombine := hread [] [] [] blank_nil bounded_nil
  rw [List.nil_append, List.append_nil, combine_end rfl, Level.result, ← hcs,
    disjunction_reverse] at hcombine
  simp only [parse, htext, trimChars_padded hw hw' hspells.tight, hfull, hcombine]
  rfl

theorem joined {P : List Condition → Prop} {cs : List Condition} (hne : cs ≠ [])
    (one : ∀ c ∈ cs, P [c]) (more : ∀ front, ∀ c ∈ cs, P front → P (front ++ [c])) : P cs := by
  induction cs using List.reverseRecOn with
  | nil => exact (hne rfl).elim
  | append_singleton front c ih =>
      obtain ⟨hfront, hlast⟩ := List.forall_mem_append.mp one
      by_cases hnil : front = []
      · subst hnil
        exact hlast c (List.mem_singleton_self c)
      · exact more front c (by simp)
          (ih hnil hfront fun front' d hd => more front' d (List.mem_append_left _ hd))

theorem exists_conjuncts {cs : List Condition} (hne : cs ≠ [])
    (h : ∀ c ∈ cs, ∃ text, Spells (.part c) text) : ∃ text, Spells (.conjuncts cs) text := by
  refine joined (P := fun cs => ∃ text, Spells (.conjuncts cs) text) hne ?_ ?_
  · intro c hc
    obtain ⟨text, htext⟩ := h c hc
    exact ⟨text, .conjunct htext⟩
  · rintro front c hc ⟨start, hstart⟩
    obtain ⟨text, htext⟩ := h c hc
    exact ⟨_, .and hstart blank_nil blank_nil htext⟩

theorem exists_alternatives {cs : List Condition} (hne : cs ≠ [])
    (h : ∀ c ∈ cs, ∃ text, Spells (.part c) text) : ∃ text, Spells (.alternatives cs) text := by
  refine joined (P := fun cs => ∃ text, Spells (.alternatives cs) text) hne ?_ ?_
  · intro c hc
    obtain ⟨text, htext⟩ := h c hc
    exact ⟨text, .alternative (.conjunct htext)⟩
  · rintro front c hc ⟨start, hstart⟩
    obtain ⟨text, htext⟩ := h c hc
    exact ⟨_, .or hstart blank_nil blank_nil (.conjunct htext)⟩

theorem all_of_two_le {cs : List Condition} (h : 2 ≤ cs.length) : all cs = .and cs := by
  rcases cs with _ | ⟨c, _ | ⟨d, rest⟩⟩
  · rfl
  · exact absurd h (by simp)
  · rfl

theorem any_of_two_le {cs : List Condition} (h : 2 ≤ cs.length) : any cs = .or cs := by
  rcases cs with _ | ⟨c, _ | ⟨d, rest⟩⟩
  · rfl
  · exact absurd h (by simp)
  · rfl

theorem Textual.exists_part {c : Condition} (h : c.Textual) : ∃ text, Spells (.part c) text := by
  induction h with
  | compare hl hr =>
      obtain ⟨l, hl⟩ := hl.exists_spelling
      obtain ⟨r, hr⟩ := hr.exists_spelling
      exact ⟨_, .compare _ hl blank_nil blank_nil hr⟩
  | not h ih =>
      obtain ⟨text, htext⟩ := ih
      exact ⟨_, .not blank_nil htext⟩
  | @and cs hlength h ih =>
      obtain ⟨text, htext⟩ := exists_conjuncts (List.ne_nil_of_length_pos (by omega)) ih
      rw [← all_of_two_le hlength]
      exact ⟨_, .parentheses blank_nil blank_nil (.alternative htext)⟩
  | @or cs hlength h ih =>
      obtain ⟨text, htext⟩ := exists_alternatives (List.ne_nil_of_length_pos (by omega)) ih
      rw [← any_of_two_le hlength]
      exact ⟨_, .parentheses blank_nil blank_nil htext⟩

theorem Textual.exists_spelled {c : Condition} (h : c.Textual) : ∃ text, c.Spelled text := by
  obtain ⟨core, hcore⟩ := h.exists_part
  refine ⟨String.ofList core, [c], [], [], core, rfl, blank_nil, blank_nil,
    .alternative (.conjunct hcore), ?_⟩
  rw [String.toList_ofList, List.nil_append, List.append_nil]

/-- Every condition of the kind that texts can spell has a spelling, and each of its spellings is
read as this condition. -/
theorem parse_spelling {c : Condition} (h : c.Textual) :
    (∃ text, c.Spelled text) ∧ ∀ text, c.Spelled text → parse text = .ok c :=
  ⟨h.exists_spelled, fun _ => parse_of_spelled⟩

theorem parse_spelling_sample :
    let above : Condition := .compare (.field "a.b") .ge (.literal (.int (-5)))
    let named : Condition := .compare .eventName .eq (.literal (.string "x\"y"))
    let known : Condition :=
      .compare (.query [.scenario, .field "f", .name "b"]) .ne (.literal .null)
    let early : Condition := .compare (.scratch "s") .lt .timestamp
    let c : Condition := .or [.and [.not above, named], .not (.and [known, early])]
    let text := " !$a.b >= -5 && (name==\"x\\\"y\")|| ! (query (~/ $f /b ) != null&&@s<ts)\t"
    c.Textual ∧ c.Spelled text ∧ parse text = .ok c := by
  intro above named known early c text
  have hfield : IsIdentifier "a.b" := isIdentifier_of_all (by decide) (by decide)
  have hslot : IsIdentifier "s" := isIdentifier_of_all (by decide) (by decide)
  have hscenario : PathSegment.Textual .scenario := trivial
  have hf : PathSegment.Textual (.field "f") := ⟨by decide, by decide, by decide, by decide⟩
  have hb : PathSegment.Textual (.name "b") :=
    ⟨⟨by decide, by decide, by decide, by decide⟩, by decide, by decide⟩
  have htextual : c.Textual := by
    have habove : above.Textual := .compare hfield trivial
    have hnamed : named.Textual := .compare trivial trivial
    have hpath : ∀ segment ∈ [PathSegment.scenario, .field "f", .name "b"], segment.Textual :=
      List.forall_mem_cons.mpr ⟨hscenario, List.forall_mem_cons.mpr
        ⟨hf, List.forall_mem_singleton.mpr hb⟩⟩
    have hknown : known.Textual := .compare ⟨by decide, hpath⟩ trivial
    have hearly : early.Textual := .compare hslot trivial
    have hleft : Textual (.and [.not above, named]) :=
      .and (by decide) (by simp [habove.not, hnamed])
    have hright : Textual (.and [known, early]) := .and (by decide) (by simp [hknown, hearly])
    exact .or (by decide) (by simp [hleft, hright.not])
  have hspelled : c.Spelled text := by
    have hspace : Blank [' '] := by simp [Blank, isBlank]
    have habove : Spells (.part above) "$a.b >= -5".toList :=
      .compare .ge (.field hfield) hspace hspace (.int (-5))
    have hnamed : Spells (.part named) "name==\"x\\\"y\"".toList :=
      .compare .eq .eventName blank_nil blank_nil (.string "x\"y")
    have hpath : AttributePath.Spells [.scenario, .field "f", .name "b"] "~/ $f /b ".toList :=
      .cons hscenario blank_nil blank_nil (.cons hf hspace hspace (.last hb blank_nil hspace))
    have hknown : Spells (.part known) "query (~/ $f /b ) != null".toList :=
      .compare .ne (.query hspace hpath) hspace hspace .null
    have hearly : Spells (.part early) "@s<ts".toList :=
      .compare .lt (.scratch hslot) blank_nil blank_nil .timestamp
    have hleft : Spells (.conjuncts [.not above, named]) _ :=
      (Spells.conjunct (habove.not blank_nil)).and hspace hspace
        (Spells.parentheses blank_nil blank_nil (Spells.conjunct hnamed).alternative)
    have hright : Spells (.part (.and [known, early])) _ :=
      Spells.parentheses blank_nil blank_nil
        ((Spells.conjunct hknown).and blank_nil blank_nil hearly).alternative
    have hall : Spells (.alternatives [.and [.not above, named], .not (.and [known, early])]) _ :=
      hleft.alternative.or blank_nil hspace (Spells.conjunct (hright.not hspace))
    exact ⟨_, [' '], ['\t'], _, rfl, hspace, by simp [Blank, isBlank], hall, by decide +kernel⟩
  exact ⟨htextual, hspelled, (parse_spelling htextual).2 text hspelled⟩

end Condition

end TraceAutomata
