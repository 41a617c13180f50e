import TraceAutomata.Proofs.Condition.Following

/-!
The routines that call each other come to an end on every text, and together they read what the reader of
lists reads. That one keeps the open parentheses as levels; the routines keep them as calls that have not
returned.
-/

namespace TraceAutomata.Condition

open Text Scan

variable {text rest : List Char}

section Levels

variable {level level' : Level} {outer : List Level}

theorem dropBlank_dropBlank (text : List Char) : dropBlank (dropBlank text) = dropBlank text :=
  List.dropWhile_idempotent isBlank text

theorem combine_dropBlank (awaited : Awaited) :
    combine awaited level outer (dropBlank text) = combine awaited level outer text := by
  have hblank := dropBlank_dropBlank text
  cases awaited with
  | part =>
      rw [combine, combine]
      generalize dropBlank (dropBlank text) = body at hblank ⊢
      subst hblank
      rfl
  | connective =>
      rw [combine, combine]
      generalize dropBlank (dropBlank text) = body at hblank ⊢
      subst hblank
      rfl

theorem combine_not_equal (htext : dropBlank text = '!' :: '=' :: rest) :
    combine .part level outer text = .error ⟨.emptyIdentifier, '!' :: '=' :: rest⟩ := by
  conv_lhs => rw [combine]
  split
  · next heq =>
    obtain ⟨-, rfl⟩ := List.cons.inj (htext.symm.trans heq)
    exact if_pos rfl
  · next heq => cases htext.symm.trans heq
  · next hnot _ => exact (hnot _ htext).elim

theorem combine_comparison_error {m : Misreading} (hnot : ∀ tail, dropBlank text ≠ '!' :: tail)
    (hopen : ∀ tail, dropBlank text ≠ '(' :: tail)
    (hread : comparison (dropBlank text) = .error m) :
    combine .part level outer text = .error m := by
  conv_lhs => rw [combine]
  split
  · next heq => exact (hnot _ heq).elim
  · next heq => exact (hopen _ heq).elim
  · split
    · next heq => exact heq.symm.trans hread
    · next heq => cases hread.symm.trans heq

theorem combine_result (hand : ∀ tail, dropBlank text ≠ '&' :: '&' :: tail)
    (hor : ∀ tail, dropBlank text ≠ '|' :: '|' :: tail) :
    combine .connective level outer text =
      match outer with
      | [] => .ok (level.result, dropBlank text)
      | enclosing :: outer =>
          match afterClose? (dropBlank text) with
          | some rest => combine .connective (enclosing.put level.result) outer rest
          | none => .error ⟨.expectedClose, dropBlank text⟩ := by
  conv_lhs => rw [combine]
  split
  · next heq => exact (hand _ heq).elim
  · next heq => exact (hor _ heq).elim
  · cases outer with
    | nil => rfl
    | cons enclosing outer =>
      simp only
      split
      · next heq => rw [heq]
      · next heq => rw [heq]

theorem combine_congr (hand : ∀ tail, dropBlank text ≠ '&' :: '&' :: tail)
    (hnext : level.nextAlternative = level'.nextAlternative) :
    combine .connective level outer text = combine .connective level' outer text := by
  by_cases hor : ∃ rest, dropBlank text = '|' :: '|' :: rest
  · obtain ⟨rest, hor⟩ := hor
    rw [combine_or hor, combine_or hor, hnext]
  · have hresult : level.result = level'.result :=
      congrArg (fun l : Level => Level.disjunction l.alternatives) hnext
    rw [not_exists] at hor
    rw [combine_result hand hor, combine_result hand hor, hresult]

end Levels

/-- Where a routine begins, the level is as far as what is above the routine has brought it. -/
def Fits : Routine → Level → List Char → Prop
  | .disjunction, level, _ => level = {}
  | .conjunction, level, _ => level.conjuncts = [] ∧ level.negations = 0
  | .negation, _, _ => True
  | .primary, _, text => ∀ rest, dropBlank text = '!' :: rest → rest.head? = some '='

def Stops : Routine → List Char → Prop
  | .disjunction, text =>
      (∀ rest, dropBlank text ≠ '&' :: '&' :: rest) ∧ ∀ rest, dropBlank text ≠ '|' :: '|' :: rest
  | .conjunction, text => ∀ rest, dropBlank text ≠ '&' :: '&' :: rest
  | _, _ => True

theorem stops_dropBlank {r : Routine} (h : Stops r text) : Stops r (dropBlank text) := by
  cases r with
  | disjunction => simpa only [Stops, dropBlank_dropBlank] using h
  | conjunction => simpa only [Stops, dropBlank_dropBlank] using h
  | negation => trivial
  | primary => trivial

namespace Joint

variable {j : Joint} {start level : Level} {outer : List Level} {reversed : List Condition}

def whole : Joint → Routine
  | .and => .conjunction
  | .or => .disjunction

def next : Joint → Level → Level
  | .and, level => level
  | .or, level => level.nextAlternative

def Holds : Joint → Level → Level → List Condition → Prop
  | .and, start, level, reversed => level = { start with conjuncts := reversed, negations := 0 }
  | .or, _, level, reversed => Level.conjunction level.conjuncts :: level.alternatives = reversed

theorem length_mark (j : Joint) : j.mark.toList.length = 2 := by
  cases j <;> rfl

theorem byteSize_mark (j : Joint) : byteSize j.mark.toList = 2 := by
  cases j <;> rfl

theorem combine_mark (htext : dropBlank text = j.mark.toList ++ rest) :
    combine .connective level outer text = combine .part (j.next level) outer rest := by
  cases j with
  | and => exact combine_and htext
  | or => exact combine_or htext

theorem fits_part (hfits : Fits j.whole start text) : Fits j.part start rest := by
  cases j with
  | and => trivial
  | or =>
      obtain rfl : start = {} := hfits
      exact ⟨rfl, rfl⟩

theorem fits_whole (hfits : Fits j.whole start text) : Fits j.whole start rest := by
  cases j <;> exact hfits

theorem fits_next : Fits j.part (j.next level) text := by
  cases j with
  | and => trivial
  | or => exact ⟨rfl, rfl⟩

theorem holds_first (hfits : Fits j.whole start text) (p : Condition) :
    j.Holds start (start.put p) [p] := by
  cases j with
  | and =>
      obtain ⟨hconjuncts, hnegations⟩ := hfits
      rw [Holds, Level.put, hconjuncts, hnegations]
      rfl
  | or =>
      obtain rfl : start = {} := hfits
      rfl

theorem Holds.put (h : j.Holds start level reversed) (p : Condition) :
    j.Holds start ((j.next level).put p) (p :: reversed) := by
  cases j with
  | and =>
      obtain rfl : level = _ := h
      rfl
  | or =>
      obtain rfl : _ = reversed := h
      rfl

theorem stops_whole (hpart : Stops j.part text)
    (hmark : ∀ rest, dropBlank text ≠ j.mark.toList ++ rest) : Stops j.whole text := by
  cases j with
  | and => exact hmark
  | or => exact ⟨hpart, hmark⟩

theorem Holds.combine_join (h : j.Holds start level reversed) (hfits : Fits j.whole start text)
    (hstops : Stops j.whole text) :
    combine .connective level outer text =
      combine .connective (start.put (j.join reversed)) outer text := by
  cases j with
  | and =>
      obtain ⟨hconjuncts, hnegations⟩ := hfits
      obtain rfl : level = _ := h
      refine combine_congr hstops ?_
      rw [Level.put, hconjuncts, hnegations]
      rfl
  | or =>
      obtain rfl : start = {} := hfits
      obtain rfl : _ = reversed := h
      rw [combine_result hstops.1 hstops.2, combine_result hstops.1 hstops.2]
      rfl

end Joint

def Routine.rank : Routine → Nat
  | .disjunction => 0
  | .conjunction => 1
  | .negation => 2
  | .primary => 3

namespace Cursor

variable {c c' : Cursor} {r : Routine}

/-- The calls that have not returned, of a routine and of those that it calls at its own place, began
before the place. -/
def Below (c : Cursor) (r : Routine) : Prop :=
  ∀ call ∈ c.calls, r.rank ≤ call.1.rank → call.2 < c.place

theorem Below.of_goes (h : c.Below r) (hgoes : c.Goes c') (hcalls : c'.calls = c.calls) :
    c'.Below r :=
  fun call hcall hrank => Nat.lt_of_lt_of_le (h call (hcalls ▸ hcall) hrank) hgoes.place

theorem Below.enter {r' : Routine} (h : c.Below r) (hrank : r.rank < r'.rank) :
    (c.enter r).Below r' := by
  refine List.forall_mem_cons.mpr ⟨fun hle => absurd hrank (Nat.not_lt.mpr hle), ?_⟩
  exact fun call hcall hle => h call hcall (hrank.le.trans hle)

namespace Stands

theorem below (h : c.Stands text) {width : Nat} (hwidth : 0 < width) (r : Routine) :
    (c.advance width).Below r :=
  fun call hcall _ => Nat.lt_of_le_of_lt (h.calls call hcall).2 (Nat.lt_add_of_pos_right hwidth)

theorem enter (h : c.Stands text) (hbelow : c.Below r) : (c.enter r).Stands text := by
  refine ⟨h.split, h.places, h.present, h.forward, List.forall_mem_append.mpr ⟨?_, h.turns⟩,
    List.forall_mem_cons.mpr ⟨⟨h.boundary, Nat.le_refl _⟩, h.calls⟩⟩
  intro turn hturn
  obtain ⟨call, hcall, rfl⟩ := List.mem_map.mp hturn
  obtain ⟨hcall, hsame⟩ := List.mem_filter.mp hcall
  have hrank : r.rank ≤ call.1.rank := by rw [beq_iff_eq.mp hsame]
  exact ⟨(h.calls call hcall).1, h.boundary, hbelow call hcall hrank⟩

theorem leave (h : c.Stands text) : c.leave.Stands text :=
  ⟨h.split, h.places, h.present, h.forward, h.turns,
    fun call hcall => h.calls call (List.mem_of_mem_tail hcall)⟩

end Stands

end Cursor

theorem call_follows {c : Cursor} {r : Routine} {reading : Reading Condition} (h : c.Stands text)
    (hbelow : c.Below r)
    (hbody : (c.enter r).Stands text → Follows (c.enter r) r.body reading) :
    Follows c r.call reading := by
  rw [Routine.call]
  have henter : (Scan.enter r).run.run c = some (.ok (), c.enter r) := rfl
  cases hbody (h.enter hbelow) with
  | @ok p rest c' hrun hgoes hcalls hstands =>
      have hgoes' : c.Goes c'.leave := ⟨hgoes.text, hgoes.place⟩
      have hcalls' : c'.leave.calls = c.calls := congrArg List.tail hcalls
      refine .ok ?_ hgoes' hcalls' hstands.leave
      rw [run_bind henter, run_bind hrun]
      rfl
  | error hrun hgoes hstands =>
      refine .error ?_ ⟨hgoes.text, hgoes.place⟩ hstands
      rw [run_bind henter, run_bind_error hrun]

theorem body_whole (j : Joint) : j.whole.body = j.parts := by
  cases j <;> rw [Joint.whole, Routine.body]

/-- What a routine reads at a text, and what the reader of lists makes of it. -/
structure Descends (r : Routine) (text : List Char) (reading : Reading Condition) : Prop where
  follows : ∀ c : Cursor, c.Stands text → c.Below r → Follows c r.call reading
  left : ∀ p rest, reading = .ok (p, rest) → rest.length < text.length ∧ Stops r rest
  combines : ∀ level outer, Fits r level text → combine .part level outer text =
    reading.bind fun (p, rest) => combine .connective (level.put p) outer rest

/-- The same where the reader goes on with parts of which some have been read, in reverse order. -/
structure Continues (j : Joint) (reversed : List Condition) (text : List Char)
    (reading : Reading Condition) : Prop where
  follows : ∀ c : Cursor, c.Stands text → Follows c (j.moreParts reversed) reading
  left : ∀ p rest, reading = .ok (p, rest) → rest.length ≤ text.length ∧ Stops j.whole rest
  combines : ∀ start level outer, Fits j.whole start text → j.Holds start level reversed →
    combine .connective level outer text =
      reading.bind fun (p, rest) => combine .connective (start.put p) outer rest

section Parts

variable {j : Joint} {reversed : List Condition} {p : Condition} {after : List Char}
  {reading : Reading Condition} {m : Misreading}

theorem continues_end (hblank : dropBlank text = text) (hstops : Stops j.part text)
    (hmark : ∀ rest, text ≠ j.mark.toList ++ rest) :
    Continues j reversed text (.ok (j.join reversed, text)) := by
  have hends : Stops j.whole text := Joint.stops_whole hstops (hblank.symm ▸ hmark)
  refine ⟨fun c h => ?_, ?_, fun start level outer hfits hholds => ?_⟩
  · rw [Joint.moreParts]
    exact .looks h (fun rest hrest => (hmark rest hrest).elim) fun _ => .pure h _
  · rintro p rest ⟨⟩
    exact ⟨Nat.le_refl _, hends⟩
  · exact hholds.combine_join hfits hends

theorem Descends.combine_mark (h : Descends j.part rest reading)
    (hblank : dropBlank text = j.mark.toList ++ rest) (level : Level) (outer : List Level) :
    combine .connective level outer text =
      reading.bind fun (p, rest) => combine .connective ((j.next level).put p) outer rest :=
  (Joint.combine_mark hblank).trans (h.combines _ outer Joint.fits_next)

theorem Descends.continues_error (hnext : Descends j.part rest (.error m))
    (htext : text = j.mark.toList ++ rest) (hblank : dropBlank text = text) :
    Continues j reversed text (.error m) := by
  refine ⟨fun c h => ?_, fun p rest heq => by contradiction, fun start level outer _ _ => ?_⟩
  · rw [Joint.moreParts]
    refine .looks h (fun rest' hrest => ?_) fun hno => (hno rest htext).elim
    obtain rfl := List.append_cancel_left (htext.symm.trans hrest)
    rw [htext] at h
    refine .look rfl (.move h j.byteSize_mark fun h₁ => .stop ?_)
    exact hnext.follows _ h₁ (h.below (by decide) _)
  · exact hnext.combine_mark (hblank.trans htext) level outer

theorem Descends.continues_ok (hnext : Descends j.part rest (.ok (p, after)))
    (htext : text = j.mark.toList ++ rest) (hblank : dropBlank text = text)
    (hmore : Continues j (p :: reversed) (dropBlank after) reading) :
    Continues j reversed text reading := by
  refine ⟨fun c h => ?_, fun q rest' heq => ?_, fun start level outer hfits hholds => ?_⟩
  · rw [Joint.moreParts]
    refine .looks h (fun rest' hrest => ?_) fun hno => (hno rest htext).elim
    obtain rfl := List.append_cancel_left (htext.symm.trans hrest)
    rw [htext] at h
    refine .look rfl (.move h j.byteSize_mark fun h₁ => ?_)
    refine .next (hnext.follows _ h₁ (h.below (by decide) _)) fun c₂ hgoes₂ _ h₂ => ?_
    refine .next (skipBlanks_follows h₂) fun c₃ hgoes₃ _ h₃ => .look rfl (.turn ?_)
    have hgoes := hgoes₂.trans hgoes₃
    have hstart : IsBoundary c₃.text c.place := hgoes.text ▸ h.boundary
    have hlt : c.place < c₃.place :=
      Nat.lt_of_lt_of_le (Nat.lt_add_of_pos_right (by decide)) hgoes.place
    exact hmore.follows _ (h₃.pass hstart h₃.boundary hlt)
  · have hleft := hmore.left q rest' heq
    have hlt := (hnext.left p after rfl).1
    have hblanks := length_dropBlank_le after
    have hmark : rest.length ≤ text.length := by
      rw [htext, List.length_append]
      exact Nat.le_add_left _ _
    exact ⟨by omega, hleft.2⟩
  · refine (hnext.combine_mark (hblank.trans htext) level outer).trans ?_
    refine (combine_dropBlank .connective).symm.trans ?_
    exact hmore.combines start _ outer (Joint.fits_whole hfits) (hholds.put p)

theorem exists_continues {n : Nat}
    (hparts : ∀ text, text.length < n → ∃ reading, Descends j.part text reading)
    (hlength : text.length ≤ n) (hblank : dropBlank text = text) (hstops : Stops j.part text)
    (reversed : List Condition) : ∃ reading, Continues j reversed text reading := by
  -- The induction is on the length of what is left, which each further part makes shorter.
  induction hm : text.length using Nat.strong_induction_on generalizing text reversed with
  | h m ih =>
  subst hm
  by_cases hmark : ∃ rest, text = j.mark.toList ++ rest
  · obtain ⟨rest, htext⟩ := hmark
    have hshorter : text.length = 2 + rest.length := by
      rw [htext, List.length_append, j.length_mark]
    obtain ⟨next, hnext⟩ := hparts rest (by omega)
    cases next with
    | error m => exact ⟨_, hnext.continues_error htext hblank⟩
    | ok read =>
        obtain ⟨p, after⟩ := read
        obtain ⟨hlt, hpart⟩ := hnext.left p after rfl
        have hblanks := length_dropBlank_le after
        obtain ⟨reading, hmore⟩ := ih (dropBlank after).length (by omega) (by omega)
          (dropBlank_dropBlank after) (stops_dropBlank hpart) (p :: reversed) rfl
        exact ⟨reading, hnext.continues_ok htext hblank hmore⟩
  · rw [not_exists] at hmark
    exact ⟨_, continues_end hblank hstops hmark⟩

theorem Joint.rank_lt (j : Joint) : j.whole.rank < j.part.rank := by
  cases j <;> decide

theorem Descends.whole_error (hfirst : Descends j.part text (.error m)) :
    Descends j.whole text (.error m) := by
  refine ⟨fun c h hbelow => call_follows h hbelow fun h' => ?_, fun p rest heq => by contradiction,
    fun level outer hfits => hfirst.combines level outer (Joint.fits_part hfits)⟩
  rw [body_whole, Joint.parts]
  exact .stop (hfirst.follows _ h' (hbelow.enter j.rank_lt))

theorem Descends.whole_ok (hfirst : Descends j.part text (.ok (p, after)))
    (hmore : Continues j [p] (dropBlank after) reading) : Descends j.whole text reading := by
  refine ⟨fun c h hbelow => call_follows h hbelow fun h' => ?_, fun q rest heq => ?_,
    fun level outer hfits => ?_⟩
  · rw [body_whole, Joint.parts]
    refine .next (hfirst.follows _ h' (hbelow.enter j.rank_lt)) fun c₂ _ _ h₂ => ?_
    exact .next (skipBlanks_follows h₂) fun c₃ _ _ h₃ => hmore.follows _ h₃
  · have hleft := hmore.left q rest heq
    have hlt := (hfirst.left p after rfl).1
    have hblanks := length_dropBlank_le after
    exact ⟨by omega, hleft.2⟩
  · refine (hfirst.combines level outer (Joint.fits_part hfits)).trans ?_
    refine (combine_dropBlank .connective).symm.trans ?_
    exact hmore.combines level _ outer (Joint.fits_whole hfits) (Joint.holds_first hfits p)

theorem exists_whole (hfirst : ∃ reading, Descends j.part text reading)
    (hparts : ∀ shorter, shorter.length < text.length →
      ∃ reading, Descends j.part shorter reading) : ∃ reading, Descends j.whole text reading := by
  obtain ⟨first, hfirst⟩ := hfirst
  cases first with
  | error m => exact ⟨_, hfirst.whole_error⟩
  | ok read =>
      obtain ⟨p, after⟩ := read
      obtain ⟨hlt, hpart⟩ := hfirst.left p after rfl
      have hblanks := length_dropBlank_le after
      obtain ⟨reading, hmore⟩ := exists_continues hparts (by omega) (dropBlank_dropBlank after)
        (stops_dropBlank hpart) [p]
      exact ⟨reading, hfirst.whole_ok hmore⟩

end Parts

def closed (p : Condition) (text : List Char) : Reading Condition :=
  match afterClose? (dropBlank text) with
  | some rest => .ok (p, rest)
  | none => .error ⟨.expectedClose, dropBlank text⟩

theorem afterClose?_eq_none (h : ∀ rest, text ≠ ')' :: rest) : afterClose? text = none := by
  unfold afterClose?
  split
  · next rest => exact (h rest rfl).elim
  · rfl

theorem closed_follows {c : Cursor} (h : c.Stands text) (p : Condition) :
    Follows c
      (do
        skipBlanks
        if (← peek) == some ')' then
          advance 1
          return p
        else refuse .expectedClose)
      (closed p text) := by
  refine .next (skipBlanks_follows h) fun c' _ _ h' => ?_
  rw [closed]
  refine .peeks h' (fun rest hclose => ?_) fun hclose => ?_
  · rw [hclose] at h' ⊢
    exact .move (w := [')']) h' rfl fun h'' => .pure h'' p
  · rw [afterClose?_eq_none hclose]
    exact .refuse h' _

theorem length_closed {p q : Condition} (h : closed p text = .ok (q, rest)) :
    rest.length < text.length := by
  have hblanks := length_dropBlank_le text
  unfold closed at h
  split at h
  · next after hafter =>
    obtain ⟨-, rfl⟩ := Prod.mk.inj (Except.ok.inj h)
    exact Nat.lt_of_lt_of_le (length_afterClose hafter) hblanks
  · contradiction

theorem combine_closed {level : Level} {outer : List Level} {p : Condition}
    (hstops : Stops .disjunction text) :
    combine .connective (Level.put {} p) (level :: outer) text =
      (closed p text).bind fun (q, rest) => combine .connective (level.put q) outer rest := by
  rw [combine_result hstops.1 hstops.2, closed]
  cases afterClose? (dropBlank text) with
  | some rest => rfl
  | none => rfl

theorem descends_parenthesized {inner : List Char} (htext : dropBlank text = '(' :: inner)
    {reading : Reading Condition} (hinner : Descends .disjunction inner reading) :
    Descends .primary text (reading.bind fun (p, rest) => closed p rest) := by
  have hblanks := length_dropBlank_le text
  rw [htext, List.length_cons] at hblanks
  refine ⟨fun c h hbelow => call_follows h hbelow fun h' => ?_, fun p after heq => ?_,
    fun level outer hfits => ?_⟩
  · rw [Routine.body]
    refine .next (skipBlanks_follows h') fun c₁ _ _ h₁ => ?_
    rw [htext] at h₁
    refine .peeks h₁ (fun inner' heq => ?_) fun hno => (hno inner rfl).elim
    obtain rfl := List.tail_eq_of_cons_eq heq
    refine .move (w := ['(']) h₁ rfl fun h₂ => ?_
    refine (hinner.follows _ h₂ (h₁.below (by decide) _)).bind fun p rest c₃ _ _ _ h₃ => ?_
    exact closed_follows h₃ p
  · cases reading with
    | error m => contradiction
    | ok read =>
        have hlt := (hinner.left read.1 read.2 rfl).1
        have hlt' := length_closed heq
        exact ⟨by omega, trivial⟩
  · rw [combine_open htext, hinner.combines {} (level :: outer) rfl]
    cases reading with
    | error m => rfl
    | ok read => exact combine_closed (hinner.left read.1 read.2 rfl).2

theorem comparison_exclamation (rest : List Char) :
    comparison ('!' :: rest) = .error ⟨.emptyIdentifier, '!' :: rest⟩ := by
  have hmark : isIdentifierChar '!' = false := isIdentifierChar_of_mark '!' (by decide)
  have hword : identifier ('!' :: rest) = .error ⟨.emptyIdentifier, '!' :: rest⟩ := by
    rw [identifier, List.takeWhile_cons_of_neg (by simp [hmark])]
    rfl
  have hoperand : operand ('!' :: rest) = .error ⟨.emptyIdentifier, '!' :: rest⟩ := by
    have hother : operand ('!' :: rest) = wordOperand ('!' :: rest) := by
      rw [operand, dropBlank_cons (by decide)]
      rfl
    rw [hother, wordOperand, hword]
    rfl
  rw [comparison, hoperand]
  rfl

theorem blankComparison_cases (text : List Char) :
    (∃ m, comparison text = .error m ∧ blankComparison text = .error m) ∨
      ∃ p rest rest', comparison text = .ok (p, rest) ∧ blankComparison text = .ok (p, rest') ∧
        (rest' = rest ∨ rest' = dropBlank rest) := by
  unfold comparison blankComparison
  cases operand text with
  | error m => exact .inl ⟨m, rfl, rfl⟩
  | ok read =>
      obtain ⟨left, rest⟩ := read
      simp only [bind, Except.bind]
      cases operator? (dropBlank rest) with
      | none => exact .inr ⟨_, _, _, rfl, rfl, .inr rfl⟩
      | some found =>
          obtain ⟨op, after⟩ := found
          simp only
          cases operand after with
          | error m => exact .inl ⟨m, rfl, rfl⟩
          | ok read => exact .inr ⟨_, _, _, rfl, rfl, .inl rfl⟩

theorem combine_comparison_bind {level : Level} {outer : List Level}
    (hfits : Fits .primary level text) (hopen : ∀ inner, dropBlank text ≠ '(' :: inner) :
    combine .part level outer text =
      (comparison (dropBlank text)).bind fun (p, rest) =>
        combine .connective (level.put p) outer rest := by
  by_cases hnot : ∃ rest, dropBlank text = '!' :: rest
  · obtain ⟨rest, hnot⟩ := hnot
    obtain ⟨after, rfl⟩ := List.head?_eq_some_iff.mp (hfits rest hnot)
    rw [combine_not_equal hnot, hnot, comparison_exclamation]
    rfl
  · rw [not_exists] at hnot
    cases hread : comparison (dropBlank text) with
    | error m => exact combine_comparison_error hnot hopen hread
    | ok read => exact combine_comparison hnot hopen hread

theorem descends_comparison (hopen : ∀ inner, dropBlank text ≠ '(' :: inner) :
    Descends .primary text (blankComparison (dropBlank text)) := by
  have hblanks := length_dropBlank_le text
  refine ⟨fun c h hbelow => call_follows h hbelow fun h' => ?_, fun p rest heq => ?_,
    fun level outer hfits => ?_⟩
  · rw [Routine.body]
    refine .next (skipBlanks_follows h') fun c₁ _ _ h₁ => ?_
    exact .peeks h₁ (fun inner heq => (hopen inner heq).elim) fun _ => comparison_follows h₁
  · obtain ⟨m, -, hread⟩ | ⟨q, after, rest', hread, hread', hrest⟩ :=
      blankComparison_cases (dropBlank text)
    · cases heq.symm.trans hread
    · obtain ⟨-, rfl⟩ := Prod.mk.inj (Except.ok.inj (hread'.symm.trans heq))
      have hlt := length_comparison hread
      have hafter := length_dropBlank_le after
      refine ⟨?_, trivial⟩
      obtain rfl | rfl := hrest <;> omega
  · rw [combine_comparison_bind hfits hopen]
    obtain ⟨m, hread, hread'⟩ | ⟨q, after, rest', hread, hread', hrest⟩ :=
      blankComparison_cases (dropBlank text)
    · rw [hread, hread']
    · rw [hread, hread']
      obtain rfl | rfl := hrest
      · rfl
      · exact (combine_dropBlank .connective).symm

theorem negates_iff (text : List Char) :
    (text.head? == some '!' && !("!=".toList.isPrefixOf text)) = true ↔
      ∃ rest, text = '!' :: rest ∧ rest.head? ≠ some '=' := by
  rw [Bool.and_eq_true, beq_iff_eq, Bool.not_eq_true']
  constructor
  · rintro ⟨hfirst, hmark⟩
    obtain ⟨rest, rfl⟩ := List.head?_eq_some_iff.mp hfirst
    refine ⟨rest, rfl, fun heq => ?_⟩
    obtain ⟨after, rfl⟩ := List.head?_eq_some_iff.mp heq
    exact Bool.false_ne_true (hmark.symm.trans (List.isPrefixOf_iff_prefix.mpr ⟨after, rfl⟩))
  · rintro ⟨rest, rfl, hrest⟩
    refine ⟨rfl, Bool.eq_false_iff.mpr fun hmark => ?_⟩
    obtain ⟨after, hafter⟩ := List.isPrefixOf_iff_prefix.mp hmark
    obtain rfl : '=' :: after = rest := List.tail_eq_of_cons_eq hafter
    exact hrest rfl

theorem descends_not (htext : dropBlank text = '!' :: rest) (hrest : rest.head? ≠ some '=')
    {reading : Reading Condition} (hnegation : Descends .negation rest reading) :
    Descends .negation text (reading.map fun (p, after) => (.not p, after)) := by
  have hblanks := length_dropBlank_le text
  rw [htext, List.length_cons] at hblanks
  refine ⟨fun c h hbelow => call_follows h hbelow fun h' => ?_, fun p after heq => ?_,
    fun level outer _ => ?_⟩
  · rw [Routine.body]
    refine .next (skipBlanks_follows h') fun c₁ _ _ h₁ => ?_
    refine .look (run_peek h₁) (.look (run_looksAt h₁ _) ?_)
    rw [if_pos ((negates_iff _).mpr ⟨rest, htext, hrest⟩)]
    rw [htext] at h₁
    refine .move (w := ['!']) h₁ rfl fun h₂ => ?_
    exact (hnegation.follows _ h₂ (h₁.below (by decide) _)).map _
  · cases reading with
    | error m => contradiction
    | ok read =>
        obtain ⟨-, rfl⟩ := Prod.mk.inj (Except.ok.inj heq)
        have hlt := (hnegation.left read.1 read.2 rfl).1
        exact ⟨by omega, trivial⟩
  · rw [combine_not htext hrest, hnegation.combines _ outer trivial]
    cases reading with
    | error m => rfl
    | ok read =>
        obtain ⟨p, after⟩ := read
        have hput : Level.put { level with negations := level.negations + 1 } p =
            level.put (.not p) := by
          rw [Level.put, Level.put, repeat_not]
          rfl
        simp only [Except.map, Except.bind, hput]

theorem descends_bare {reading : Reading Condition}
    (hnot : ∀ rest, dropBlank text = '!' :: rest → rest.head? = some '=')
    (hprimary : Descends .primary (dropBlank text) reading) : Descends .negation text reading := by
  have hblanks := length_dropBlank_le text
  refine ⟨fun c h hbelow => call_follows h hbelow fun h' => ?_, fun p after heq => ?_,
    fun level outer _ => ?_⟩
  · rw [Routine.body]
    refine .next (skipBlanks_follows h') fun c₁ hgoes hcalls h₁ => ?_
    refine .look (run_peek h₁) (.look (run_looksAt h₁ _) ?_)
    rw [if_neg fun hneg => ?_]
    · exact hprimary.follows _ h₁ ((hbelow.enter (by decide)).of_goes hgoes hcalls)
    · obtain ⟨rest, htext, hrest⟩ := (negates_iff _).mp hneg
      exact hrest (hnot rest htext)
  · exact ⟨Nat.lt_of_lt_of_le (hprimary.left p after heq).1 hblanks, trivial⟩
  · rw [← combine_dropBlank .part]
    refine hprimary.combines level outer fun rest heq => hnot rest ?_
    rwa [dropBlank_dropBlank] at heq

theorem exists_primary (hdisjunctions : ∀ shorter, shorter.length < text.length →
    ∃ reading, Descends .disjunction shorter reading) :
    ∃ reading, Descends .primary text reading := by
  by_cases hopen : ∃ inner, dropBlank text = '(' :: inner
  · obtain ⟨inner, hopen⟩ := hopen
    have hblanks := length_dropBlank_le text
    rw [hopen, List.length_cons] at hblanks
    obtain ⟨reading, hinner⟩ := hdisjunctions inner hblanks
    exact ⟨_, descends_parenthesized hopen hinner⟩
  · rw [not_exists] at hopen
    exact ⟨_, descends_comparison hopen⟩

theorem exists_negation (hnegations : ∀ shorter, shorter.length < text.length →
    ∃ reading, Descends .negation shorter reading)
    (hprimary : ∃ reading, Descends .primary (dropBlank text) reading) :
    ∃ reading, Descends .negation text reading := by
  by_cases hnot : ∃ rest, dropBlank text = '!' :: rest ∧ rest.head? ≠ some '='
  · obtain ⟨rest, htext, hrest⟩ := hnot
    have hblanks := length_dropBlank_le text
    rw [htext, List.length_cons] at hblanks
    obtain ⟨reading, hinner⟩ := hnegations rest hblanks
    exact ⟨_, descends_not htext hrest hinner⟩
  · obtain ⟨reading, hread⟩ := hprimary
    refine ⟨reading, descends_bare (fun rest htext => ?_) hread⟩
    by_contra hrest
    exact hnot ⟨rest, htext, hrest⟩

theorem exists_descends (r : Routine) (text : List Char) :
    ∃ reading, Descends r text reading := by
  induction hm : text.length using Nat.strong_induction_on generalizing r text with
  | h m ih =>
  subst hm
  have hshorter (r : Routine) (shorter : List Char) (hlt : shorter.length < text.length) :
      ∃ reading, Descends r shorter reading := ih _ hlt r shorter rfl
  have hprimary (text' : List Char) (hle : text'.length ≤ text.length) :
      ∃ reading, Descends .primary text' reading :=
    exists_primary fun shorter hlt => hshorter .disjunction shorter (by omega)
  have hnegation : ∃ reading, Descends .negation text reading :=
    exists_negation (hshorter .negation) (hprimary _ (length_dropBlank_le text))
  have hconjunction : ∃ reading, Descends .conjunction text reading :=
    exists_whole (j := .and) hnegation (hshorter .negation)
  cases r with
  | disjunction => exact exists_whole (j := .or) hconjunction (hshorter .conjunction)
  | conjunction => exact hconjunction
  | negation => exact hnegation
  | primary => exact hprimary text (Nat.le_refl _)

def finished (p : Condition) (text : List Char) : Reading Condition :=
  if text.isEmpty then .ok (p, text) else .error ⟨.trailing (String.ofList text), text⟩

theorem condition_follows {c : Cursor} (h : c.Stands text) (hcalls : c.calls = []) :
    Follows c Scan.condition
      ((combine .part {} [] text).bind fun (p, rest) => finished p rest) := by
  obtain ⟨reading, hread⟩ := exists_descends .disjunction text
  have hbelow : c.Below .disjunction := by
    rw [Cursor.Below, hcalls]
    exact List.forall_mem_nil _
  have hfollows := hread.follows c h hbelow
  rw [hread.combines {} [] rfl, Scan.condition]
  cases reading with
  | error m => exact .stop hfollows
  | ok read =>
      obtain ⟨p, rest⟩ := read
      obtain ⟨hand, hor⟩ := (hread.left p rest rfl).2
      have hend : combine .connective (Level.put {} p) [] rest = .ok (p, dropBlank rest) :=
        combine_result hand hor
      simp only [Except.bind, hend]
      refine .next hfollows fun c₁ _ _ h₁ => .next (skipBlanks_follows h₁) fun c₂ _ _ h₂ => ?_
      have hsize := h₂.byteSize_eq
      refine .look rfl ?_
      cases hrest : dropBlank rest with
      | nil =>
          rw [hrest] at h₂ hsize
          rw [if_neg (by rw [hsize]; exact Nat.lt_irrefl _)]
          exact .pure h₂ p
      | cons d more =>
          rw [hrest] at h₂ hsize
          have hpos := byteSize_pos d more
          rw [if_pos (by omega)]
          exact .look (run_remaining h₂) (.refuse h₂ _)

theorem parse_eq (text : String) (hfull : (trimChars text.toList).isEmpty = false) :
    parse text =
      match (combine .part {} [] (trimChars text.toList)).bind fun (p, rest) => finished p rest with
      | .ok (p, _) => .ok p
      | .error m => .error (.misread (trim text)
          (byteSize (trimChars text.toList) - byteSize m.rest) m.fault) := by
  rw [parse, hfull]
  simp only [trim]
  rcases combine .part {} [] (trimChars text.toList) with m | ⟨p, _ | ⟨d, rest⟩⟩
  · rfl
  · rfl
  · rfl

theorem stands_start (text : List Char) : ({ text } : Cursor).Stands text := by
  have hzero : IsBoundary text 0 := ⟨[], text, rfl, rfl⟩
  refine ⟨⟨[], rfl, rfl⟩, ?_, List.mem_singleton_self 0, List.pairwise_singleton _ _, ?_, ?_⟩
  · exact List.forall_mem_singleton.mpr ⟨hzero, Nat.le_refl 0⟩
  · exact List.forall_mem_nil _
  · exact List.forall_mem_nil _

/-- Reading a text comes to an end, at a cursor of which the way is in order, and what comes out is what
the reader of lists gives. -/
theorem exists_scan (text : String) :
    ∃ c : Cursor, ∃ rest, c.Stands rest ∧ c.text = trimChars text.toList ∧
      scan text =
        some ((parse text).mapError fun fault => .refused (.definition (.condition fault)), c) ∧
      ∀ shown offset fault, parse text = .error (.misread shown offset fault) →
        shown = trim text ∧ offset = c.place := by
  have hstart := stands_start (trimChars text.toList)
  cases hempty : (trimChars text.toList).isEmpty with
  | true =>
      have hparse : parse text = .error .empty := by
        rw [parse, hempty]
        rfl
      refine ⟨_, _, hstart, rfl, ?_, fun shown offset fault h => ?_⟩
      · rw [scan, hempty, hparse]
        rfl
      · cases hparse.symm.trans h
  | false =>
      have hparse := parse_eq text hempty
      have hscan : scan text = Scan.condition.run.run { text := trimChars text.toList } := by
        rw [scan, hempty]
        rfl
      have hfollows := condition_follows hstart rfl
      generalize (combine .part {} [] (trimChars text.toList)).bind
        (fun (p, rest) => finished p rest) = reading at hparse hfollows
      cases hfollows with
      | @ok p rest c' hrun hgoes _ hstands =>
          refine ⟨c', rest, hstands, hgoes.text, ?_, fun shown offset fault h => ?_⟩
          · rw [hscan, hrun, hparse]
            rfl
          · cases hparse.symm.trans h
      | @error fault rest c' hrun hgoes hstands =>
          have htext : c'.text = trimChars text.toList := hgoes.text
          have hoffset : byteSize (trimChars text.toList) - byteSize rest = c'.place := by
            rw [← htext, hstands.byteSize_eq, Nat.add_sub_cancel]
          simp only [hoffset] at hparse
          refine ⟨c', rest, hstands, htext, ?_, fun shown offset fault h => ?_⟩
          · rw [hscan, hrun, hparse, Cursor.refusal, htext]
            rfl
          · cases hparse.symm.trans h
            exact ⟨rfl, rfl⟩

/-- Whatever the text is, it is read to an end, and a condition or a fault of the definition is what
comes out. All places on the way are boundaries of characters of the trimmed text, in the order in
which they stand there, so that the text is never cut inside of a character; each pass of a loop and
each call of a routine within a call of itself goes on by some characters; and the offset of a fault is
the place at which it is noticed. -/
theorem parse_safe (text : String) :
    ∃ c : Cursor, c.text = trimChars text.toList ∧
      scan text =
        some ((parse text).mapError fun fault => .refused (.definition (.condition fault)), c) ∧
      (∀ n ∈ c.places, IsBoundary c.text n ∧ n ≤ byteSize c.text) ∧
      c.places.Pairwise (· ≥ ·) ∧
      (∀ turn ∈ c.turns,
        IsBoundary c.text turn.1 ∧ IsBoundary c.text turn.2 ∧ turn.1 < turn.2) ∧
      ∀ shown offset fault, parse text = .error (.misread shown offset fault) →
        shown = trim text ∧ offset = c.place ∧ offset ∈ c.places := by
  obtain ⟨c, rest, hstands, htext, hscan, hfault⟩ := exists_scan text
  refine ⟨c, htext, hscan, fun n hn => ?_, hstands.forward, hstands.turns,
    fun shown offset fault h => ?_⟩
  · have hboundary := (hstands.places n hn).1
    exact ⟨hboundary, hboundary.le⟩
  · obtain ⟨hshown, rfl⟩ := hfault shown offset fault h
    exact ⟨hshown, rfl, hstands.present⟩

end TraceAutomata.Condition
