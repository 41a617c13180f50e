import TraceAutomata.Proofs.Condition.Cursor
import TraceAutomata.Proofs.Condition.Spelling

namespace TraceAutomata.Condition

open Text

variable {α β : Type} {text rest : List Char}

/-- A character of the text begins after so many bytes, or the text ends. -/
def IsBoundary (text : List Char) (n : Nat) : Prop :=
  ∃ before after, text = before ++ after ∧ n = byteSize before

theorem byteSize_append (front back : List Char) :
    byteSize (front ++ back) = byteSize front + byteSize back := by
  induction front with
  | nil => rw [List.nil_append, byteSize, Nat.zero_add]
  | cons c front ih => rw [List.cons_append, byteSize, byteSize, ih, Nat.add_assoc]

theorem byteSize_pos (c : Char) (text : List Char) : 0 < byteSize (c :: text) :=
  Nat.add_pos_left (Char.utf8Size_pos c) _

theorem IsBoundary.le {n : Nat} (h : IsBoundary text n) : n ≤ byteSize text := by
  obtain ⟨before, after, rfl, rfl⟩ := h
  rw [byteSize_append]
  exact Nat.le_add_right _ _

theorem splitBytes?_append (front back : List Char) :
    splitBytes? (front ++ back) (byteSize front) = some (front, back) := by
  induction front with
  | nil => cases back <;> rfl
  | cons c front ih =>
      obtain ⟨n, hn⟩ := Nat.exists_eq_add_one.mpr (byteSize_pos c front)
      have hsize : n + 1 = c.utf8Size + byteSize front := hn.symm
      rw [hn, List.cons_append, splitBytes?, if_pos (by omega), hsize, Nat.add_sub_cancel_left, ih]
      rfl

example : splitBytes? ['é', 'a'] 2 = some (['é'], ['a']) ∧ splitBytes? ['é', 'a'] 1 = none := by
  decide

namespace Cursor

/-- The way to the place is in order, and the text from the place on is known. -/
structure Stands (c : Cursor) (rest : List Char) : Prop where
  split : ∃ before, c.text = before ++ rest ∧ c.place = byteSize before
  places : ∀ n ∈ c.places, IsBoundary c.text n ∧ n ≤ c.place
  present : c.place ∈ c.places
  forward : c.places.Pairwise (· ≥ ·)
  turns : ∀ turn ∈ c.turns,
    IsBoundary c.text turn.1 ∧ IsBoundary c.text turn.2 ∧ turn.1 < turn.2
  calls : ∀ call ∈ c.calls, IsBoundary c.text call.2 ∧ call.2 ≤ c.place

/-- The way from one cursor to another leads onwards in the same text. -/
structure Goes (c c' : Cursor) : Prop where
  text : c'.text = c.text
  place : c.place ≤ c'.place

theorem Goes.refl (c : Cursor) : c.Goes c := ⟨rfl, Nat.le_refl _⟩

theorem Goes.trans {c c' c'' : Cursor} (h : c.Goes c') (h' : c'.Goes c'') : c.Goes c'' :=
  ⟨h'.text.trans h.text, h.place.trans h'.place⟩

theorem goes_advance (c : Cursor) (width : Nat) : c.Goes (c.advance width) :=
  ⟨rfl, Nat.le_add_right _ _⟩

namespace Stands

variable {c c' : Cursor}

theorem boundary (h : c.Stands text) : IsBoundary c.text c.place := by
  obtain ⟨before, htext, hplace⟩ := h.split
  exact ⟨before, text, htext, hplace⟩

theorem remaining? (h : c.Stands text) : c.remaining? = some text := by
  obtain ⟨before, htext, hplace⟩ := h.split
  rw [Cursor.remaining?, htext, hplace, splitBytes?_append]
  rfl

theorem byteSize_eq (h : c.Stands text) : byteSize c.text = c.place + byteSize text := by
  obtain ⟨before, htext, hplace⟩ := h.split
  rw [htext, byteSize_append, hplace]

theorem advance {word : List Char} (h : c.Stands (word ++ rest)) :
    (c.advance (byteSize word)).Stands rest := by
  obtain ⟨before, htext, hplace⟩ := h.split
  have htext' : c.text = (before ++ word) ++ rest := by rw [htext, List.append_assoc]
  have hplace' : c.place + byteSize word = byteSize (before ++ word) := by
    rw [hplace, byteSize_append]
  have hle : c.place ≤ c.place + byteSize word := Nat.le_add_right _ _
  refine ⟨⟨_, htext', hplace'⟩, List.forall_mem_cons.mpr ⟨⟨⟨_, _, htext', hplace'⟩, le_rfl⟩, ?_⟩,
    List.mem_cons_self, List.pairwise_cons.mpr ⟨?_, h.forward⟩, h.turns, ?_⟩
  · exact fun n hn => ⟨(h.places n hn).1, (h.places n hn).2.trans hle⟩
  · exact fun n hn => (h.places n hn).2.trans hle
  · exact fun call hcall => ⟨(h.calls call hcall).1, (h.calls call hcall).2.trans hle⟩

theorem span (h : c.Stands text) (p : Char → Bool) :
    c.Stands (text.takeWhile p ++ text.dropWhile p) := by
  rwa [List.takeWhile_append_dropWhile]

theorem slice? {word : List Char} (h : c.Stands (word ++ rest)) (h' : c'.Stands rest)
    (hgoes : c.Goes c') : c'.slice? c.place c'.place = some word := by
  obtain ⟨before, htext, hplace⟩ := h.split
  have hwidth : c'.place - c.place = byteSize word := by
    have hsize := h.byteSize_eq
    have hsize' := h'.byteSize_eq
    rw [byteSize_append] at hsize
    rw [hgoes.text] at hsize'
    omega
  rw [Cursor.slice?, if_pos hgoes.place, hgoes.text, hwidth, htext, hplace, splitBytes?_append]
  simp only [Option.bind_some, splitBytes?_append, Option.map_some]

theorem pass (h : c.Stands text) {start stop : Nat} (hstart : IsBoundary c.text start)
    (hstop : IsBoundary c.text stop) (hlt : start < stop) : (c.pass start stop).Stands text :=
  ⟨h.split, h.places, h.present, h.forward,
    List.forall_mem_cons.mpr ⟨⟨hstart, hstop, hlt⟩, h.turns⟩, h.calls⟩

end Stands

end Cursor

/-- The reader that goes place by place comes to an end with the same, where what is left begins. -/
inductive Follows (c : Cursor) (m : Scan α) : Reading α → Prop
  | ok {a : α} {rest : List Char} {c' : Cursor} (hrun : m.run.run c = some (.ok a, c'))
      (hgoes : c.Goes c') (hcalls : c'.calls = c.calls) (hstands : c'.Stands rest) :
      Follows c m (.ok (a, rest))
  | error {fault : SyntaxFault} {rest : List Char} {c' : Cursor}
      (hrun : m.run.run c = some (.error (c'.refusal fault), c')) (hgoes : c.Goes c')
      (hstands : c'.Stands rest) : Follows c m (.error ⟨fault, rest⟩)

namespace Scan

variable {c c' : Cursor} {m : Scan α} {a : α}

theorem run_bind (h : m.run.run c = some (.ok a, c')) (f : α → Scan β) :
    (m >>= f).run.run c = (f a).run.run c' := by
  simp only [ExceptT.run_bind, StateT.run_bind, h]
  rfl

theorem run_bind_error {e : Halt} (h : m.run.run c = some (.error e, c')) (f : α → Scan β) :
    (m >>= f).run.run c = some (.error e, c') := by
  simp only [ExceptT.run_bind, StateT.run_bind, h]
  rfl

theorem run_remaining (h : c.Stands text) : remaining.run.run c = some (.ok text, c) := by
  have hget : (get : Scan Cursor).run.run c = some (.ok c, c) := rfl
  rw [remaining, run_bind hget, h.remaining?]
  rfl

theorem run_peek (h : c.Stands text) : peek.run.run c = some (.ok text.head?, c) := by
  rw [peek, run_bind (run_remaining h)]
  rfl

theorem run_looksAt (h : c.Stands text) (mark : String) :
    (looksAt mark).run.run c = some (.ok (mark.toList.isPrefixOf text), c) := by
  rw [looksAt, run_bind (run_remaining h)]
  rfl

theorem run_slice {word : List Char} (h : c.Stands (word ++ rest)) (h' : c'.Stands rest)
    (hgoes : c.Goes c') : (slice c.place c'.place).run.run c' = some (.ok word, c') := by
  have hget : (get : Scan Cursor).run.run c' = some (.ok c', c') := rfl
  rw [slice, run_bind hget, h.slice? h' hgoes]
  rfl

end Scan

namespace Follows

variable {c c' : Cursor} {m : Scan α} {f : α → Scan β} {a : α} {r : Reading β}

theorem step (hrun : m.run.run c = some (.ok a, c')) (hgoes : c.Goes c')
    (hcalls : c'.calls = c.calls) (h : Follows c' (f a) r) : Follows c (m >>= f) r := by
  cases h with
  | ok hrun' hgoes' hcalls' hstands =>
      exact .ok ((Scan.run_bind hrun f).trans hrun') (hgoes.trans hgoes') (hcalls'.trans hcalls)
        hstands
  | error hrun' hgoes' hstands =>
      exact .error ((Scan.run_bind hrun f).trans hrun') (hgoes.trans hgoes') hstands

theorem look (hrun : m.run.run c = some (.ok a, c)) (h : Follows c (f a) r) :
    Follows c (m >>= f) r :=
  .step hrun (.refl c) rfl h

theorem next (h : Follows c m (.ok (a, rest)))
    (hnext : ∀ c', c.Goes c' → c'.calls = c.calls → c'.Stands rest → Follows c' (f a) r) :
    Follows c (m >>= f) r := by
  cases h with
  | ok hrun hgoes hcalls hstands => exact .step hrun hgoes hcalls (hnext _ hgoes hcalls hstands)

theorem stop {e : Misreading} (h : Follows c m (.error e)) : Follows c (m >>= f) (.error e) := by
  cases h with
  | error hrun hgoes hstands => exact .error (Scan.run_bind_error hrun f) hgoes hstands

theorem bind {r : Reading α} {next : α × List Char → Reading β} (h : Follows c m r)
    (hnext : ∀ a rest c', r = .ok (a, rest) → c.Goes c' → c'.calls = c.calls → c'.Stands rest →
      Follows c' (f a) (next (a, rest))) : Follows c (m >>= f) (r.bind next) := by
  cases h with
  | ok hrun hgoes hcalls hstands =>
      exact .step hrun hgoes hcalls (hnext _ _ _ rfl hgoes hcalls hstands)
  | error hrun hgoes hstands => exact .error (Scan.run_bind_error hrun f) hgoes hstands

theorem map {r : Reading α} (h : Follows c m r) (g : α → β) :
    Follows c (do return g (← m)) (r.map fun (a, after) => (g a, after)) :=
  h.bind fun _ _ _ _ _ _ hstands => .ok rfl (.refl _) rfl hstands

theorem move {f : Unit → Scan β} {w : List Char} {width : Nat} (h : c.Stands (w ++ rest))
    (hwidth : byteSize w = width)
    (hnext : (c.advance width).Stands rest → Follows (c.advance width) (f ()) r) :
    Follows c (Scan.advance width >>= f) r :=
  .step rfl (c.goes_advance width) rfl (hnext (hwidth ▸ h.advance))

theorem turn {f : Unit → Scan β} {start stop : Nat} (h : Follows (c.pass start stop) (f ()) r) :
    Follows c (Scan.pass start stop >>= f) r :=
  .step rfl ⟨rfl, Nat.le_refl _⟩ rfl h

theorem peeks {d : Char} {m m' : Scan β} (h : c.Stands text)
    (hyes : ∀ rest, text = d :: rest → Follows c m r)
    (hno : (∀ rest, text ≠ d :: rest) → Follows c m' r) :
    Follows c (Scan.peek >>= fun first => if first == some d then m else m') r := by
  refine .look (Scan.run_peek h) ?_
  by_cases hfirst : text.head? = some d
  · obtain ⟨rest, htext⟩ := List.head?_eq_some_iff.mp hfirst
    rw [if_pos (beq_iff_eq.mpr hfirst)]
    exact hyes rest htext
  · rw [if_neg (fun hbeq => hfirst (beq_iff_eq.mp hbeq))]
    exact hno fun rest htext => hfirst (htext ▸ rfl)

theorem looks {mark : String} {m m' : Scan β} (h : c.Stands text)
    (hyes : ∀ rest, text = mark.toList ++ rest → Follows c m r)
    (hno : (∀ rest, text ≠ mark.toList ++ rest) → Follows c m' r) :
    Follows c (Scan.looksAt mark >>= fun found => if found then m else m') r := by
  refine .look (Scan.run_looksAt h mark) ?_
  cases hmark : mark.toList.isPrefixOf text with
  | true =>
      obtain ⟨rest, hrest⟩ := List.isPrefixOf_iff_prefix.mp hmark
      exact hyes rest hrest.symm
  | false =>
      refine hno fun rest htext => ?_
      have hprefix := List.isPrefixOf_iff_prefix.mpr ⟨rest, htext.symm⟩
      exact Bool.false_ne_true (hmark.symm.trans hprefix)

theorem pure (h : c.Stands text) (a : α) : Follows c (pure a) (.ok (a, text)) :=
  .ok rfl (.refl c) rfl h

theorem refuse (h : c.Stands text) (fault : SyntaxFault) :
    Follows c (Scan.refuse fault : Scan α) (.error ⟨fault, text⟩) :=
  .error rfl (.refl c) h

end Follows

open Scan

variable {c : Cursor}

theorem skip_follows {k : CharClass} (hwidth : ∀ d, k.mem d = true → k.width d = d.utf8Size)
    (h : c.Stands text) : Follows c k.skip (.ok ((), text.dropWhile k.mem)) := by
  induction text generalizing c with
  | nil =>
      rw [CharClass.skip]
      exact .look (run_peek h) (.pure h ())
  | cons d text ih =>
      rw [CharClass.skip]
      refine .look (run_peek h) ?_
      simp only [List.head?_cons]
      cases hmem : k.mem d with
      | false =>
          rw [List.dropWhile_cons_of_neg (by simp [hmem])]
          exact .pure h ()
      | true =>
          rw [if_pos rfl, List.dropWhile_cons_of_pos hmem, hwidth d hmem]
          refine .look rfl (.move (w := [d]) h rfl fun h' => .look rfl (.turn (ih ?_)))
          exact h'.pass h.boundary h'.boundary (Nat.lt_add_of_pos_right (Char.utf8Size_pos d))

theorem skipBlanks_follows (h : c.Stands text) :
    Follows c skipBlanks (.ok ((), dropBlank text)) :=
  skip_follows (k := { mem := isBlank }) (fun _ _ => rfl) h

theorem utf8Size_of_isDigit {d : Char} (hd : d.isDigit = true) : d.utf8Size = 1 := by
  simp only [Char.isDigit, Bool.and_eq_true, decide_eq_true_eq] at hd
  exact Char.utf8Size_eq_one_iff.mpr (Nat.le_trans (m := 57) hd.2 (by decide))

theorem skipDigits_follows (h : c.Stands text) :
    Follows c skipDigits (.ok ((), text.dropWhile Char.isDigit)) :=
  skip_follows (k := { mem := Char.isDigit, width := fun _ => 1 })
    (fun _ hd => (utf8Size_of_isDigit hd).symm) h

theorem identifier_follows (h : c.Stands text) :
    Follows c Scan.identifier (Condition.identifier text) := by
  rw [Scan.identifier]
  refine .look rfl (.next (skip_follows (fun _ _ => rfl) h) fun c' hgoes _ h' => ?_)
  refine .look rfl (.look (run_slice (h.span isIdentifierChar) h' hgoes) ?_)
  rw [Condition.identifier]
  cases hempty : (text.takeWhile isIdentifierChar).isEmpty with
  | false => exact .pure h' _
  | true =>
      have hnil := List.isEmpty_iff.mp hempty
      have hrest : text.dropWhile isIdentifierChar = text := by
        have happ := List.takeWhile_append_dropWhile (p := isIdentifierChar) (l := text)
        rwa [hnil, List.nil_append] at happ
      rw [hrest] at h'
      exact .refuse h' _

/-- The string that is read where its first characters have been read, in reverse order. -/
def stringReading (text read : List Char) (body : Option (List Char × List Char)) :
    Reading Value :=
  match body with
  | some (s, after) => .ok (.string (String.ofList (read.reverse ++ s)), after)
  | none => .error ⟨.unterminatedString, text⟩

theorem stringReading_cons (text read : List Char) (d : Char)
    (body : Option (List Char × List Char)) :
    stringReading text read (body.map fun (s, after) => (d :: s, after)) =
      stringReading text (d :: read) body := by
  rcases body with _ | ⟨s, after⟩
  · rfl
  · rw [Option.map_some, stringReading, stringReading, List.reverse_cons, List.append_assoc]
    rfl

theorem pass_follows {front w : List Char} {f : Unit → Scan α} {r : Reading α} (hne : w ≠ [])
    (h : c.Stands (front ++ w ++ rest))
    (hnext : ∀ c' : Cursor, c'.place = c.place → c'.Stands (front ++ w ++ rest) →
      Follows c' (f ()) r) :
    Follows c (pass (c.place + byteSize front) (c.place + byteSize (front ++ w)) >>= f) r := by
  have hstart : (c.advance (byteSize front)).Stands (w ++ rest) :=
    .advance (List.append_assoc front w rest ▸ h)
  refine .turn (hnext _ rfl (h.pass hstart.boundary h.advance.boundary ?_))
  obtain ⟨d, w, rfl⟩ := List.exists_cons_of_ne_nil hne
  rw [byteSize_append, ← Nat.add_assoc]
  exact Nat.lt_add_of_pos_right (byteSize_pos d w)

theorem stringRest_follows {front read : List Char} (h : c.Stands (front ++ text)) :
    Follows c (stringRest c.place (byteSize front) read text)
      (stringReading (front ++ text) read (stringBody? text)) := by
  fun_induction stringBody? text generalizing c front read with
  | case1 => exact .refuse h _
  | case2 after =>
      have hsplit : front ++ '"' :: after = (front ++ ['"']) ++ after := by simp
      rw [stringRest, stringReading, List.append_nil]
      exact .move (hsplit ▸ h) (byteSize_append front ['"']) fun h' => .pure h' _
  | case3 =>
      have hsize : byteSize front + 1 = byteSize (front ++ ['\\']) :=
        (byteSize_append front ['\\']).symm
      have hsplit : front ++ ['\\'] = front ++ ['\\'] ++ [] := (List.append_nil _).symm
      rw [stringRest, hsplit, hsize]
      exact pass_follows (by simp) (hsplit ▸ h) fun c' _ h' => .refuse h' _
  | case4 d after ih =>
      have hsize : byteSize front + 1 + d.utf8Size = byteSize (front ++ ['\\', d]) := by
        rw [byteSize_append, Nat.add_assoc]
        rfl
      have hsplit : front ++ '\\' :: d :: after = front ++ ['\\', d] ++ after := by simp
      rw [stringRest, stringReading_cons, hsize, hsplit]
      refine pass_follows (by simp) (hsplit ▸ h) fun c' hplace h' => ?_
      rw [← hplace]
      exact ih h'
  | case5 d after hquote hlast hescape ih =>
      have hsize : byteSize front + d.utf8Size = byteSize (front ++ [d]) :=
        (byteSize_append front [d]).symm
      have hsplit : front ++ d :: after = front ++ [d] ++ after := by simp
      rw [stringRest, stringReading_cons, hsize, hsplit]
      · refine pass_follows (by simp) (hsplit ▸ h) fun c' hplace h' => ?_
        rw [← hplace]
        exact ih h'
      · exact hquote
      · exact hlast
      · exact hescape

theorem splitSign_append (text : List Char) :
    (splitSign text).1 ++ (splitSign text).2 = text := by
  unfold splitSign
  split <;> rfl

theorem skipSign_follows (h : c.Stands text) :
    Follows c skipSign (.ok ((), (splitSign text).2)) := by
  refine .peeks h ?_ fun hsign => ?_
  · rintro rest rfl
    exact .move (w := ['-']) h rfl fun h' => .pure h' ()
  · have hall : splitSign text = ([], text) := by
      unfold splitSign
      split
      · exact (hsign _ rfl).elim
      · rfl
    rw [hall]
    exact .pure h ()

theorem number_follows (h : c.Stands text) : Follows c Scan.number (Condition.number text) := by
  have hwhole : c.Stands ((splitSign text).1 ++ (splitSign text).2.takeWhile Char.isDigit ++
      (splitSign text).2.dropWhile Char.isDigit) := by
    rwa [List.append_assoc, List.takeWhile_append_dropWhile, splitSign_append]
  rw [Scan.number]
  refine .look rfl (.next (skipSign_follows h) fun c₁ hsign _ h₁ => ?_)
  refine .next (skipDigits_follows h₁) fun c₂ hdigits _ h₂ => ?_
  rw [Condition.number]
  simp only
  generalize (splitSign text).1 ++ (splitSign text).2.takeWhile Char.isDigit = whole at *
  generalize (splitSign text).2.dropWhile Char.isDigit = more at *
  refine .peeks h₂ ?_ fun hpoint => ?_
  · rintro after rfl
    refine .move (w := ['.']) h₂ rfl fun h₃ => ?_
    refine .next (skipDigits_follows h₃) fun c₄ hmore _ h₄ => .look rfl ?_
    have hlexeme : c.Stands (whole ++ '.' :: after.takeWhile Char.isDigit ++
        after.dropWhile Char.isDigit) := by
      rw [List.append_assoc, List.cons_append, List.takeWhile_append_dropWhile]
      exact hwhole
    refine .look (run_slice hlexeme h₄ ?_) ?_
    · exact ((hsign.trans hdigits).trans (c₂.goes_advance 1)).trans hmore
    · simp only
      cases Decimal.ofChars? (whole ++ '.' :: after.takeWhile Char.isDigit) with
      | some d => exact .pure h₄ _
      | none => exact .refuse h₄ _
  · split
    · next after => exact (hpoint after rfl).elim
    · refine .look rfl (.look (run_slice hwhole h₂ (hsign.trans hdigits)) ?_)
      cases Number.int64OfText? whole with
      | some n => exact .pure h₂ _
      | none => exact .refuse h₂ _

theorem queryPath_follows (h : c.Stands text) :
    Follows c Scan.queryPath (Condition.queryPath text) := by
  rw [Scan.queryPath]
  refine .next (skipBlanks_follows h) fun c₁ _ _ h₁ => ?_
  rw [Condition.queryPath]
  generalize dropBlank text = body at *
  refine .peeks h₁ ?_ fun hopen => ?_
  · rintro inner rfl
    refine .move (w := ['(']) h₁ rfl fun h₂ => .look rfl ?_
    have hinner := h₂.span (· != ')')
    refine .next (skip_follows (fun _ _ => rfl) h₂) fun c₃ hgoes₃ _ h₃ => ?_
    simp only
    refine .peeks h₃ ?_ fun hclose => ?_
    · intro rest hrest
      rw [hrest] at h₃ hinner ⊢
      refine .look rfl (.look (run_slice hinner h₃ hgoes₃) ?_)
      refine .move (w := [')']) h₃ rfl fun h₄ => ?_
      simp only
      cases pathOfBody (inner.takeWhile (· != ')')) with
      | ok path => exact .pure h₄ _
      | error fault => exact .refuse h₄ _
    · cases hrest : inner.dropWhile (· != ')') with
      | nil =>
          rw [hrest] at h₃
          exact .refuse h₃ _
      | cons d rest =>
          have hd := List.head?_dropWhile_not (· != ')') inner
          rw [hrest] at hd
          obtain rfl : d = ')' := by simpa using hd
          exact (hclose rest hrest).elim
  · split
    · next inner => exact (hopen inner rfl).elim
    · exact .refuse h₁ _

theorem string_follows (h : c.Stands ('"' :: text)) :
    Follows c Scan.string (stringReading text [] (stringBody? text)) := by
  rw [Scan.string]
  refine .move (w := ['"']) h rfl fun h' => .look rfl (.look (run_remaining h') ?_)
  have hwhole : (c.advance 1).Stands ([] ++ text) := h'
  exact stringRest_follows hwhole

theorem wordOperand_follows (h : c.Stands text) :
    Follows c
      (do
        let word ← Scan.identifier
        if word = "name" then return .eventName
        else if word = "ts" then return .timestamp
        else if word = "null" then return .literal .null
        else if word = "query" then return .query (← Scan.queryPath)
        else refuse (.unknownOperand word))
      (wordOperand text) := by
  refine (identifier_follows h).bind fun word rest c' _ _ _ h' => ?_
  simp only
  split
  · exact .pure h' _
  split
  · exact .pure h' _
  split
  · exact .pure h' _
  split
  · exact (queryPath_follows h').bind fun path rest' c'' _ _ _ h'' => .pure h'' _
  · exact .refuse h' _

theorem operand_follows (h : c.Stands text) : Follows c Scan.operand (Condition.operand text) := by
  rw [Scan.operand]
  refine .next (skipBlanks_follows h) fun c₁ _ _ h₁ => ?_
  rw [Condition.operand]
  generalize dropBlank text = body at *
  split
  · exact .look (run_peek h₁) (.refuse h₁ _)
  · next rest =>
    refine .look (run_peek h₁) (.move (w := ['$']) h₁ rfl fun h₂ => ?_)
    exact (identifier_follows h₂).map _
  · next rest =>
    refine .look (run_peek h₁) (.move (w := ['@']) h₁ rfl fun h₂ => ?_)
    exact (identifier_follows h₂).map _
  · next rest =>
    refine .look (run_peek h₁) ?_
    have hstring := (string_follows h₁).map ValueSource.literal
    cases hbody : stringBody? rest with
    | none =>
        rw [hbody] at hstring
        exact hstring
    | some read =>
        rw [hbody] at hstring
        exact hstring
  · next d rest hfield hslot hquote =>
    refine .look (run_peek h₁) ?_
    rw [List.head?_cons]
    split
    · contradiction
    · next heq => exact (hfield (Option.some.inj heq)).elim
    · next heq => exact (hslot (Option.some.inj heq)).elim
    · next heq => exact (hquote (Option.some.inj heq)).elim
    · next d' _ _ _ heq =>
      obtain rfl := Option.some.inj heq
      split
      · exact (number_follows h₁).map _
      · exact wordOperand_follows h₁

theorem operator?_eq_some {op : CompareOp} (h : operator? text = some (op, rest)) :
    text = op.symbol ++ rest := by
  unfold operator? at h
  split at h <;> cases h <;> rfl

theorem operator_follows (h : c.Stands text) :
    Follows c operator
      (.ok ((operator? text).map fun (op, _) => (op, byteSize op.symbol), text)) := by
  rw [operator]
  refine .looks h ?_ fun heq => .looks h ?_ fun hne => .looks h ?_ fun hge => .looks h ?_ fun hle =>
    .peeks h ?_ fun hgt => .peeks h ?_ fun hlt => ?_
  · rintro rest rfl
    exact .pure h _
  · rintro rest rfl
    exact .pure h _
  · rintro rest rfl
    exact .pure h _
  · rintro rest rfl
    exact .pure h _
  · rintro rest rfl
    rw [operator?]
    · exact .pure h _
    · rintro tail rfl
      exact hge tail rfl
  · rintro rest rfl
    rw [operator?]
    · exact .pure h _
    · rintro tail rfl
      exact hle tail rfl
  · have hnone : operator? text = none := by
      unfold operator?
      split
      · exact (heq _ rfl).elim
      · exact (hne _ rfl).elim
      · exact (hge _ rfl).elim
      · exact (hle _ rfl).elim
      · exact (hgt _ rfl).elim
      · exact (hlt _ rfl).elim
      · rfl
    rw [hnone]
    exact .pure h _

/-- A comparison, and the blanks after it if it is a single operand. -/
def blankComparison (text : List Char) : Reading Condition :=
  (operand text).bind fun (left, rest) =>
    match operator? (dropBlank rest) with
    | some (op, rest) => (operand rest).map fun (right, rest) => (.compare left op right, rest)
    | none => .ok (.compare left .ne (.literal .null), dropBlank rest)

theorem comparison_follows (h : c.Stands text) :
    Follows c Scan.comparison (blankComparison text) := by
  rw [Scan.comparison]
  refine (operand_follows h).bind fun left rest c₁ _ _ _ h₁ => ?_
  refine .next (skipBlanks_follows h₁) fun c₂ _ _ h₂ => ?_
  refine .next (operator_follows h₂) fun c₃ _ _ h₃ => ?_
  simp only
  cases hop : operator? (dropBlank rest) with
  | some found =>
      obtain ⟨op, after⟩ := found
      rw [operator?_eq_some hop] at h₃
      exact .move h₃ rfl fun h₄ => (operand_follows h₄).map _
  | none => exact .pure h₃ _

end TraceAutomata.Condition
