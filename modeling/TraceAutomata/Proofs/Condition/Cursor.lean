import TraceAutomata.Fault

namespace TraceAutomata.Condition

open Text

/-- The routines that call each other. -/
inductive Routine where
  | disjunction
  | conjunction
  | negation
  | primary
deriving DecidableEq

/-- What stands between parts of one condition. -/
inductive Joint where
  | and
  | or

namespace Joint

def mark : Joint → String
  | .and => "&&"
  | .or => "||"

def part : Joint → Routine
  | .and => .negation
  | .or => .conjunction

def join : Joint → List Condition → Condition
  | .and => Level.conjunction
  | .or => Level.disjunction

end Joint

/-- A place in a text, with a record of the way to it. -/
structure Cursor where
  text : List Char
  /-- Number of bytes before the place. -/
  place : Nat := 0
  /-- All places up to now, the present one first. -/
  places : List Nat := [0]
  /-- The beginning and the end of each pass of a loop, and wherever a routine is called within a call
  of itself, the places at which the two calls begin. -/
  turns : List (Nat × Nat) := []
  /-- The calls that have not returned, with the places at which they began, the innermost one first. -/
  calls : List (Routine × Nat) := []

/-- Why a reader does not go on. -/
inductive Halt where
  | refused (fault : Fault)
  /-- The text is cut inside of a character, or beyond its end. -/
  | brokenCut

abbrev Scan := ExceptT Halt (StateT Cursor Option)

/-- The text up to a number of bytes and from there on, if a character begins there or the text ends. -/
def splitBytes? : List Char → Nat → Option (List Char × List Char)
  | text, 0 => some ([], text)
  | [], _ + 1 => none
  | c :: rest, n + 1 =>
      if c.utf8Size ≤ n + 1 then
        (splitBytes? rest (n + 1 - c.utf8Size)).map fun (front, back) => (c :: front, back)
      else none

namespace Cursor

def remaining? (c : Cursor) : Option (List Char) :=
  (splitBytes? c.text c.place).map Prod.snd

def slice? (c : Cursor) (start stop : Nat) : Option (List Char) :=
  if start ≤ stop then
    ((splitBytes? c.text start).bind fun (_, back) => splitBytes? back (stop - start)).map Prod.fst
  else none

def advance (c : Cursor) (width : Nat) : Cursor :=
  { c with place := c.place + width, places := (c.place + width) :: c.places }

def pass (c : Cursor) (start stop : Nat) : Cursor :=
  { c with turns := (start, stop) :: c.turns }

def enter (c : Cursor) (r : Routine) : Cursor :=
  { c with
    turns := ((c.calls.filter fun call => call.1 == r).map fun call => (call.2, c.place)) ++ c.turns
    calls := (r, c.place) :: c.calls }

def leave (c : Cursor) : Cursor :=
  { c with calls := c.calls.tail }

def refusal (c : Cursor) (fault : SyntaxFault) : Halt :=
  .refused (.definition (.condition (.misread (String.ofList c.text) c.place fault)))

end Cursor

namespace Scan

variable {α : Type}

def cut (part : Option α) : Scan α :=
  match part with
  | some a => return a
  | none => throw .brokenCut

def remaining : Scan (List Char) := do
  cut (← get).remaining?

def slice (start stop : Nat) : Scan (List Char) := do
  cut ((← get).slice? start stop)

def peek : Scan (Option Char) := do
  return (← remaining).head?

def looksAt (mark : String) : Scan Bool := do
  return mark.toList.isPrefixOf (← remaining)

def here : Scan Nat := do
  return (← get).place

def advance (width : Nat) : Scan Unit :=
  modify fun c => c.advance width

def pass (start stop : Nat) : Scan Unit :=
  modify fun c => c.pass start stop

def enter (r : Routine) : Scan Unit :=
  modify fun c => c.enter r

def leave : Scan Unit :=
  modify Cursor.leave

def refuse (fault : SyntaxFault) : Scan α := do
  throw ((← get).refusal fault)

end Scan

/-- Characters that are gone over one by one, with the widths by which that is done. -/
structure CharClass where
  mem : Char → Bool
  width : Char → Nat := Char.utf8Size

open Scan in
def CharClass.skip (k : CharClass) : Scan Unit := do
  match ← peek with
  | some c =>
      if k.mem c then
        let start ← here
        advance (k.width c)
        pass start (← here)
        k |>.skip
      else return ()
  | none => return ()
partial_fixpoint

namespace Scan

def skipBlanks : Scan Unit :=
  CharClass.skip { mem := isBlank }

def skipDigits : Scan Unit :=
  CharClass.skip { mem := Char.isDigit, width := fun _ => 1 }

def identifier : Scan String := do
  let start ← here
  CharClass.skip { mem := isIdentifierChar }
  let word ← slice start (← here)
  if word.isEmpty then refuse .emptyIdentifier
  else return String.ofList word

/-- The rest of a string of which some characters have been read, in reverse order. The place stays at
the opening quote until the closing one is found; the offset from there is counted. -/
def stringRest (start offset : Nat) (read : List Char) : List Char → Scan Value
  | [] => refuse .unterminatedString
  | '"' :: _ => do
      advance (offset + 1)
      return .string (String.ofList read.reverse)
  | ['\\'] => do
      pass (start + offset) (start + (offset + 1))
      stringRest start (offset + 1) read []
  | '\\' :: c :: rest => do
      pass (start + offset) (start + (offset + 1 + c.utf8Size))
      stringRest start (offset + 1 + c.utf8Size) (c :: read) rest
  | c :: rest => do
      pass (start + offset) (start + (offset + c.utf8Size))
      stringRest start (offset + c.utf8Size) (c :: read) rest

def string : Scan Value := do
  advance 1
  stringRest (← here) 0 [] (← remaining)

def skipSign : Scan Unit := do
  if (← peek) == some '-' then
    advance 1

def number : Scan Value := do
  let start ← here
  skipSign
  skipDigits
  if (← peek) == some '.' then
    advance 1
    skipDigits
    let lexeme ← slice start (← here)
    match Decimal.ofChars? lexeme with
    | some d => return .double d.toDouble
    | none => refuse (.invalidNumber (String.ofList lexeme))
  else
    let lexeme ← slice start (← here)
    match Number.int64OfText? lexeme with
    | some n => return .ofInt64 n
    | none => refuse (.invalidNumber (String.ofList lexeme))

def queryPath : Scan AttributePath := do
  skipBlanks
  if (← peek) == some '(' then
    advance 1
    let start ← here
    CharClass.skip { mem := (· != ')') }
    if (← peek) == some ')' then
      let body ← slice start (← here)
      advance 1
      match pathOfBody body with
      | .ok path => return path
      | .error fault => refuse fault
    else refuse .unterminatedQuery
  else refuse .expectedQueryOpen

def operand : Scan ValueSource := do
  skipBlanks
  match ← peek with
  | none => refuse .expectedOperand
  | some '$' =>
      advance 1
      return .field (← identifier)
  | some '@' =>
      advance 1
      return .scratch (← identifier)
  | some '"' => return .literal (← string)
  | some c =>
      if c == '-' || c.isDigit then return .literal (← number)
      else
        let word ← identifier
        if word = "name" then return .eventName
        else if word = "ts" then return .timestamp
        else if word = "null" then return .literal .null
        else if word = "query" then return .query (← queryPath)
        else refuse (.unknownOperand word)

def operator : Scan (Option (CompareOp × Nat)) := do
  if ← looksAt "==" then return some (.eq, 2)
  else if ← looksAt "!=" then return some (.ne, 2)
  else if ← looksAt ">=" then return some (.ge, 2)
  else if ← looksAt "<=" then return some (.le, 2)
  else if (← peek) == some '>' then return some (.gt, 1)
  else if (← peek) == some '<' then return some (.lt, 1)
  else return none

def comparison : Scan Condition := do
  let left ← operand
  skipBlanks
  match ← operator with
  | some (op, width) =>
      advance width
      return .compare left op (← operand)
  | none => return .compare left .ne (.literal .null)

end Scan

open Scan

mutual

def Routine.call (r : Routine) : Scan Condition := do
  enter r
  let c ← r |>.body
  leave
  return c
partial_fixpoint

/-- What a routine does. A disjunction is made of conjunctions, these of negations and these of primary
conditions; the way back is by `!` and by parentheses. -/
def Routine.body (r : Routine) : Scan Condition :=
  match r with
  | .disjunction => Joint.or |>.parts
  | .conjunction => Joint.and |>.parts
  | .negation => do
      skipBlanks
      if (← peek) == some '!' && !(← looksAt "!=") then
        advance 1
        return .not (← Routine.negation |>.call)
      else Routine.primary |>.call
  | .primary => do
      skipBlanks
      if (← peek) == some '(' then
        advance 1
        let c ← Routine.disjunction |>.call
        skipBlanks
        if (← peek) == some ')' then
          advance 1
          return c
        else refuse .expectedClose
      else Scan.comparison
partial_fixpoint

def Joint.parts (j : Joint) : Scan Condition := do
  let first ← j.part |>.call
  skipBlanks
  j |>.moreParts [first]
partial_fixpoint

/-- Goes on with parts of which some have been read, in reverse order. -/
def Joint.moreParts (j : Joint) (reversed : List Condition) : Scan Condition := do
  if ← looksAt j.mark then
    let start ← here
    advance 2
    let c ← j.part |>.call
    skipBlanks
    pass start (← here)
    j |>.moreParts (c :: reversed)
  else return j.join reversed
partial_fixpoint

end

def Scan.condition : Scan Condition := do
  let c ← Routine.disjunction.call
  skipBlanks
  let cursor ← get
  if cursor.place < byteSize cursor.text then
    refuse (.trailing (String.ofList (← remaining)))
  else return c

def scan (text : String) : Option (Except Halt Condition × Cursor) :=
  let chars := trimChars text.toList
  if chars.isEmpty then
    some (.error (.refused (.definition (.condition .empty))), { text := chars })
  else Scan.condition.run.run { text := chars }

end TraceAutomata.Condition
