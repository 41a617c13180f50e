/-!
Blank characters and the trimming of texts. Condition texts, trace lines and the entries of a
list written as one text are all trimmed by the same class of characters.
-/

namespace TraceAutomata.Text

/-- A blank is a character with the Unicode property `White_Space`. -/
def isBlank (c : Char) : Bool :=
  let n := c.toNat
  (9 ≤ n && n ≤ 13) || n == 0x20 || n == 0x85 || n == 0xA0 || n == 0x1680 ||
    (0x2000 ≤ n && n ≤ 0x200A) || n == 0x2028 || n == 0x2029 || n == 0x202F ||
    n == 0x205F || n == 0x3000

def dropBlank (text : List Char) : List Char :=
  text.dropWhile isBlank

def trimChars (text : List Char) : List Char :=
  (dropBlank (dropBlank text).reverse).reverse

def trim (text : String) : String :=
  String.ofList (trimChars text.toList)

theorem length_dropWhile_le (p : Char → Bool) (text : List Char) :
    (text.dropWhile p).length ≤ text.length :=
  (List.dropWhile_suffix p).length_le

theorem length_dropWhile_lt {p : Char → Bool} {text : List Char}
    (h : (text.takeWhile p).isEmpty = false) :
    (text.dropWhile p).length < text.length := by
  have hlen := congrArg List.length (List.takeWhile_append_dropWhile (p := p) (l := text))
  have hpos : 0 < (text.takeWhile p).length := by
    cases hw : text.takeWhile p with
    | nil => simp [hw] at h
    | cons c rest => simp
  simp only [List.length_append] at hlen
  omega

theorem length_dropBlank_le (text : List Char) : (dropBlank text).length ≤ text.length :=
  length_dropWhile_le isBlank text

def byteSize : List Char → Nat
  | [] => 0
  | c :: rest => c.utf8Size + byteSize rest

def occursIn (part : List Char) : List Char → Bool
  | [] => part.isEmpty
  | c :: rest => part.isPrefixOf (c :: rest) || occursIn part rest

/-- The parts of a text between the characters that separate them. -/
def split (separates : Char → Bool) : List Char → List (List Char)
  | [] => [[]]
  | c :: rest =>
      if separates c then [] :: split separates rest
      else
        match split separates rest with
        | [] => [[c]]
        | part :: parts => (c :: part) :: parts

end TraceAutomata.Text
