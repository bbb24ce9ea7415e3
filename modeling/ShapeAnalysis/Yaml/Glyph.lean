/-!
# Characters and their places

A document is read as a list of *glyphs*, characters with the places they stand
at.  The line ends are made uniform on the way: a carriage return, a carriage
return with a line feed, and a next line character all become one line feed.
The separators of lines and paragraphs end lines too and stay what they are.

A place counts twice on its line.  Indentation is a matter of characters, and
the length of a key one of bytes.
-/

namespace ShapeAnalysis.Yaml

/-! ## Classes of characters -/

/-- Whether a document may hold the character.  Controls are refused, tabs and
line ends apart, and so are the two last characters of the basic plane. -/
def isAllowed (c : Char) : Bool :=
  let n := c.toNat
  n = 0x09 || n = 0x0a || n = 0x0d || (0x20 ≤ n && n ≤ 0x7e) || n = 0x85 ||
    (0xa0 ≤ n && n ≤ 0xfffd) || 0x10000 ≤ n

/-- A blank inside a line. -/
def isBlank (c : Char) : Bool := c = ' ' || c = '\t'

/-- The byte order mark, which may stand at the start of a line. -/
def byteOrderMark : Char := '\ufeff'

/-- A line end, once line ends are uniform. -/
def isBreak (c : Char) : Bool := c = '\n' || c = '\u2028' || c = '\u2029'

/-- The comma and the brackets, which delimit bracketed collections. -/
def isDelimiter (c : Char) : Bool := c ∈ [',', '[', ']', '\x7b', '\x7d']

/-- The characters of names: letters, digits, the underscore and the hyphen. -/
def isNameChar (c : Char) : Bool :=
  ('0' ≤ c && c ≤ '9') || ('A' ≤ c && c ≤ 'Z') || ('a' ≤ c && c ≤ 'z') || c = '_' || c = '-'

/-- The bytes of a text without characters beyond `0x7f`. -/
def asciiBytes (text : List Char) : List UInt8 := text.map fun c => UInt8.ofNat c.toNat

/-! ## Digits -/

/-- The value of a digit below 16. -/
def digit? (c : Char) : Option Nat :=
  if '0' ≤ c ∧ c ≤ '9' then some (c.toNat - '0'.toNat)
  else if 'a' ≤ c ∧ c ≤ 'f' then some (c.toNat - 'a'.toNat + 10)
  else if 'A' ≤ c ∧ c ≤ 'F' then some (c.toNat - 'A'.toNat + 10)
  else none

/-- Read digits after the ones that make up `acc`. -/
def digitsFrom? (base : Nat) (acc : Nat) : List Char → Option Nat
  | [] => some acc
  | c :: cs =>
    match digit? c with
    | some d => if d < base then digitsFrom? base (acc * base + d) cs else none
    | none => none

/-- Read one digit or more. -/
def digits? (base : Nat) : List Char → Option Nat
  | [] => none
  | c :: cs => digitsFrom? base 0 (c :: cs)

/-! ## Glyphs -/

/-- A character with its place. -/
structure Glyph where
  /-- The character. -/
  char : Char
  /-- The line, the first being 0. -/
  line : Nat
  /-- The number of characters before it on its line. -/
  column : Nat
  /-- The number of bytes before it on its line. -/
  offset : Nat
deriving DecidableEq, Repr, Inhabited

namespace Glyph

/-- The glyphs of a text that starts at a given place. -/
def ofText (line column offset : Nat) : List Char → List Glyph
  | [] => []
  | '\r' :: '\n' :: rest => ⟨'\n', line, column, offset⟩ :: ofText (line + 1) 0 0 rest
  | c :: rest =>
    if c = '\r' || c = '\x85' then
      ⟨'\n', line, column, offset⟩ :: ofText (line + 1) 0 0 rest
    else if isBreak c then ⟨c, line, column, offset⟩ :: ofText (line + 1) 0 0 rest
    else ⟨c, line, column, offset⟩ :: ofText line (column + 1) (offset + c.utf8Size) rest

/-- A blank or a line end. -/
def isSpace (g : Glyph) : Bool := isBlank g.char || isBreak g.char

end Glyph

/-! ## The front of a text -/

/-- Whether a blank, a line end or the end of the text comes first. -/
def startsBlank : List Glyph → Bool
  | [] => true
  | g :: _ => g.isSpace

/-- Whether a line starts here with `---` or `...` and a blank after it, the
marks between documents. -/
def startsMark : List Glyph → Bool
  | a :: b :: c :: rest =>
    a.column = 0 && b.char = a.char && c.char = a.char && (a.char = '-' || a.char = '.') &&
      startsBlank rest
  | _ => false

/-- The text from its first line end on. -/
def dropLine (gs : List Glyph) : List Glyph := gs.dropWhile fun g => !isBreak g.char

/-- The text from a line end on, if a comment comes first. -/
def dropComment : List Glyph → List Glyph
  | [] => []
  | g :: rest => if g.char = '#' then dropLine rest else g :: rest

/-- What follows the line, if nothing but blanks and a comment is left on it. -/
def endOfLine? (gs : List Glyph) : Option (List Glyph) :=
  match dropComment (gs.dropWhile (isBlank ·.char)) with
  | [] => some []
  | g :: rest => if isBreak g.char then some rest else none

end ShapeAnalysis.Yaml
