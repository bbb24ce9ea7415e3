import ShapeAnalysis.Yaml.Glyph
import ShapeAnalysis.Yaml.Token

/-!
# Anchors, tags and directives

The tokens that carry names.  An anchor or a reference has a name of letters and
digits.  A tag is written in full between angle brackets, or as a handle, which
a directive may define, and a suffix.  Codes of a percent sign and two digits
stand for bytes.  The bytes of one character have to be complete, but they may
spell a character that does not exist.
-/

namespace ShapeAnalysis.Yaml

/-! ## Anchors -/

/-- The characters that may follow the name of an anchor, blanks apart. -/
def anchorEnds : List Char := ['?', ':', ',', ']', '\x7d', '%', '@', '\x60']

/-- Read the name of an anchor or a reference. -/
def anchorName? (gs : List Glyph) : Option (List Char × List Glyph) :=
  let name := (gs.takeWhile (isNameChar ·.char)).map (·.char)
  let rest := gs.dropWhile (isNameChar ·.char)
  let ended := startsBlank rest || rest.head?.any (·.char ∈ anchorEnds)
  if name.isEmpty || !ended then none else some (name, rest)

/-! ## Tags -/

/-- The punctuation that tags may contain. -/
def tagPunctuation : List Char :=
  [';', '/', '?', ':', '@', '&', '=', '+', '$', '.', '!', '~', '*', '\'', '(', ')']

/-- Whether a character may stand in a tag.  A tag written in full may have
commas and square brackets too. -/
def isTagChar (full : Bool) (c : Char) : Bool :=
  isNameChar c || c ∈ tagPunctuation || (full && c ∈ [',', '[', ']'])

/-- The byte that two hexadecimal digits spell. -/
def byte? (a b : Glyph) : Option Nat := digits? 16 [a.char, b.char]

/-- The number of bytes that follow the first byte of a character. -/
def trailing? (byte : Nat) : Option Nat :=
  if byte < 0x80 then some 0
  else if 0xc0 ≤ byte && byte < 0xe0 then some 1
  else if 0xe0 ≤ byte && byte < 0xf0 then some 2
  else if 0xf0 ≤ byte && byte < 0xf8 then some 3
  else none

/-- Read the bytes of a tag.  `left` is the number of bytes that a coded
character still needs. -/
def tagBytes? (full : Bool) (left : Nat) : List Glyph → Option (List UInt8 × List Glyph)
  | p :: a :: b :: rest =>
    if p.char = '%' then
      match byte? a b with
      | none => none
      | some n =>
        match if left = 0 then trailing? n else if n / 0x40 = 2 then some (left - 1) else none with
        | none => none
        | some left => (tagBytes? full left rest).map fun (bs, r) => (UInt8.ofNat n :: bs, r)
    else if left ≠ 0 then none
    else if isTagChar full p.char then
      (tagBytes? full 0 (a :: b :: rest)).map fun (bs, r) => (asciiBytes [p.char] ++ bs, r)
    else some ([], p :: a :: b :: rest)
  | g :: rest =>
    if left ≠ 0 || g.char = '%' then none
    else if isTagChar full g.char then
      (tagBytes? full 0 rest).map fun (bs, r) => (asciiBytes [g.char] ++ bs, r)
    else some ([], g :: rest)
  | [] => if left = 0 then some ([], []) else none

/-- The bytes before the first zero, which ends a tag. -/
def endAtZero (bytes : List UInt8) : List UInt8 := bytes.takeWhile (· ≠ 0)

/-- Read a handle at its exclamation mark: the mark, a name, and a second mark
if there is one. -/
def splitHandle (gs : List Glyph) : List Char × List Glyph :=
  let name := ((gs.drop 1).takeWhile (isNameChar ·.char)).map (·.char)
  match (gs.drop 1).dropWhile (isNameChar ·.char) with
  | g :: rest =>
    if g.char = '!' then ('!' :: name ++ ['!'], rest) else ('!' :: name, g :: rest)
  | [] => ('!' :: name, [])

/-- Whether a text that starts with an exclamation mark ends with another one. -/
def isClosedHandle (text : List Char) : Bool := text.length > 1 && text.getLast? = some '!'

/-- Read a tag at its exclamation mark.  The mark alone is a tag without a
handle. -/
def tag? (inFlow : Bool) (gs : List Glyph) : Option (Token × List Glyph) := do
  let (token, rest) ←
    if (gs.drop 1).head?.any (·.char = '<') then do
      let (bytes, rest) ← tagBytes? true 0 (gs.drop 2)
      if bytes.isEmpty || !rest.head?.any (·.char = '>') then none
      some (Token.tag [] (endAtZero bytes), rest.drop 1)
    else do
      let (name, after) := splitHandle gs
      let (bytes, rest) ← tagBytes? false 0 after
      if isClosedHandle name then
        if bytes.isEmpty then none
        some (Token.tag name (endAtZero bytes), rest)
      else
        let suffix := asciiBytes (name.drop 1) ++ endAtZero bytes
        let token :=
          if suffix.isEmpty then Token.tag [] (asciiBytes ['!']) else Token.tag ['!'] suffix
        some (token, rest)
  if startsBlank rest || (inFlow && rest.head?.any (·.char = ',')) then some (token, rest) else none

/-! ## Directives -/

/-- Read a number of at most nine digits. -/
def versionNumber? (gs : List Glyph) : Option (Nat × List Glyph) :=
  let digits := (gs.takeWhile fun g => '0' ≤ g.char && g.char ≤ '9').map (·.char)
  if digits.length > 9 then none
  else (digits? 10 digits).map fun n => (n, gs.drop digits.length)

/-- Read a version after the name of its directive. -/
def version? (gs : List Glyph) : Option (Token × List Glyph) := do
  let (major, rest) ← versionNumber? (gs.dropWhile (isBlank ·.char))
  match rest with
  | g :: rest => do
    if g.char ≠ '.' then none
    let (minor, rest) ← versionNumber? rest
    return (.version major minor, rest)
  | [] => none

/-- Read the definition of a handle after the name of its directive. -/
def handleDefinition? (gs : List Glyph) : Option (Token × List Glyph) :=
  match gs.dropWhile (isBlank ·.char) with
  | [] => none
  | g :: after =>
    if g.char ≠ '!' then none
    else
      let (name, rest) := splitHandle (g :: after)
      if name ≠ ['!'] && !isClosedHandle name then none
      else if !rest.head?.any (isBlank ·.char) then none
      else do
        let (bytes, rest) ← tagBytes? true 0 (rest.dropWhile (isBlank ·.char))
        if bytes.isEmpty || !startsBlank rest then none
        some (.handle name (endAtZero bytes), rest)

/-- Read a directive at its percent sign. -/
def directive? (gs : List Glyph) : Option (Token × List Glyph) := do
  let name := ((gs.drop 1).takeWhile (isNameChar ·.char)).map (·.char)
  let rest := (gs.drop 1).dropWhile (isNameChar ·.char)
  if !startsBlank rest then none
  let (token, rest) ←
    if name = "YAML".toList then version? rest
    else if name = "TAG".toList then handleDefinition? rest
    else none
  let rest ← endOfLine? rest
  return (token, rest)

end ShapeAnalysis.Yaml
