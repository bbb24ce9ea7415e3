import ShapeAnalysis.Yaml.Gap

/-!
# Plain scalars

A plain scalar has no quotes.  It goes on over line ends as long as the lines
are indented, and stops before a comment, before a colon that a blank follows
and, inside brackets, before a comma or bracket.
-/

namespace ShapeAnalysis.Yaml

/-- The characters that cannot begin a plain scalar. -/
def indicators : List Char :=
  ['-', '?', ':', ',', '[', ']', '\x7b', '\x7d', '#', '&', '*', '!', '|', '>', '\'', '"', '%', '@',
    '\x60']

/-- Whether a plain scalar can begin with `c` before `rest`.  A hyphen can if no
blank follows it, and outside brackets so can a question mark and a colon. -/
def startsPlain (inFlow : Bool) (c : Char) (rest : List Glyph) : Bool :=
  if isBlank c then false
  else if c = '-' then !startsBlank rest
  else if c = '?' || c = ':' then !inFlow && !startsBlank rest
  else c ∉ indicators

/-- Whether a plain scalar stops before the glyph `g` with `rest` after it, when
`gap` comes between.  After a line end the scalar has to reach the margin. -/
def stopsPlain (inFlow : Bool) (margin : Nat) (gap : Gap) (g : Glyph) (rest : List Glyph) : Bool :=
  (gap.isBroken && !inFlow && g.column < margin) ||
    startsMark (g :: rest) ||
    (gap.isSome && g.char = '#') ||
    (g.char = ':' && startsBlank rest) ||
    (inFlow && isDelimiter g.char)

/-- Whether a colon stands right before a delimiter, which is an error inside
brackets. -/
def strayColon (c : Char) : List Glyph → Bool
  | [] => false
  | g :: _ => c = ':' && (isDelimiter g.char || g.char = '?')

/-- Read on in a plain scalar after a gap.  The result is the text, whether the
gap after it crosses a line end, and what comes after that gap. -/
def plain? (inFlow : Bool) (margin : Nat) (gap : Gap) :
    List Glyph → Option (List Char × Bool × List Glyph)
  | [] => some ([], gap.isBroken, [])
  | g :: rest =>
    if g.isSpace then
      if gap.isBroken && g.char = '\t' && g.column < margin then none
      else plain? inFlow margin (gap.add g.char) rest
    else if stopsPlain inFlow margin gap g rest then some ([], gap.isBroken, g :: rest)
    else if inFlow && strayColon g.char rest then none
    else (plain? inFlow margin .empty rest).map fun (text, broken, after) =>
      (gap.text ++ g.char :: text, broken, after)

end ShapeAnalysis.Yaml
