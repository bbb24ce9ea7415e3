import ShapeAnalysis.Yaml.Glyph

/-!
# Block scalars

A block scalar is a run of lines below a header.  The header says whether line
ends are kept or folded, what becomes of the line ends at the end, and it may fix
the indentation.  Otherwise the first line with content fixes it.
-/

namespace ShapeAnalysis.Yaml

/-- What becomes of the line ends at the end of a block scalar. -/
inductive Chomping where
  /-- All are dropped. -/
  | strip
  /-- The one of the last line with content stays. -/
  | clip
  /-- All stay. -/
  | keep
deriving DecidableEq, Repr, Inhabited

/-- A line with content in a block scalar. -/
structure BlockLine where
  /-- The text after the indentation. -/
  body : List Char
  /-- The line end, empty at the end of the text. -/
  ending : List Char
  /-- The ends of the empty lines after it. -/
  blank : List Char
deriving DecidableEq, Repr, Inhabited

namespace BlockLine

/-- Whether the line starts with a blank, so that it is not folded. -/
def isIndented (l : BlockLine) : Bool :=
  match l.body with
  | [] => false
  | c :: _ => isBlank c

/-- The line ends between two lines of a folded scalar. -/
def fold (l next : BlockLine) : List Char :=
  if l.ending = ['\n'] && !l.isIndented && !next.isIndented then
    (if l.blank.isEmpty then [' '] else l.blank)
  else l.ending ++ l.blank

/-- The text of the lines. -/
def join (folded : Bool) (chomping : Chomping) : List BlockLine → List Char
  | [] => []
  | [l] => l.body ++
    match chomping with
    | .strip => []
    | .clip => l.ending
    | .keep => l.ending ++ l.blank
  | l :: next :: rest =>
    l.body ++ (if folded then l.fold next else l.ending ++ l.blank) ++
      join folded chomping (next :: rest)

end BlockLine

/-- Read the marks of a header: the chomping and the indentation, in either
order. -/
def blockHeader? (gs : List Glyph) : Option (Chomping × Option Nat × List Glyph) :=
  let chomping : List Glyph → Chomping × List Glyph
    | g :: rest =>
      if g.char = '+' then (.keep, rest)
      else if g.char = '-' then (.strip, rest)
      else (.clip, g :: rest)
    | [] => (.clip, [])
  let indent : List Glyph → Option (Option Nat × List Glyph)
    | g :: rest =>
      match digits? 10 [g.char] with
      | some 0 => none
      | some n => some (some n, rest)
      | none => some (none, g :: rest)
    | [] => some (none, [])
  let (first, after) := chomping gs
  match indent after with
  | none => none
  | some (width, rest) =>
    if first = .clip then
      let (last, rest) := if width.isSome then chomping rest else (.clip, rest)
      some (last, width, rest)
    else some (first, width, rest)

/-- Pass over indentation and empty lines.  The result has the ends of the empty
lines, the widest indentation met and the rest.  Without a given indentation
every space counts as one, and a tab in the indentation is refused. -/
def skipIndent? (indent : Option Nat) (widest : Nat) :
    List Glyph → Option (List Char × Nat × List Glyph)
  | [] => some ([], widest, [])
  | g :: rest =>
    let inside := indent.all (g.column < ·)
    if inside && g.char = ' ' then skipIndent? indent widest rest
    else if inside && g.char = '\t' then none
    else if isBreak g.char then
      (skipIndent? indent (max widest g.column) rest).map fun (ends, w, r) => (g.char :: ends, w, r)
    else some ([], max widest g.column, g :: rest)

/-- Read the lines that start at the given indentation.  The number bounds the
lines. -/
def blockLines? (indent : Nat) : Nat → List Glyph → Option (List BlockLine × List Glyph)
  | _, [] => some ([], [])
  | 0, _ :: _ => none
  | fuel + 1, g :: rest =>
    if g.column ≠ indent then some ([], g :: rest)
    else
      let body := (g :: rest).takeWhile fun g => !isBreak g.char
      let after := dropLine (g :: rest)
      match skipIndent? (some indent) 0 (after.drop 1) with
      | none => none
      | some (blank, _, after') =>
        (blockLines? indent fuel after').map fun (ls, r) =>
          (⟨body.map (·.char), (after.take 1).map (·.char), blank⟩ :: ls, r)

/-- Read a block scalar after its indicator.  `margin` is the least indentation
its lines may have, one more than that of the block around it. -/
def blockScalar? (folded : Bool) (margin : Nat) (gs : List Glyph) :
    Option (List Char × List Glyph) := do
  let (chomping, width, after) ← blockHeader? gs
  let gs ← endOfLine? after
  let given := width.map (· + (margin - 1))
  let (blank, widest, gs) ← skipIndent? given 0 gs
  let indent := given.getD (max (max widest margin) 1)
  let (lines, rest) ← blockLines? indent (gs.length + 1) gs
  let lead := if lines.isEmpty && chomping ≠ .keep then [] else blank
  return (lead ++ BlockLine.join folded chomping lines, rest)

end ShapeAnalysis.Yaml
