import ShapeAnalysis.Yaml.Glyph

/-!
# Gaps between words

Blanks and line ends inside a scalar form *gaps*.  A gap within a line is kept.
A gap with line ends is folded: a single line feed becomes a space, and with
more of them only the first is dropped.  The blanks around line ends do not
count.
-/

namespace ShapeAnalysis.Yaml

/-- The blanks and line ends since the last word of a scalar. -/
inductive Gap where
  /-- Blanks within a line, the last one first. -/
  | blanks (before : List Char)
  /-- A first line end and more of them, the last one first.  The first is empty
  when the text hides it behind a backslash. -/
  | breaks (first more : List Char)
deriving DecidableEq, Repr, Inhabited

namespace Gap

/-- No gap. -/
def empty : Gap := blanks []

/-- A line end behind a backslash. -/
def hidden : Gap := breaks [] []

/-- Widen a gap by a blank or a line end. -/
def add (gap : Gap) (c : Char) : Gap :=
  match gap with
  | blanks before => if isBreak c then breaks [c] [] else blanks (c :: before)
  | breaks first more => if isBreak c then breaks first (c :: more) else breaks first more

/-- Whether there is a gap. -/
def isSome : Gap → Bool
  | blanks before => !before.isEmpty
  | breaks _ _ => true

/-- Whether the gap crosses a line end. -/
def isBroken : Gap → Bool
  | blanks _ => false
  | breaks _ _ => true

/-- What the gap contributes to the scalar. -/
def text : Gap → List Char
  | blanks before => before.reverse
  | breaks first more =>
    if first = ['\n'] then (if more.isEmpty then [' '] else more.reverse)
    else first ++ more.reverse

end Gap

end ShapeAnalysis.Yaml
