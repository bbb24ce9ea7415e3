/-!
# Laying out text

Padding, replacing and splitting into lines, as reports and titles need them.
-/

namespace ShapeAnalysis.Text

/-- Blanks after the text up to a width. -/
def padRight (width : Nat) (s : String) : String :=
  s ++ String.ofList (List.replicate (width - s.length) ' ')

/-- Blanks before the text up to a width. -/
def padLeft (width : Nat) (s : String) : String :=
  String.ofList (List.replicate (width - s.length) ' ') ++ s

/-- Each line ended by a line feed. -/
def unlines (ls : List String) : String := String.join (ls.map (· ++ "\n"))

/-- Cut at line feeds.  The last piece is what follows the last one. -/
def splitLines : List Char → List (List Char)
  | [] => [[]]
  | c :: cs =>
    if c = '\n' then [] :: splitLines cs
    else match splitLines cs with
      | [] => [[c]]
      | l :: ls => (c :: l) :: ls

/-- A line without a carriage return at its end. -/
def dropReturn (l : List Char) : List Char :=
  if l.getLast? = some '\r' then l.dropLast else l

/-- The lines of a text.  A final line feed opens no line, and a carriage
return before a line feed belongs to the line end. -/
def lines (s : String) : List String :=
  let pieces := splitLines s.toList
  let full := pieces.dropLast.map dropReturn
  match pieces.getLast? with
  | none => full.map String.ofList
  | some [] => full.map String.ofList
  | some l => (full ++ [l]).map String.ofList

/-- Replace every occurrence of a pattern, searching on after each one.  `skip`
counts the characters of an occurrence that are still to be passed over. -/
def replaceFrom (pattern other : List Char) (skip : Nat) : List Char → List Char
  | [] => []
  | c :: cs =>
    match skip with
    | n + 1 => replaceFrom pattern other n cs
    | 0 =>
      if pattern.isPrefixOf (c :: cs) then
        other ++ replaceFrom pattern other (pattern.length - 1) cs
      else c :: replaceFrom pattern other 0 cs

/-- Replace every occurrence of a pattern that is not empty. -/
def replace (pattern other text : String) : String :=
  String.ofList (replaceFrom pattern.toList other.toList 0 text.toList)

end ShapeAnalysis.Text
