import ShapeAnalysis.Yaml.Gap

/-!
# Quoted scalars

Between single quotes the only escape is a quote written twice.  Between double
quotes a backslash starts an escape: a letter for a control character, a code in
two, four or eight hexadecimal digits, or a line end that is not part of the
scalar.  Both kinds may cross line ends and neither may contain a document mark.
-/

namespace ShapeAnalysis.Yaml

/-- The rest of a single quoted scalar after a gap, with what follows it. -/
def singleQuoted? (gap : Gap) : List Glyph → Option (List Char × List Glyph)
  | [] => none
  | g :: rest =>
    if g.isSpace then singleQuoted? (gap.add g.char) rest
    else if startsMark (g :: rest) then none
    else if g.char = '\'' then
      match rest with
      | [] => some (gap.text, [])
      | h :: after =>
        if h.char = '\'' then
          (singleQuoted? .empty after).map fun (text, r) => (gap.text ++ '\'' :: text, r)
        else some (gap.text, h :: after)
    else (singleQuoted? .empty rest).map fun (text, r) => (gap.text ++ g.char :: text, r)

/-- The character that a backslash and one character stand for. -/
def escaped? : Char → Option Char
  | '0' => some '\x00'
  | 'a' => some '\x07'
  | 'b' => some '\x08'
  | 't' => some '\t'
  | '\t' => some '\t'
  | 'n' => some '\n'
  | 'v' => some '\x0b'
  | 'f' => some '\x0c'
  | 'r' => some '\r'
  | 'e' => some '\x1b'
  | ' ' => some ' '
  | '"' => some '"'
  | '/' => some '/'
  | '\\' => some '\\'
  | 'N' => some '\x85'
  | '_' => some '\xa0'
  | 'L' => some '\u2028'
  | 'P' => some '\u2029'
  | _ => none

/-- The character with the code that hexadecimal digits spell. -/
def coded? (digits : List Glyph) : Option Char :=
  match digits? 16 (digits.map (·.char)) with
  | none => none
  | some n => if n.isValidChar then some (Char.ofNat n) else none

/-- The rest of a double quoted scalar after a gap, with what follows it. -/
def doubleQuoted? (gap : Gap) : List Glyph → Option (List Char × List Glyph)
  | [] => none
  | g :: rest =>
    if g.isSpace then doubleQuoted? (gap.add g.char) rest
    else if startsMark (g :: rest) then none
    else if g.char = '"' then some (gap.text, rest)
    else if g.char = '\\' then
      match rest with
      | [] => none
      | e :: after =>
        if isBreak e.char then
          (doubleQuoted? .hidden after).map fun (text, r) => (gap.text ++ text, r)
        else
          match e.char, after with
          | 'x', a :: b :: after => do
            let c ← coded? [a, b]
            let (text, r) ← doubleQuoted? .empty after
            return (gap.text ++ c :: text, r)
          | 'u', a :: b :: c :: d :: after => do
            let c ← coded? [a, b, c, d]
            let (text, r) ← doubleQuoted? .empty after
            return (gap.text ++ c :: text, r)
          | 'U', a :: b :: c :: d :: e :: f :: g :: h :: after => do
            let c ← coded? [a, b, c, d, e, f, g, h]
            let (text, r) ← doubleQuoted? .empty after
            return (gap.text ++ c :: text, r)
          | c, after => do
            let c ← escaped? c
            let (text, r) ← doubleQuoted? .empty after
            return (gap.text ++ c :: text, r)
    else (doubleQuoted? .empty rest).map fun (text, r) => (gap.text ++ g.char :: text, r)

end ShapeAnalysis.Yaml
