import ShapeAnalysis.Yaml.Scalar.Block
import ShapeAnalysis.Yaml.Scalar.Plain
import ShapeAnalysis.Yaml.Scalar.Quoted
import ShapeAnalysis.Yaml.Tag

/-!
# From glyphs to tokens

Tokens are read one after another.  Outside brackets the layout adds tokens of
its own.  A block opens where a key or a hyphen stands further right than the
block around it, and it closes where a token stands further left.

That something is a key shows only at the colon after it.  So the lexer keeps
the place where a key may have started, one for each bracket that is open and
one for the block, and puts the token `key` there when the colon comes.  A key
ends on the line it starts on and has at most 1024 bytes.  Where a block
mapping can only go on with a key, the place is *required*: giving it up is an
error.
-/

namespace ShapeAnalysis.Yaml

/-- A place where a key may have started. -/
structure KeyPlace where
  /-- The number of tokens before it. -/
  before : Nat
  /-- Its line. -/
  line : Nat
  /-- Its column. -/
  column : Nat
  /-- The number of bytes before it on its line. -/
  offset : Nat
  /-- Whether nothing but a key can stand there. -/
  required : Bool
deriving DecidableEq, Repr, Inhabited

/-- The state between two tokens. -/
structure Lexer where
  /-- What is left of the document. -/
  rest : List Glyph
  /-- The tokens so far, the last one first. -/
  tokens : List Token := []
  /-- The columns of the open blocks, the innermost first. -/
  blocks : List Nat := []
  /-- The place where a key may have started inside the innermost bracket. -/
  key : Option KeyPlace := none
  /-- The places outside of it, one for each open bracket. -/
  outerKeys : List (Option KeyPlace) := []
  /-- Whether a key may start here. -/
  keyAllowed : Bool := true
deriving Inhabited

namespace Lexer

/-- Whether a bracket is open. -/
def inFlow (l : Lexer) : Bool := !l.outerKeys.isEmpty

/-- The column that lines have to reach to go on with a value. -/
def margin (l : Lexer) : Nat :=
  match l.blocks with
  | [] => 0
  | c :: _ => c + 1

/-- Add a token. -/
def emit (t : Token) (l : Lexer) : Lexer := { l with tokens := t :: l.tokens }

/-- Add tokens behind the first `before` of them. -/
def insert (before : Nat) (ts : List Token) (l : Lexer) : Lexer :=
  let after := l.tokens.length - before
  { l with tokens := l.tokens.take after ++ ts.reverse ++ l.tokens.drop after }

/-! ## Blanks and comments -/

/-- Pass over blanks, comments and line ends, and tell whether a key may start
behind them.  Outside brackets it may on a new line, and a tab cannot stand
where a key may.  A byte order mark at the start of a line is passed over. -/
def skipSpace (inFlow : Bool) (keyAllowed comment : Bool) : List Glyph → Bool × List Glyph
  | [] => (keyAllowed, [])
  | g :: rest =>
    if isBreak g.char then skipSpace inFlow (keyAllowed || !inFlow) false rest
    else if comment || g.char = ' ' || ((inFlow || !keyAllowed) && g.char = '\t') then
      skipSpace inFlow keyAllowed comment rest
    else if g.char = '#' then skipSpace inFlow keyAllowed true rest
    else if g.char = byteOrderMark && g.column = 0 then skipSpace inFlow keyAllowed false rest
    else (keyAllowed, g :: rest)

/-! ## Places of keys -/

/-- Give the current place up. -/
def dropKey? (l : Lexer) : Option Lexer :=
  if l.key.any (·.required) then none else some { l with key := none }

/-- Remember that a key may start at a glyph. -/
def saveKey? (g : Glyph) (l : Lexer) : Option Lexer :=
  if l.keyAllowed then
    let required := !l.inFlow && l.blocks.head? = some g.column
    l.dropKey?.map fun l =>
      { l with key := some ⟨l.tokens.length, g.line, g.column, g.offset, required⟩ }
  else some l

/-- A place, if a colon at a glyph can still belong to it.  The result is `none`
if the place is lost and was required. -/
def keepKey? (g : Glyph) (key : Option KeyPlace) : Option (Option KeyPlace) :=
  match key with
  | none => some none
  | some k =>
    if k.line = g.line && g.offset ≤ k.offset + 1024 then some (some k)
    else if k.required then none
    else some none

/-- Give up the places that are too far from a glyph. -/
def expireKeys? (g : Glyph) (l : Lexer) : Option Lexer := do
  let key ← keepKey? g l.key
  let outerKeys ← l.outerKeys.mapM (keepKey? g)
  return { l with key, outerKeys }

/-! ## Blocks -/

/-- Close the blocks for which `p` holds of the column, from the innermost on. -/
def closeBlocks (p : Nat → Bool) (l : Lexer) : Lexer :=
  if l.inFlow then l
  else
    { l with
      tokens := (l.blocks.takeWhile p).map (fun _ => Token.blockEnd) ++ l.tokens
      blocks := l.blocks.dropWhile p }

/-- Open a block at a column, unless one is open there, with the tokens
that come before its first `key` or `item`. -/
def openBlock (column before : Nat) (t : Token) (l : Lexer) : Lexer :=
  if l.inFlow || !l.blocks.head?.all (· < column) then l
  else { l.insert before [t] with blocks := column :: l.blocks }

/-! ## Tokens -/

/-- A mark between documents, which closes every block. -/
def mark? (t : Token) (rest : List Glyph) (l : Lexer) : Option Lexer :=
  (l.closeBlocks fun _ => true).dropKey?.map fun l =>
    emit t { l with rest, keyAllowed := false }

/-- An opening bracket at a glyph. -/
def openBracket? (t : Token) (g : Glyph) (rest : List Glyph) (l : Lexer) : Option Lexer :=
  (l.saveKey? g).map fun l =>
    emit t { l with rest, key := none, outerKeys := l.key :: l.outerKeys, keyAllowed := true }

/-- A closing bracket. -/
def closeBracket? (t : Token) (rest : List Glyph) (l : Lexer) : Option Lexer :=
  l.dropKey?.map fun l =>
    emit t
      { l with
        rest
        key := l.outerKeys.head?.getD l.key
        outerKeys := l.outerKeys.tail
        keyAllowed := false }

/-- A comma. -/
def comma? (rest : List Glyph) (l : Lexer) : Option Lexer :=
  l.dropKey?.map fun l => emit .comma { l with rest, keyAllowed := true }

/-- A hyphen before an item. -/
def item? (g : Glyph) (rest : List Glyph) (l : Lexer) : Option Lexer :=
  if !l.inFlow && !l.keyAllowed then none
  else (l.openBlock g.column l.tokens.length .blockSequence).dropKey?.map fun l =>
    emit .item { l with rest, keyAllowed := true }

/-- A question mark before a key. -/
def key? (g : Glyph) (rest : List Glyph) (l : Lexer) : Option Lexer :=
  if !l.inFlow && !l.keyAllowed then none
  else (l.openBlock g.column l.tokens.length .blockMapping).dropKey?.map fun l =>
    emit .key { l with rest, keyAllowed := !l.inFlow }

/-- A colon before a value.  If a place of a key is open, the key is there.
Otherwise the key was written with a question mark, or is missing. -/
def value? (g : Glyph) (rest : List Glyph) (l : Lexer) : Option Lexer :=
  match l.key with
  | some k =>
    let l := (l.insert k.before [.key]).openBlock k.column k.before .blockMapping
    some (emit .value { l with rest, key := none, keyAllowed := false })
  | none =>
    if !l.inFlow && !l.keyAllowed then none
    else
      let l := l.openBlock g.column l.tokens.length .blockMapping
      some (emit .value { l with rest, keyAllowed := !l.inFlow })

/-- A token that can be a key, or a property of one. -/
def keyed? (g : Glyph) (t : Token) (rest : List Glyph) (l : Lexer) : Option Lexer :=
  (l.saveKey? g).map fun l => emit t { l with rest, keyAllowed := false }

/-- A block scalar. -/
def block? (folded : Bool) (rest : List Glyph) (l : Lexer) : Option Lexer := do
  let l ← l.dropKey?
  let (text, rest) ← blockScalar? folded l.margin rest
  let style := if folded then Style.folded else Style.literal
  return emit (.scalar style text) { l with rest, keyAllowed := true }

/-- A plain scalar.  A line end after it lets a key start. -/
def plainScalar? (g : Glyph) (rest : List Glyph) (l : Lexer) : Option Lexer := do
  let (text, broken, rest) ← plain? l.inFlow l.margin .empty (g :: rest)
  let l ← l.keyed? g (.scalar .plain text) rest
  return { l with keyAllowed := broken }

/-- Read the token that starts at a glyph. -/
def token? (g : Glyph) (rest : List Glyph) (l : Lexer) : Option Lexer :=
  let c := g.char
  if g.column = 0 && c = '%' then do
    let (t, rest) ← directive? (g :: rest)
    l.mark? t rest
  else if startsMark (g :: rest) then
    l.mark? (if c = '-' then .documentStart else .documentEnd) (rest.drop 2)
  else if c = '[' then l.openBracket? .openSquare g rest
  else if c = '\x7b' then l.openBracket? .openCurly g rest
  else if c = ']' then l.closeBracket? .closeSquare rest
  else if c = '\x7d' then l.closeBracket? .closeCurly rest
  else if c = ',' then l.comma? rest
  else if c = '-' && startsBlank rest then l.item? g rest
  else if c = '?' && (l.inFlow || startsBlank rest) then l.key? g rest
  else if c = ':' && (l.inFlow || startsBlank rest) then l.value? g rest
  else if c = '*' then do
    let (name, rest) ← anchorName? rest
    l.keyed? g (.reference name) rest
  else if c = '&' then do
    let (name, rest) ← anchorName? rest
    l.keyed? g (.anchor name) rest
  else if c = '!' then do
    let (t, rest) ← tag? l.inFlow (g :: rest)
    l.keyed? g t rest
  else if c = '|' && !l.inFlow then l.block? false rest
  else if c = '>' && !l.inFlow then l.block? true rest
  else if c = '\'' then do
    let (text, rest) ← singleQuoted? .empty rest
    l.keyed? g (.scalar .quoted text) rest
  else if c = '"' then do
    let (text, rest) ← doubleQuoted? .empty rest
    l.keyed? g (.scalar .quoted text) rest
  else if startsPlain l.inFlow c rest then l.plainScalar? g rest
  else none

/-- Pass over blanks and read a token, or close every block at the end of the
document.  The number bounds the tokens. -/
def run : Nat → Lexer → Option (List Token)
  | 0, _ => none
  | fuel + 1, l =>
    let (keyAllowed, rest) := skipSpace l.inFlow l.keyAllowed false l.rest
    let l := { l with keyAllowed, rest }
    match rest with
    | [] => (l.closeBlocks fun _ => true).dropKey?.map fun l => l.tokens.reverse
    | g :: after =>
      match l.expireKeys? g with
      | none => none
      | some l =>
        match (l.closeBlocks (g.column < ·)).token? g after with
        | none => none
        | some l => run fuel l

end Lexer

/-- The tokens of a document. -/
def Token.ofGlyphs? (gs : List Glyph) : Option (List Token) :=
  Lexer.run (gs.length + 1) { rest := gs }

end ShapeAnalysis.Yaml
