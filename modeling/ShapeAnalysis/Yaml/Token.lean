/-!
# Tokens

The tokens of a document.  Beside the indicators that are written, there are
tokens for what the layout says: where blocks start and end and where keys
start.  Tags are made of bytes, which need not spell a text.
-/

namespace ShapeAnalysis.Yaml

/-- How a scalar is written. -/
inductive Style where
  /-- Without quotes. -/
  | plain
  /-- Between single or double quotes. -/
  | quoted
  /-- As a block that keeps its line ends. -/
  | literal
  /-- As a block whose lines are folded. -/
  | folded
deriving DecidableEq, Repr, Inhabited

/-- A token of a document. -/
inductive Token where
  /-- The version a document is written for. -/
  | version (major minor : Nat)
  /-- A handle and the bytes it stands for in tags. -/
  | handle (name : List Char) (bytes : List UInt8)
  /-- The mark that a document starts. -/
  | documentStart
  /-- The mark that a document ends. -/
  | documentEnd
  /-- A block sequence starts. -/
  | blockSequence
  /-- A block mapping starts. -/
  | blockMapping
  /-- The innermost block ends. -/
  | blockEnd
  /-- An opening square bracket. -/
  | openSquare
  /-- A closing square bracket. -/
  | closeSquare
  /-- An opening curly bracket. -/
  | openCurly
  /-- A closing curly bracket. -/
  | closeCurly
  /-- The hyphen before an item. -/
  | item
  /-- The comma between items. -/
  | comma
  /-- A key starts. -/
  | key
  /-- The colon before a value. -/
  | value
  /-- A use of an anchored node. -/
  | reference (name : List Char)
  /-- A name for the node that follows. -/
  | anchor (name : List Char)
  /-- A tag, with the handle it starts with. -/
  | tag (handle : List Char) (suffix : List UInt8)
  /-- A scalar. -/
  | scalar (style : Style) (text : List Char)
deriving DecidableEq, Repr, Inhabited

end ShapeAnalysis.Yaml
