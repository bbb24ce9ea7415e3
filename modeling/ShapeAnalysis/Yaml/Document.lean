import ShapeAnalysis.Yaml.Lexer
import ShapeAnalysis.Yaml.Node

/-!
# Documents

A text holds one document.  Directives may come before its start mark, and end
marks may follow it.  A text without content is a document that misses its node.
-/

namespace ShapeAnalysis.Yaml

/-- A document. -/
structure Document where
  /-- The node at the top. -/
  root : Node
deriving Inhabited

namespace Document

/-! ## Directives -/

/-- Read the directives at the front.  The version is given at most once and is
1.1 or 1.2, and a handle is defined at most once. -/
def directives? (versioned : Bool) (hs : Handles) : List Token → Option (Handles × List Token)
  | .version major minor :: ts =>
    if versioned || major ≠ 1 || (minor ≠ 1 && minor ≠ 2) then none
    else directives? true hs ts
  | .handle name text :: ts =>
    if hs.any (·.1 = name) then none else directives? versioned ((name, text) :: hs) ts
  | ts => some (hs ++ Handles.standard, ts)

/-- Whether no content comes before the next mark or directive. -/
def isOver : List Token → Bool
  | [] => true
  | .version _ _ :: _ | .handle _ _ :: _ | .documentStart :: _ | .documentEnd :: _ => true
  | _ => false

/-! ## Reading -/

/-- Read the node at the top. -/
def root? (hs : Handles) (ts : List Token) : Option (Node × List Token) :=
  (Node.read? hs (2 * ts.length + 2) .item { tokens := ts }).map fun (n, s) => (n, s.tokens)

/-- Read the tokens of a document. -/
def ofTokens? (ts : List Token) : Option Document := do
  let (root, after) ←
    match ts with
    | [] => some (.missing, [])
    | .version _ _ :: _ | .handle _ _ :: _ | .documentStart :: _ => do
      let (hs, ts) ← directives? false [] ts
      match ts with
      | .documentStart :: ts => if isOver ts then some (.missing, ts) else root? hs ts
      | _ => none
    | ts => root? Handles.standard ts
  if after.all (· = .documentEnd) then some ⟨root⟩ else none

/-- Read a text. -/
def parse? (text : String) : Option Document :=
  let cs := text.toList
  if cs.all isAllowed then (Token.ofGlyphs? (Glyph.ofText 0 0 0 cs)).bind ofTokens? else none

/-! ## References -/

/-- The node that a reference stands for, and any other node itself. -/
def resolve (d : Document) : Node → Node
  | .reference n =>
    ((d.root.anchored.reverse.find? (·.1 = n)).map Prod.snd).getD .missing
  | node => node

end Document

end ShapeAnalysis.Yaml
