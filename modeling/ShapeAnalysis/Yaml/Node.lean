import ShapeAnalysis.Yaml.Glyph
import ShapeAnalysis.Yaml.Token

/-!
# Nodes

A document is a tree of scalars, sequences and mappings.  Any node may have a
tag and an anchor, and a reference stands for the node with its anchor.

Anchors are known by numbers.  A new anchor gets the number of names known
before it, and a reference stands for the last node with the number that its
name has at that point.
-/

namespace ShapeAnalysis.Yaml

/-- The properties of a node. -/
structure Properties where
  /-- The bytes of the tag. -/
  tag : Option (List UInt8) := none
  /-- The number of the anchor. -/
  anchor : Option Nat := none
deriving DecidableEq, Repr, Inhabited

/-- A node of a document. -/
inductive Node where
  /-- A scalar. -/
  | scalar (properties : Properties) (style : Style) (text : List Char)
  /-- A sequence. -/
  | sequence (properties : Properties) (items : List Node)
  /-- A mapping, entries in the order of the document. -/
  | mapping (properties : Properties) (entries : List (Node × Node))
  /-- A reference to an anchor. -/
  | reference (anchor : Nat)
deriving Inhabited

namespace Node

/-- The node that stands where nothing is written. -/
def missing : Node := scalar {} .plain []

mutual

/-- The nodes with an anchor at or below a node, each before those below it. -/
def anchored : Node → List (Nat × Node)
  | scalar p style text => (p.anchor.map (·, scalar p style text)).toList
  | sequence p items => (p.anchor.map (·, sequence p items)).toList ++ anchoredItems items
  | mapping p entries => (p.anchor.map (·, mapping p entries)).toList ++ anchoredEntries entries
  | reference _ => []

/-- The nodes with an anchor among items. -/
def anchoredItems : List Node → List (Nat × Node)
  | [] => []
  | n :: rest => n.anchored ++ anchoredItems rest

/-- The nodes with an anchor among entries. -/
def anchoredEntries : List (Node × Node) → List (Nat × Node)
  | [] => []
  | (k, v) :: rest => k.anchored ++ v.anchored ++ anchoredEntries rest

end

end Node

/-! ## Names -/

/-- The bytes that handles of tags stand for. -/
abbrev Handles := List (List Char × List UInt8)

namespace Handles

/-- The handles that need no definition. -/
def standard : Handles :=
  [(['!'], asciiBytes ['!']), (['!', '!'], asciiBytes "tag:yaml.org,2002:".toList)]

/-- The tag that a handle and a suffix make up. -/
def tag? (hs : Handles) (handle : List Char) (suffix : List UInt8) : Option (List UInt8) :=
  if handle.isEmpty then some suffix
  else (hs.find? (·.1 = handle)).map (·.2 ++ suffix)

end Handles

/-- What is left of the tokens, with the anchors known so far. -/
structure Source where
  /-- The tokens. -/
  tokens : List Token
  /-- The names of the anchors with their numbers. -/
  anchors : List (List Char × Nat) := []
deriving Inhabited

namespace Source

/-- The source with other tokens. -/
def withTokens (s : Source) (ts : List Token) : Source := { s with tokens := ts }

/-- Give a name the next number. -/
def addAnchor (s : Source) (name : List Char) : Nat × Source :=
  let n := s.anchors.length
  (n, { s with anchors := (name, n) :: s.anchors.filter (·.1 ≠ name) })

/-- Read an anchor, if there is one. -/
def anchor (s : Source) : Option Nat × Source :=
  match s.tokens with
  | .anchor name :: ts =>
    let (n, s) := (s.withTokens ts).addAnchor name
    (some n, s)
  | _ => (none, s)

/-- Read a tag, if there is one. -/
def tag? (hs : Handles) (s : Source) : Option (Option (List UInt8) × Source) :=
  match s.tokens with
  | .tag handle suffix :: ts => (hs.tag? handle suffix).map fun t => (some t, s.withTokens ts)
  | _ => some (none, s)

/-- Read an anchor and a tag in either order. -/
def properties? (hs : Handles) (s : Source) : Option (Properties × Source) := do
  let (anchor, s) := s.anchor
  let (tag, s) ← s.tag? hs
  if anchor.isNone then
    let (anchor, s) := s.anchor
    return (⟨tag, anchor⟩, s)
  return (⟨tag, anchor⟩, s)

end Source

/-! ## Reading -/

/-- Where a node stands. -/
inductive Position where
  /-- At the top or behind a hyphen. -/
  | item
  /-- In a block mapping, where a sequence may be indented as much as the
  mapping. -/
  | field
  /-- Inside brackets. -/
  | flow
deriving DecidableEq, Repr

namespace Node

/-- Whether the tokens go on with nothing that belongs to an item of a block
sequence. -/
def emptyItem : List Token → Bool
  | .item :: _ | .blockEnd :: _ => true
  | _ => false

/-- Whether the tokens go on with nothing that belongs to a key or a value of a
block mapping. -/
def emptyField : List Token → Bool
  | .key :: _ | .value :: _ | .blockEnd :: _ => true
  | _ => false

/-- Whether the tokens go on with nothing that belongs to a value inside curly
brackets. -/
def emptyCurly : List Token → Bool
  | .comma :: _ | .closeCurly :: _ => true
  | _ => false

/-- Whether the tokens go on with nothing that belongs to a value inside square
brackets. -/
def emptySquare : List Token → Bool
  | .comma :: _ | .closeSquare :: _ => true
  | _ => false

mutual

/-- Read a node.  The number bounds the steps. -/
def read? (hs : Handles) : Nat → Position → Source → Option (Node × Source)
  | 0, _, _ => none
  | fuel + 1, position, s =>
    match s.tokens with
    | .reference name :: ts =>
      (s.anchors.find? (·.1 = name)).map fun (_, n) => (reference n, s.withTokens ts)
    | _ => do
      let (p, s) ← s.properties? hs
      match s.tokens, position with
      | .item :: _, .field => do
        let (items, s) ← looseItems? hs fuel s
        return (sequence p items, s)
      | .scalar style text :: ts, _ => return (scalar p style text, s.withTokens ts)
      | .openSquare :: ts, _ => do
        let (items, s) ← squareItems? hs fuel true (s.withTokens ts)
        return (sequence p items, s)
      | .openCurly :: ts, _ => do
        let (entries, s) ← curlyEntries? hs fuel true (s.withTokens ts)
        return (mapping p entries, s)
      | .blockSequence :: ts, .item | .blockSequence :: ts, .field => do
        let (items, s) ← blockItems? hs fuel (s.withTokens ts)
        return (sequence p items, s)
      | .blockMapping :: ts, .item | .blockMapping :: ts, .field => do
        let (entries, s) ← blockEntries? hs fuel (s.withTokens ts)
        return (mapping p entries, s)
      | _, _ => if p = {} then none else return (scalar p .plain [], s)
termination_by structural fuel => fuel

/-- Read the items of a block sequence to its end. -/
def blockItems? (hs : Handles) : Nat → Source → Option (List Node × Source)
  | 0, _ => none
  | fuel + 1, s =>
    match s.tokens with
    | .blockEnd :: ts => some ([], s.withTokens ts)
    | .item :: ts => do
      let (n, s) ←
        if emptyItem ts then some (missing, s.withTokens ts)
        else read? hs fuel .item (s.withTokens ts)
      let (ns, s) ← blockItems? hs fuel s
      return (n :: ns, s)
    | _ => none
termination_by structural fuel => fuel

/-- Read the items of a sequence that is indented as much as the mapping around
it. -/
def looseItems? (hs : Handles) : Nat → Source → Option (List Node × Source)
  | 0, _ => none
  | fuel + 1, s =>
    match s.tokens with
    | .item :: ts => do
      let (n, s) ←
        if emptyItem ts || emptyField ts then some (missing, s.withTokens ts)
        else read? hs fuel .item (s.withTokens ts)
      let (ns, s) ← looseItems? hs fuel s
      return (n :: ns, s)
    | _ => some ([], s)
termination_by structural fuel => fuel

/-- Read the entries of a block mapping to its end. -/
def blockEntries? (hs : Handles) : Nat → Source → Option (List (Node × Node) × Source)
  | 0, _ => none
  | fuel + 1, s =>
    match s.tokens with
    | .blockEnd :: ts => some ([], s.withTokens ts)
    | .key :: ts => do
      let (k, s) ←
        if emptyField ts then some (missing, s.withTokens ts)
        else read? hs fuel .field (s.withTokens ts)
      let (v, s) ←
        match s.tokens with
        | .value :: ts =>
          if emptyField ts then some (missing, s.withTokens ts)
          else read? hs fuel .field (s.withTokens ts)
        | _ => some (missing, s)
      let (es, s) ← blockEntries? hs fuel s
      return ((k, v) :: es, s)
    | _ => none
termination_by structural fuel => fuel

/-- Read the items of a sequence to its closing bracket.  A comma comes before
each but the first, and a key with its value makes a mapping of its own. -/
def squareItems? (hs : Handles) : Nat → Bool → Source → Option (List Node × Source)
  | 0, _, _ => none
  | fuel + 1, first, s =>
    let next : Option (List Token) :=
      match s.tokens with
      | .comma :: ts => some (if first then .comma :: ts else ts)
      | .closeSquare :: ts => some (.closeSquare :: ts)
      | ts => if first then some ts else none
    match next with
    | none => none
    | some (.closeSquare :: ts) => some ([], s.withTokens ts)
    | some (.key :: ts) => do
      let (k, s) ←
        match ts with
        | .value :: ts | .comma :: ts | .closeSquare :: ts => some (missing, s.withTokens ts)
        | ts => read? hs fuel .flow (s.withTokens ts)
      let (v, s) ←
        match s.tokens with
        | .value :: ts =>
          if emptySquare ts then some (missing, s.withTokens ts)
          else read? hs fuel .flow (s.withTokens ts)
        | _ => some (missing, s)
      let (ns, s) ← squareItems? hs fuel false s
      return (mapping {} [(k, v)] :: ns, s)
    | some ts => do
      let (n, s) ← read? hs fuel .flow (s.withTokens ts)
      let (ns, s) ← squareItems? hs fuel false s
      return (n :: ns, s)
termination_by structural fuel => fuel

/-- Read the entries of a mapping to its closing bracket.  A comma comes before
each but the first, and a node without a colon is a key without a value. -/
def curlyEntries? (hs : Handles) : Nat → Bool → Source → Option (List (Node × Node) × Source)
  | 0, _, _ => none
  | fuel + 1, first, s =>
    let next : Option (List Token) :=
      match s.tokens with
      | .comma :: ts => some (if first then .comma :: ts else ts)
      | .closeCurly :: ts => some (.closeCurly :: ts)
      | ts => if first then some ts else none
    match next with
    | none => none
    | some (.closeCurly :: ts) => some ([], s.withTokens ts)
    | some (.key :: ts) => do
      let (k, s) ←
        if emptyCurly ts || ts.head? = some .value then some (missing, s.withTokens ts)
        else read? hs fuel .flow (s.withTokens ts)
      let (v, s) ←
        match s.tokens with
        | .value :: ts =>
          if emptyCurly ts then some (missing, s.withTokens ts)
          else read? hs fuel .flow (s.withTokens ts)
        | _ => some (missing, s)
      let (es, s) ← curlyEntries? hs fuel false s
      return ((k, v) :: es, s)
    | some ts => do
      let (k, s) ← read? hs fuel .flow (s.withTokens ts)
      let (es, s) ← curlyEntries? hs fuel false s
      return ((k, missing) :: es, s)
termination_by structural fuel => fuel

end

end Node

end ShapeAnalysis.Yaml
