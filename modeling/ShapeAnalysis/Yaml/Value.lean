import ShapeAnalysis.Yaml.Glyph
import ShapeAnalysis.Yaml.Node

/-!
# What nodes stand for

A plain scalar can stand for a number, a truth value or nothing, and a quoted
one is always a text.  A block that keeps its line ends stands for a number or a
truth value if it is tagged so.
-/

namespace ShapeAnalysis.Yaml

/-- The tag of a type that every document knows. -/
def coreTag (name : String) : List UInt8 :=
  asciiBytes ("tag:yaml.org,2002:".toList ++ name.toList)

/-- The name that a tag chooses.  It follows an exclamation mark, and a mark on
its own is a name too.  Bytes that spell no text choose nothing. -/
def chosen? : List UInt8 → Option (List Char)
  | [] => none
  | mark :: rest =>
    if mark ≠ 0x21 then none
    else (String.fromUTF8? ⟨(if rest.isEmpty then [mark] else rest).toArray⟩).map String.toList

/-- Whether a text spells that there is nothing. -/
def isNull (text : List Char) : Bool :=
  text ∈ ["~".toList, "null".toList, "Null".toList, "NULL".toList]

/-- The truth value that a text spells. -/
def bool? (text : List Char) : Option Bool :=
  if text ∈ ["true".toList, "True".toList, "TRUE".toList] then some true
  else if text ∈ ["false".toList, "False".toList, "FALSE".toList] then some false
  else none

/-- The natural number that a text spells.  A base may be marked by `0x`, `0o`
or `0b`, a plus sign may come first, and a decimal with more than one digit does
not start with `0`. -/
def number? (text : List Char) : Option Nat :=
  let body := match text with
    | '+' :: rest => rest
    | _ => text
  match body with
  | '0' :: 'x' :: rest => digits? 16 rest
  | '0' :: 'o' :: rest => digits? 8 rest
  | '0' :: 'b' :: rest => digits? 2 rest
  | '0' :: _ :: _ => none
  | _ => digits? 10 body

namespace Node

/-- The text of a scalar. -/
def text? : Node → Option (List Char)
  | scalar _ _ text => some text
  | _ => none

/-- The text of a scalar that can stand for a value of a core type. -/
def core? (type : String) : Node → Option (List Char)
  | scalar _ .plain text => some text
  | scalar p .literal text => if p.tag = some (coreTag type) then some text else none
  | _ => none

/-- The truth value a node stands for. -/
def bool? (n : Node) : Option Bool := (n.core? "bool").bind Yaml.bool?

/-- The number a node stands for, if it fits 64 bits. -/
def nat? (n : Node) : Option Nat :=
  match (n.core? "int").bind number? with
  | some k => if k < UInt64.size then some k else none
  | none => none

/-- The name of a choice.  A tag may choose it on a scalar that stands for
nothing, otherwise it is the text of the scalar. -/
def choice? : Node → Option (List Char)
  | scalar p style text =>
    match p.tag.bind chosen? with
    | some name => if style = .plain && (text.isEmpty || isNull text) then some name else none
    | none => some text
  | _ => none

/-- Whether the node gives a value, `none` if its tag says no and its text says
something else. -/
def isGiven? : Node → Option Bool
  | scalar p .plain text =>
    match p.tag with
    | none => some (!text.isEmpty && !isNull text)
    | some t =>
      if t ≠ coreTag "null" then some true
      else if isNull text then some false
      else none
  | _ => some true

/-- The entries of a mapping.  Where nothing is written there are none. -/
def entries? : Node → Option (List (Node × Node))
  | mapping _ entries => some entries
  | scalar _ .plain [] => some []
  | _ => none

end Node

end ShapeAnalysis.Yaml
