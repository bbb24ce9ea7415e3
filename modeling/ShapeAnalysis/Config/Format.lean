import ShapeAnalysis.Config.Basic
import ShapeAnalysis.Text.Layout

/-!
# Formats of configuration documents

A configuration is handed to a document format as a record: the settings by name in the order
of their declaration, with every policy a record of flags.  A *format* writes a record as a
text.  It also reads a text down to the node at the top, and says what a node stands for.

Everything about configurations takes the format as an argument.  Two laws are all that the
theory asks of it.  The writer puts each setting on a line of its own and the flags of a policy
on lines below it (`WritesFields`).  The reader takes such a text apart into the same fields
(`ReadsFields`).  What becomes of fields that are missing, unknown or null is not its business.
-/

namespace ShapeAnalysis

/-! ## Records -/

/-- What a record hands to a format for one of its fields. -/
inductive Field where
  /-- The name of a choice. -/
  | choice (name : String)
  /-- A number. -/
  | number (n : Nat)
  /-- A record of flags. -/
  | flags (flags : List (String × Bool))
deriving DecidableEq, Repr

/-- The lines of a field.  Flags are indented below its key. -/
def Field.toLines (key : String) : Field → List String
  | choice name => [key ++ ": " ++ name]
  | number n => [key ++ ": " ++ toString n]
  | flags fs =>
    (key ++ ":") :: fs.map fun (flag, on) => "  " ++ flag ++ ": " ++ if on then "true" else "false"

namespace Config

/-- The fields of a configuration, in the order of their declaration. -/
def fields (c : Config) : List (String × Field) :=
  [("preset", .choice c.preset.name),
   ("join", .choice c.join.name),
   ("action_cache_capacity", .number c.cacheCapacity),
   ("intra", .flags c.intra.flags),
   ("guard", .flags c.guard.flags),
   ("call", .flags c.call.flags),
   ("ret", .flags c.ret.flags)]

/-- A configuration as a document: `key: value` lines, with the policies nested. -/
def toYaml (c : Config) : String :=
  Text.unlines (c.fields.flatMap fun (key, x) => x.toLines key)

end Config

/-! ## Formats -/

/-- A writer and a reader of documents. -/
structure DocumentFormat where
  /-- A node of a document that was read. -/
  Node : Type
  /-- Write a record. -/
  write? : List (String × Field) → Option String
  /-- Read a text, down to the node at the top. -/
  read? : String → Option Node
  /-- The entries of a mapping by name, in their order. -/
  entries? : Node → Option (List (String × Node))
  /-- The truth value that a node stands for. -/
  bool? : Node → Option Bool
  /-- The number that a node stands for, if it fits 64 bits. -/
  nat? : Node → Option Nat
  /-- The name of the choice that a node stands for. -/
  choice? : Node → Option String
  /-- Whether a node gives a value at all, if it is well formed. -/
  isGiven? : Node → Option Bool

namespace DocumentFormat

variable (F : DocumentFormat)

/-- A node has just these entries, in this order, each with a node of which `P` holds. -/
def Lists {α : Type} (n : F.Node) (fs : List (String × α)) (P : F.Node → α → Prop) : Prop :=
  ∃ node : String × α → F.Node, F.entries? n = some (fs.map fun f => (f.1, node f)) ∧
    ∀ f ∈ fs, P (node f) f.2

/-- A node stands for a field. -/
def Presents (n : F.Node) : Field → Prop
  | .choice name => F.isGiven? n = some true ∧ F.choice? n = some name
  | .number k => F.isGiven? n = some true ∧ F.nat? n = some k
  | .flags fs => F.isGiven? n = some true ∧ F.Lists n fs fun m on => F.bool? m = some on

/-- Every configuration is written as `key: value` lines in the order of its fields, with the
policies nested. -/
def WritesFields : Prop := ∀ c : Config, F.write? c.fields = some c.toYaml

/-- The document of a configuration is read back field by field.  Capacities are numbers of
64 bits. -/
def ReadsFields : Prop :=
  ∀ c : Config, c.cacheCapacity < UInt64.size →
    ∃ n, F.read? c.toYaml = some n ∧ F.Lists n c.fields F.Presents

end DocumentFormat

end ShapeAnalysis
