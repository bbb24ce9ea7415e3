import ShapeAnalysis.Config.Settings
import ShapeAnalysis.Yaml.Document
import ShapeAnalysis.Yaml.Value

/-!
# Configurations as documents

The format of configuration documents.  References stand for the nodes they name, wherever a
key or a value is read.
-/

namespace ShapeAnalysis

namespace Yaml

/-- The entries of a mapping by name, if all its keys are scalars. -/
def Document.named? (d : Document) (n : Node) : Option (List (String × Node)) :=
  n.entries?.bind fun entries => entries.mapM fun (key, value) =>
    (d.resolve key).text?.map fun text => (String.ofList text, d.resolve value)

/-- The format of documents.  A node comes with the document that it belongs to. -/
def format : DocumentFormat where
  Node := Document × Node
  write? fs := some (Text.unlines (fs.flatMap fun (key, x) => x.toLines key))
  read? text := (Document.parse? text).map fun d => (d, d.root)
  entries? n := (n.1.named? n.2).map fun entries => entries.map fun e => (e.1, (n.1, e.2))
  bool? n := n.2.bool?
  nat? n := n.2.nat?
  choice? n := n.2.choice?.map String.ofList
  isGiven? n := n.2.isGiven?

end Yaml

/-- Read a configuration from a document and check it. -/
def Config.ofYaml (text : String) : Except ConfigError Config := Config.read Yaml.format text

/-- Read a configuration from the text of a file, `none` when the file could
not be read. -/
def Config.ofFile : Option String → Except ConfigError Config
  | none => .error .io
  | some text => Config.ofYaml text

end ShapeAnalysis
