import ShapeAnalysis.Config.Error
import ShapeAnalysis.Text.Blank

/-!
# Presets

A preset chooses how much sharpening the pipeline does and what a failed
sharpening means.
-/

namespace ShapeAnalysis

/-- A named choice of pipeline flags. -/
inductive Preset where
  /-- No coerce after update. -/
  | fast
  /-- Coerce after update and drop the branches that fail. -/
  | balanced
  /-- Coerce after focus too, and stop when coerce after update fails. -/
  | thorough
  /-- The flags of `balanced`, meant to be overridden role by role. -/
  | custom
deriving DecidableEq, Repr, Inhabited

namespace Preset

/-- The preset used when none is chosen. -/
def standard : Preset := balanced

/-- Every preset. -/
def all : List Preset := [fast, balanced, thorough, custom]

/-- The name of a preset. -/
def name : Preset → String
  | fast => "fast"
  | balanced => "balanced"
  | thorough => "thorough"
  | custom => "custom"

/-- Whether focused structures are coerced. -/
def coercesAfterFocus : Preset → Bool
  | thorough => true
  | _ => false

/-- Whether updated structures are coerced. -/
def coercesAfterUpdate : Preset → Bool
  | fast => false
  | _ => true

/-- Whether a failed coerce after update stops the run. -/
def abortsOnCoerceFailure : Preset → Bool
  | thorough => true
  | _ => false

/-- The preset with exactly this name. -/
def ofName? (name : String) : Option Preset := all.find? fun p => p.name == name

/-- Read a preset name, whatever its case and the blanks around it.  Only ASCII
letters change case here, and no other letter has a lower case form that occurs
in a name. -/
def parse (s : String) : Except ConfigError Preset :=
  match ofName? (String.ofList ((Text.trim s.toList).map Char.toLower)) with
  | some p => .ok p
  | none => .error (.unknownPreset s)

end Preset

end ShapeAnalysis
