/-!
# Configuration errors

What can be wrong with a configuration, and the wording of it.
-/

namespace ShapeAnalysis

/-- Why a configuration was refused. -/
inductive ConfigError where
  /-- A number lies outside its range. -/
  | range (field : String) (value low high : Nat) (hint : String)
  /-- No preset has this name. -/
  | unknownPreset (name : String)
  /-- The pipeline of a role cannot honour a combination of flags. -/
  | policy (role issue : String)
  /-- The document is not well formed or does not describe a configuration. -/
  | yaml
  /-- The document could not be read. -/
  | io
deriving DecidableEq, Repr

/-- The wording of a configuration error. -/
def ConfigError.message : ConfigError → String
  | .range field value low high hint =>
    s!"Invalid range for field '{field}': {value} not in {low}..={high}. {hint}"
  | .unknownPreset name =>
    s!"Unknown preset '{name}'. Valid presets: fast, balanced, thorough, custom"
  | .policy role issue => s!"Invalid policy for {role} applier: {issue}"
  | .yaml => "YAML parsing error"
  | .io => "IO error"

end ShapeAnalysis
