import ShapeAnalysis.Config.Policy

/-!
# Analysis configuration

A preset, the join mode of abstract states, the bound of the action cache and
one policy per role.
-/

namespace ShapeAnalysis

/-- How an abstract state takes in a new structure. -/
inductive JoinMode where
  /-- One structure for each isomorphism class. -/
  | relational
  /-- Structures with the same canonical names are joined pointwise. -/
  | pointwise
deriving DecidableEq, Repr, Inhabited

namespace JoinMode

/-- The word for a join mode in documents. -/
def name : JoinMode → String
  | .relational => "relational"
  | .pointwise => "partial"

/-- The join mode with a given name. -/
def ofName? : String → Option JoinMode
  | "relational" => some .relational
  | "partial" => some .pointwise
  | _ => none

end JoinMode

/-- The settings of one analysis. -/
structure Config where
  /-- The preset the policies started from. -/
  preset : Preset
  /-- How abstract states join. -/
  join : JoinMode
  /-- The bound of the action cache. -/
  cacheCapacity : Nat
  /-- The policy of plain statements. -/
  intra : Policy
  /-- The policy of guards. -/
  guard : Policy
  /-- The policy of calls. -/
  call : Policy
  /-- The policy of returns. -/
  ret : Policy
deriving DecidableEq, Repr, Inhabited

namespace Config

/-- The bound of the action cache when none is given. -/
def standardCapacity : Nat := 500

/-- The largest bound of the action cache. -/
def maxCapacity : Nat := 100000

/-- The configuration of a preset. -/
def ofPreset (preset : Preset) : Config where
  preset
  join := .relational
  cacheCapacity := standardCapacity
  intra := .ofPreset preset .intra
  guard := .ofPreset preset .guard
  call := .ofPreset preset .call
  ret := .ofPreset preset .ret

/-- The configuration used when nothing is chosen. -/
def standard : Config := ofPreset .standard

/-- The policy of a role. -/
def policy (c : Config) : Role → Policy
  | .intra => c.intra
  | .guard => c.guard
  | .call => c.call
  | .ret => c.ret

/-- Replace the policy of a role. -/
def setPolicy (c : Config) (role : Role) (p : Policy) : Config :=
  match role with
  | .intra => { c with intra := p }
  | .guard => { c with guard := p }
  | .call => { c with call := p }
  | .ret => { c with ret := p }

/-- Give every role the same policy, with coerce after focus off for returns. -/
def withAllPolicies (c : Config) (p : Policy) : Config :=
  { c with intra := p, guard := p, call := p, ret := { p with coerceAfterFocus := false } }

/-- Check the capacity first and then the policies in the order of the roles. -/
def validate (c : Config) : Except ConfigError Unit := do
  if c.cacheCapacity = 0 ∨ c.cacheCapacity > maxCapacity then
    throw (.range "action_cache_capacity" c.cacheCapacity 1 maxCapacity
      "Use 500 for typical analyses")
  c.intra.validateFor .intra
  c.guard.validateFor .guard
  c.call.validateFor .call
  c.ret.validateFor .ret

/-- The name of this kind of setting in messages. -/
def settingName : String := "AnalysisConfig"

end Config

end ShapeAnalysis
