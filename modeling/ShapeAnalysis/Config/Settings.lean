import ShapeAnalysis.Config.Format

/-!
# Reading settings

Reading takes any subset of the settings: what is missing or null comes from the preset.
Unknown settings are refused at the top and ignored inside a policy, and a setting may not be
given twice.  Flags of a policy that are not given are those of the default policy, whatever
the preset says.
-/

namespace ShapeAnalysis

/-- The settings that a document gives. -/
structure Settings where
  /-- The preset. -/
  preset : Option Preset
  /-- The join mode. -/
  join : Option JoinMode
  /-- The bound of the action cache. -/
  cacheCapacity : Option Nat
  /-- The policy of plain statements. -/
  intra : Option Policy
  /-- The policy of guards. -/
  guard : Option Policy
  /-- The policy of calls. -/
  call : Option Policy
  /-- The policy of returns. -/
  ret : Option Policy

namespace Settings

/-- The names of the settings. -/
def names : List String :=
  ["preset", "join", "action_cache_capacity", "intra", "guard", "call", "ret"]

/-- Fill the settings that are not given from the preset. -/
def resolve (s : Settings) : Config :=
  let base := Config.ofPreset (s.preset.getD .standard)
  { base with
    join := s.join.getD base.join
    cacheCapacity := s.cacheCapacity.getD base.cacheCapacity
    intra := s.intra.getD base.intra
    guard := s.guard.getD base.guard
    call := s.call.getD base.call
    ret := s.ret.getD base.ret }

section Read

variable (F : DocumentFormat)

/-- Set the flags of a policy from named values, in order.  A name that is no
flag is ignored, whatever its value. -/
def policyFrom (p : Policy) : List (String × F.Node) → Option Policy
  | [] => some p
  | (name, value) :: rest =>
    match p.setFlag? name ((F.bool? value).getD false) with
    | none => policyFrom p rest
    | some q => if (F.bool? value).isSome then policyFrom q rest else none

/-- Read a policy.  Flags that are not given are those of the default policy,
and none is given twice. -/
def policy? (n : F.Node) : Option Policy := do
  let given ← F.entries? n
  let flags := (given.map Prod.fst).filter fun name => (({} : Policy).setFlag? name false).isSome
  if flags.Nodup then policyFrom F {} given else none

/-- Read a preset name. -/
def preset? (n : F.Node) : Option Preset := (F.choice? n).bind Preset.ofName?

/-- Read a join mode. -/
def join? (n : F.Node) : Option JoinMode := (F.choice? n).bind JoinMode.ofName?

/-- Read a setting by name: absent and null settings are not given, any other
has to be readable. -/
def field? {α : Type} (read : F.Node → Option α) (given : List (String × F.Node))
    (name : String) : Option (Option α) :=
  match given.find? (·.1 == name) with
  | none => some none
  | some (_, n) =>
    match F.isGiven? n with
    | none => none
    | some true => (read n).map some
    | some false => some none

/-- Read the settings of a node. -/
def ofNode? (n : F.Node) : Option Settings := do
  let given ← F.entries? n
  let keys := given.map Prod.fst
  if !(keys.all (names.contains ·) && decide keys.Nodup) then failure
  return {
    preset := ← field? F (preset? F) given "preset"
    join := ← field? F (join? F) given "join"
    cacheCapacity := ← field? F F.nat? given "action_cache_capacity"
    intra := ← field? F (policy? F) given "intra"
    guard := ← field? F (policy? F) given "guard"
    call := ← field? F (policy? F) given "call"
    ret := ← field? F (policy? F) given "ret" }

end Read

end Settings

namespace Config

/-- Write a configuration. -/
def write (F : DocumentFormat) (c : Config) : Except ConfigError String :=
  match F.write? c.fields with
  | none => .error .yaml
  | some text => .ok text

/-- Read a configuration and check it. -/
def read (F : DocumentFormat) (text : String) : Except ConfigError Config :=
  match (F.read? text).bind (Settings.ofNode? F) with
  | none => .error .yaml
  | some s => do
    s.resolve.validate
    return s.resolve

end Config

end ShapeAnalysis
