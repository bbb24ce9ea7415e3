import ShapeAnalysis.Config.Preset

/-!
# Roles and policies

The interprocedural layer applies actions in four roles.  Each role runs the
same pipeline under its own policy, a record of seven flags.  A policy has to be
valid for its role: blur bounds the domain and stays on, a return action is
coerced only after its update, and stopping on a failed coerce needs a coerce.
-/

namespace ShapeAnalysis

/-- What an applied action is to the interprocedural layer. -/
inductive Role where
  /-- A statement inside a method. -/
  | intra
  /-- The guard of a virtual call. -/
  | guard
  /-- Passing from a call site into the callee. -/
  | call
  /-- Coming back from the callee. -/
  | ret
deriving DecidableEq, Repr, Inhabited

namespace Role

/-- Every role, in the order in which policies are checked. -/
def all : List Role := [intra, guard, call, ret]

/-- The word for a role in reports and messages. -/
def marker : Role → String
  | intra => "intra"
  | guard => "guard"
  | call => "call"
  | ret => "return"

/-- The word for a role in diagnostics. -/
def title : Role → String
  | intra => "Intra"
  | guard => "Guard"
  | call => "Call"
  | ret => "Ret"

end Role

/-- The flags of one role's pipeline. -/
structure Policy where
  /-- Split structures on the focus formulas of the action. -/
  focus : Bool := true
  /-- Drop focused structures that break a constraint. -/
  coerceAfterFocus : Bool := false
  /-- Drop updated structures that break a constraint. -/
  coerceAfterUpdate : Bool := true
  /-- Merge nodes with equal canonical names after the update. -/
  blur : Bool := true
  /-- Drop the branches on which a message fired. -/
  freezeOnMessages : Bool := false
  /-- Stop when coerce after update fails. -/
  breakOnCoerceFailure : Bool := false
  /-- Log the structures refused by coerce after focus. -/
  printOnCoerceFailure : Bool := false
deriving DecidableEq, Repr, Inhabited

namespace Policy

/-- The policy of a role under a preset.  A return action is never coerced
after focus. -/
def ofPreset (preset : Preset) (role : Role) : Policy :=
  { coerceAfterFocus := role ≠ .ret && preset.coercesAfterFocus
    coerceAfterUpdate := preset.coercesAfterUpdate
    breakOnCoerceFailure := preset.abortsOnCoerceFailure
    printOnCoerceFailure := preset.coercesAfterFocus }

/-- Check a policy for the role it is used in. -/
def validateFor (p : Policy) (role : Role) : Except ConfigError Unit :=
  if !p.blur then
    .error (.policy role.marker "blur cannot be disabled; it bounds the abstract domain")
  else if role = .ret && p.coerceAfterFocus then
    .error (.policy role.marker "coerce after focus must be off for return actions")
  else if p.breakOnCoerceFailure && !p.coerceAfterUpdate then
    .error (.policy role.marker
      "break_if_coerce_after_update_failed requires do_coerce_after_update")
  else .ok ()

/-- Check a policy for the role of a plain statement. -/
def validate (p : Policy) : Except ConfigError Unit := p.validateFor .intra

/-- The name of this kind of setting in messages. -/
def settingName : String := "ApplierPolicy"

/-- The flags with their names in documents, in the order of the record. -/
def flags (p : Policy) : List (String × Bool) :=
  [("do_focus", p.focus),
   ("do_coerce_after_focus", p.coerceAfterFocus),
   ("do_coerce_after_update", p.coerceAfterUpdate),
   ("do_blur", p.blur),
   ("freeze_structures_with_messages", p.freezeOnMessages),
   ("break_if_coerce_after_update_failed", p.breakOnCoerceFailure),
   ("print_structure_if_coerce_after_focus_failed", p.printOnCoerceFailure)]

/-- Set the flag with a given name, or `none` if no flag has it. -/
def setFlag? (p : Policy) (flag : String) (on : Bool) : Option Policy :=
  match flag with
  | "do_focus" => some { p with focus := on }
  | "do_coerce_after_focus" => some { p with coerceAfterFocus := on }
  | "do_coerce_after_update" => some { p with coerceAfterUpdate := on }
  | "do_blur" => some { p with blur := on }
  | "freeze_structures_with_messages" => some { p with freezeOnMessages := on }
  | "break_if_coerce_after_update_failed" => some { p with breakOnCoerceFailure := on }
  | "print_structure_if_coerce_after_focus_failed" => some { p with printOnCoerceFailure := on }
  | _ => none

/-- The policy as one line of diagnostics. -/
def describe (p : Policy) : String :=
  let shown := p.flags.map fun (flag, on) => flag ++ ": " ++ toString on
  "ApplierPolicy \x7b " ++ ", ".intercalate shown ++ " \x7d"

end Policy

end ShapeAnalysis
