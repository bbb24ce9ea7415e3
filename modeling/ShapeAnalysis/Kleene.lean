/-!
# Three-valued truth

The truth values of Kleene's strong logic.  They carry two orders.  The *truth
order* `ff < unknown < tt` gives conjunction and disjunction as minimum and
maximum.  The *information order* puts the two definite values below `unknown`:
`a.le b` says that `a` is at least as precise as `b`.
-/

namespace ShapeAnalysis

/-- A three-valued truth value. -/
inductive Kleene where
  /-- Definitely false. -/
  | ff
  /-- Either value is possible. -/
  | unknown
  /-- Definitely true. -/
  | tt
deriving DecidableEq, Repr, Inhabited

namespace Kleene

/-! ## Codes and texts -/

/-- The code of a value: 0, 1 or 2 along the truth order. -/
def toNat : Kleene → Nat
  | ff => 0
  | unknown => 1
  | tt => 2

/-- The value with a given code. -/
def ofNat? : Nat → Option Kleene
  | 0 => some ff
  | 1 => some unknown
  | 2 => some tt
  | _ => none

/-- A two-valued truth value as a definite one. -/
def ofBool : Bool → Kleene
  | false => ff
  | true => tt

/-- The text of a value in renderings. -/
def text : Kleene → String
  | ff => "0"
  | unknown => "1/2"
  | tt => "1"

/-- The word for a value in data files. -/
def word : Kleene → String
  | ff => "false"
  | unknown => "unknown"
  | tt => "true"

/-! ## Connectives -/

/-- Conjunction, the minimum in the truth order. -/
def and : Kleene → Kleene → Kleene
  | ff, _ => ff
  | _, ff => ff
  | unknown, _ => unknown
  | _, unknown => unknown
  | tt, tt => tt

/-- Disjunction, the maximum in the truth order. -/
def or : Kleene → Kleene → Kleene
  | tt, _ => tt
  | _, tt => tt
  | unknown, _ => unknown
  | _, unknown => unknown
  | ff, ff => ff

/-- Negation exchanges the definite values. -/
def not : Kleene → Kleene
  | ff => tt
  | unknown => unknown
  | tt => ff

/-- Implication, `¬a ∨ b`. -/
def implies (a b : Kleene) : Kleene := a.not.or b

/-! ## The information order -/

/-- The join in the information order: equal values stay, others become unknown. -/
def join (a b : Kleene) : Kleene := if a = b then a else unknown

/-- The meet in the information order.  The two definite values have none. -/
def meet? : Kleene → Kleene → Option Kleene
  | unknown, b => some b
  | a, unknown => some a
  | ff, ff => some ff
  | tt, tt => some tt
  | _, _ => none

/-- Whether `a` is at least as precise as `b`. -/
def le (a b : Kleene) : Bool := b = unknown || a = b

/-- Whether the value is `ff` or `tt`. -/
def isDefinite (a : Kleene) : Bool := a ≠ unknown

/-- Whether the value may be true. -/
def isPossible (a : Kleene) : Bool := a ≠ ff

/-- Values compare along the truth order. -/
instance : Ord Kleene := ⟨fun a b => compare a.toNat b.toNat⟩

instance : Std.TransOrd Kleene where
  eq_swap := @fun a b => by cases a <;> cases b <;> rfl
  isLE_trans := @fun a b c => by cases a <;> cases b <;> cases c <;> decide

end Kleene

end ShapeAnalysis
