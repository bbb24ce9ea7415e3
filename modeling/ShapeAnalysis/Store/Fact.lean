/-!
# Facts

A fact is a stable handle for a structure that an abstract state holds.  It
names the store, the state and the slot.  The structure behind a fact may lose
precision when others are joined into it, the handle stays.
-/

namespace ShapeAnalysis

/-- The handle of a structure held by an abstract state.  The three numbers have no bound here,
and handles of 32-bit numbers are the same below `2 ^ 32`. -/
structure Fact where
  /-- The store. -/
  store : Nat
  /-- The abstract state in the store. -/
  state : Nat
  /-- The slot of the structure.  Slot 0 never holds one. -/
  slot : Nat
deriving DecidableEq, Repr, Inhabited

namespace Fact

/-- The name of a fact in reports. -/
def text (f : Fact) : String := s!"r{f.store}.s{f.state}.t{f.slot}"

/-- The three numbers of a fact, most significant first. -/
def key (f : Fact) : List Nat := [f.store, f.state, f.slot]

/-- Facts compare by store, then state, then slot. -/
instance : Ord Fact := ⟨compareOn key⟩

instance : Std.TransOrd Fact := inferInstanceAs (Std.TransCmp (compareOn key))

instance : Std.LawfulEqOrd Fact where
  eq_of_compare := @fun a b h => by
    have : a.key = b.key := Std.LawfulEqOrd.eq_of_compare h
    cases a; cases b; simp_all [key]

end Fact

/-- A pair of facts, such as an entry fact with an exit fact. -/
structure FactPair where
  /-- The first fact. -/
  fst : Fact
  /-- The second fact. -/
  snd : Fact
deriving DecidableEq, Repr, Inhabited

namespace FactPair

/-- Pairs compare by their first fact, then by their second. -/
instance : Ord FactPair := ⟨compareLex (compareOn fst) (compareOn snd)⟩

instance : Std.TransOrd FactPair :=
  inferInstanceAs (Std.TransCmp (compareLex (compareOn fst) (compareOn snd)))

instance : Std.LawfulEqOrd FactPair where
  eq_of_compare := @fun a b h => by
    obtain ⟨h₁, h₂⟩ := compareLex_eq_eq.1 h
    cases a; cases b
    simp_all [compareOn]

end FactPair

end ShapeAnalysis
