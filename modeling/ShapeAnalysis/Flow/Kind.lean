/-!
# Kinds of methods and nodes

A method is static, virtual or a constructor.  The nodes of its control flow
graph are its entry, its exit, plain statements, the call sites of the three
kinds of methods, and return sites.
-/

namespace ShapeAnalysis

/-- A method is named by its position in the program, which an engine with positions of 32 bits
keeps for up to `2 ^ 32` methods. -/
abbrev MethodId := Nat

/-- A node of a control flow graph is named by its position in it, which an engine with
positions of 32 bits keeps for fewer than `2 ^ 32` nodes. -/
abbrev Site := Nat

/-- The name of a method in messages. -/
def MethodId.text (m : MethodId) : String := s!"m{m}"

/-- The kind of a method. -/
inductive MethodKind where
  /-- Called by name. -/
  | static
  /-- Called through a receiver. -/
  | virtual
  /-- Called to set up a new object. -/
  | constructor
deriving DecidableEq, Repr, Inhabited

/-- The kind of a node. -/
inductive NodeKind where
  /-- Where the method begins. -/
  | entry
  /-- Where the method ends. -/
  | exit
  /-- A plain program point. -/
  | intra
  /-- The call of a static method. -/
  | staticCall
  /-- The call of a virtual method. -/
  | virtualCall
  /-- The call of a constructor. -/
  | constructorCall
  /-- Where a call comes back. -/
  | returnSite
deriving DecidableEq, Repr, Inhabited

namespace MethodKind

/-- Every kind of method. -/
def all : List MethodKind := [static, virtual, constructor]

/-- The word for a kind of method. -/
def name : MethodKind → String
  | static => "static"
  | virtual => "virtual"
  | constructor => "constructor"

/-- The kind of node at which a method of this kind is called. -/
def callSite : MethodKind → NodeKind
  | static => .staticCall
  | virtual => .virtualCall
  | constructor => .constructorCall

end MethodKind

namespace NodeKind

/-- Every kind of node. -/
def all : List NodeKind :=
  [entry, exit, intra, staticCall, virtualCall, constructorCall, returnSite]

/-- The short name of a kind of node. -/
def name : NodeKind → String
  | entry => "Entry"
  | exit => "Exit"
  | intra => "Intra"
  | staticCall => "sCall"
  | virtualCall => "vCall"
  | constructorCall => "cCall"
  | returnSite => "Return"

/-- Whether calls are made at nodes of this kind. -/
def isCall : NodeKind → Bool
  | staticCall | virtualCall | constructorCall => true
  | _ => false

/-- Whether a plain statement may begin at a node of this kind. -/
def acceptsIntra : NodeKind → Bool
  | intra | entry | exit | returnSite => true
  | _ => false

end NodeKind

end ShapeAnalysis
