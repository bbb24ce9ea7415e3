import ShapeAnalysis.Action.Definition
import ShapeAnalysis.Flow.Context

/-!
# Call graphs

The call graph knows which call site calls which method, and with which actions.
A static or constructor call has one callee.  A virtual call has any number of
candidates, each with a guard that narrows the receiver.  Once the definitions
are complete it takes no more calls, only calling contexts.
-/

namespace ShapeAnalysis

/-- A call of a method with the actions on the way in and out. -/
structure CallSite where
  /-- The kind of the callee. -/
  kind : MethodKind
  /-- Where the call is made. -/
  point : CallPoint
  /-- The method called. -/
  callee : MethodId
  /-- Passes from the call site to the entry. -/
  callAction : ActionInstance
  /-- Passes from the exit to the return site. -/
  retAction : ActionInstance
deriving DecidableEq, Repr, Inhabited

/-- One candidate of a virtual call. -/
structure Candidate where
  /-- The call. -/
  call : CallSite
  /-- Narrows the receiver to the candidate. -/
  guardAction : ActionInstance
deriving DecidableEq, Repr, Inhabited

/-- The calls of a program. -/
structure CallGraph where
  /-- The static calls. -/
  statics : SortedMap CallPoint CallSite := ∅
  /-- The constructor calls. -/
  constructors : SortedMap CallPoint CallSite := ∅
  /-- The candidates of the virtual calls, oldest first. -/
  virtuals : SortedMap CallPoint (List Candidate) := ∅
  /-- The calling contexts. -/
  contexts : ContextTable := {}
  /-- Whether the definitions are complete. -/
  complete : Bool := false

namespace CallGraph

instance : Inhabited CallGraph := ⟨{}⟩

/-! ## Registering calls -/

/-- Refuse once the definitions are complete. -/
def checkOpen (g : CallGraph) : Except Error Unit :=
  if g.complete then .error .callGraphClosed else .ok ()

/-- Refuse a callee that is not registered. -/
def checkTarget (g : CallGraph) (callee : MethodId) : Except Error Unit :=
  if g.contexts.hasTarget callee then .ok () else .error (.notTarget callee)

/-- Register a method as a callee. -/
def addMethod (g : CallGraph) (callee : MethodId) : Except Error CallGraph := do
  g.checkOpen
  return { g with contexts := g.contexts.addTarget callee }

/-- Whether a call point has a callee of its own. -/
def isTaken (g : CallGraph) (x : CallPoint) : Bool :=
  g.statics.contains x || g.constructors.contains x

/-- The candidates of a virtual call. -/
def candidates (g : CallGraph) (x : CallPoint) : List Candidate := (g.virtuals.get? x).getD []

/-- Whether a static or constructor call can be registered, at a site that may
not have been created yet. -/
def checkUnique (g : CallGraph) (caller : MethodId) (site : Option Site) (callee : MethodId) :
    Except Error Unit := do
  g.checkOpen
  g.checkTarget callee
  if let some i := site then
    if g.isTaken ⟨caller, i⟩ || g.virtuals.contains ⟨caller, i⟩ then
      throw (.duplicateCall callee i caller)

/-- Whether a candidate of a virtual call can be registered. -/
def checkVirtual (g : CallGraph) (caller : MethodId) (site : Option Site) (callee : MethodId) :
    Except Error Unit := do
  g.checkOpen
  g.checkTarget callee
  if let some i := site then
    if g.isTaken ⟨caller, i⟩ || (g.candidates ⟨caller, i⟩).any (·.call.callee = callee) then
      throw (.duplicateCall callee i caller)

/-- Register a static call. -/
def addStatic (g : CallGraph) (x : CallPoint) (callee : MethodId)
    (callAction retAction : ActionInstance) : Except Error CallGraph := do
  g.checkUnique x.caller (some x.site) callee
  return { g with statics := g.statics.insert x ⟨.static, x, callee, callAction, retAction⟩ }

/-- Register a constructor call. -/
def addConstructor (g : CallGraph) (x : CallPoint) (callee : MethodId)
    (callAction retAction : ActionInstance) : Except Error CallGraph := do
  g.checkUnique x.caller (some x.site) callee
  let call : CallSite := ⟨.constructor, x, callee, callAction, retAction⟩
  return { g with constructors := g.constructors.insert x call }

/-- Register a candidate of a virtual call. -/
def addVirtual (g : CallGraph) (x : CallPoint) (callee : MethodId)
    (callAction retAction guardAction : ActionInstance) : Except Error CallGraph := do
  g.checkVirtual x.caller (some x.site) callee
  let c : Candidate := ⟨⟨.virtual, x, callee, callAction, retAction⟩, guardAction⟩
  return { g with virtuals := g.virtuals.alter x [] (· ++ [c]) }

/-- Take no more calls. -/
def close (g : CallGraph) : CallGraph := { g with complete := true }

/-! ## Looking calls up -/

/-- The callee of a static call. -/
def staticTarget? (g : CallGraph) (x : CallPoint) : Option MethodId :=
  (g.statics.get? x).map (·.callee)

/-- The callee of a constructor call. -/
def constructorTarget? (g : CallGraph) (x : CallPoint) : Option MethodId :=
  (g.constructors.get? x).map (·.callee)

/-- The candidates' methods of a virtual call, in the order of registration. -/
def virtualTargets (g : CallGraph) (x : CallPoint) : List MethodId :=
  (g.candidates x).map (·.call.callee)

/-- The candidate of a virtual call with a given method. -/
def candidate? (g : CallGraph) (x : CallPoint) (callee : MethodId) : Option Candidate :=
  (g.candidates x).find? (·.call.callee = callee)

/-- The call from a call point into a method, of whatever kind. -/
def callSite? (g : CallGraph) (x : CallPoint) (callee : MethodId) : Option CallSite :=
  match (g.statics.get? x).or (g.constructors.get? x) with
  | some c => if c.callee = callee then some c else none
  | none => (g.candidate? x callee).map (·.call)

/-- The call from a call point into a method, which has to be there. -/
def callSite (g : CallGraph) (x : CallPoint) (callee : MethodId) : Except Error CallSite :=
  match g.callSite? x callee with
  | some c => .ok c
  | none => .error (.notCalling x.site x.caller callee)

/-- The action on the way into a method. -/
def callAction (g : CallGraph) (x : CallPoint) (callee : MethodId) :
    Except Error ActionInstance :=
  (g.callSite x callee).map (·.callAction)

/-- The action on the way out of a method. -/
def retAction (g : CallGraph) (x : CallPoint) (callee : MethodId) :
    Except Error ActionInstance :=
  (g.callSite x callee).map (·.retAction)

/-- The guard of a candidate.  Only virtual calls have one. -/
def guardAction (g : CallGraph) (x : CallPoint) (callee : MethodId) :
    Except Error ActionInstance :=
  match g.candidate? x callee with
  | some c => .ok c.guardAction
  | none => .error (.notVirtualCall x.site x.caller callee)

/-- Whether a static call is made into a method. -/
def isStaticCall (g : CallGraph) (x : CallPoint) (callee : MethodId) : Bool :=
  g.staticTarget? x = some callee

/-- Whether a constructor call is made into a method. -/
def isConstructorCall (g : CallGraph) (x : CallPoint) (callee : MethodId) : Bool :=
  g.constructorTarget? x = some callee

/-- Whether a virtual call has a method among its candidates. -/
def isVirtualCall (g : CallGraph) (x : CallPoint) (callee : MethodId) : Bool :=
  (g.candidate? x callee).isSome

/-- Whether a call of any kind is made into a method. -/
def isCall (g : CallGraph) (x : CallPoint) (callee : MethodId) : Bool :=
  (g.callSite? x callee).isSome

/-- The number of registered calls, each candidate counted. -/
def size (g : CallGraph) : Nat :=
  g.statics.size + g.constructors.size + g.virtuals.values.foldl (fun n ms => n + ms.length) 0

/-! ## Calling contexts -/

/-- Record that a call led to entry facts of a callee.  The answer says whether
any context grew. -/
def addContext (g : CallGraph) (callee : MethodId) (entries : List Fact) (c : CallFact)
    (refined : List Fact) : Except Error (CallGraph × Bool) :=
  if entries.isEmpty || refined.isEmpty then .error (.emptyContext callee)
  else if !g.isCall c.point callee then
    .error (.notCalling c.point.site c.point.caller callee)
  else
    let (contexts, grew) := g.contexts.add callee entries c refined
    .ok ({ g with contexts }, grew)

end CallGraph

end ShapeAnalysis
