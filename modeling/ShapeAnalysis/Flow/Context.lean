import ShapeAnalysis.Flow.Kind
import ShapeAnalysis.Order.SortedMap
import ShapeAnalysis.Order.SortedSet
import ShapeAnalysis.Store.Fact
import ShapeAnalysis.Text.Layout

/-!
# Calling contexts

For every entry fact of a callee the table of calling contexts records which
calls led to it: the caller, the call site and the fact there.  With each call
go the facts that the guard or the call action refined it to.  When the summary
of the entry fact changes, these callers have to be visited again.
-/

namespace ShapeAnalysis

/-- A call site of a method. -/
structure CallPoint where
  /-- The calling method. -/
  caller : MethodId
  /-- The node of the call. -/
  site : Site
deriving DecidableEq, Repr, Inhabited

namespace CallPoint

/-- Call points compare by method, then by node. -/
instance : Ord CallPoint := ⟨compareLex (compareOn caller) (compareOn site)⟩

instance : Std.TransOrd CallPoint :=
  inferInstanceAs (Std.TransCmp (compareLex (compareOn caller) (compareOn site)))

instance : Std.LawfulEqOrd CallPoint where
  eq_of_compare := @fun a b h => by
    obtain ⟨h₁, h₂⟩ := compareLex_eq_eq.1 h
    cases a; cases b
    simp_all [compareOn]

end CallPoint

/-- A call with the fact at its call site. -/
structure CallFact where
  /-- The call. -/
  point : CallPoint
  /-- The fact at the call site. -/
  fact : Fact
deriving DecidableEq, Repr, Inhabited

/-- The calls that led to one entry fact. -/
structure CallingContext where
  /-- The calls with their refined facts, oldest first. -/
  calls : List (CallFact × List Fact) := []
deriving DecidableEq, Repr, Inhabited

namespace CallingContext

/-- Append the facts that are not in a list yet. -/
def addFacts (old new : List Fact) : List Fact :=
  new.foldl (fun fs f => if f ∈ fs then fs else fs ++ [f]) old

/-- Record refined facts for a call in a list of calls.  The answer says whether
anything was new.  The facts of a call that was not there are taken as they
are. -/
def record (c : CallFact) (refined : List Fact) :
    List (CallFact × List Fact) → List (CallFact × List Fact) × Bool
  | [] => ([(c, refined)], true)
  | (d, stored) :: rest =>
    if d = c then
      let stored' := addFacts stored refined
      ((d, stored') :: rest, stored' ≠ stored)
    else
      let (rest, new) := record c refined rest
      ((d, stored) :: rest, new)

/-- Record refined facts for a call.  The answer says whether anything was
new. -/
def update (ctx : CallingContext) (c : CallFact) (refined : List Fact) : CallingContext × Bool :=
  let (calls, new) := record c refined ctx.calls
  (⟨calls⟩, new)

/-- The refined facts of a call. -/
def refined? (ctx : CallingContext) (c : CallFact) : Option (List Fact) :=
  (ctx.calls.find? (·.1 = c)).map Prod.snd

/-- The call sites, in order. -/
def callPoints (ctx : CallingContext) : List CallPoint :=
  (SortedSet.ofList (ctx.calls.map (·.1.point))).toList

end CallingContext

/-- Calling contexts by callee and entry fact. -/
structure ContextTable where
  /-- The contexts of each registered callee. -/
  table : SortedMap MethodId (SortedMap Fact CallingContext) := ∅

namespace ContextTable

instance : Inhabited ContextTable := ⟨{}⟩

/-- Register a callee. -/
def addTarget (t : ContextTable) (callee : MethodId) : ContextTable :=
  ⟨t.table.alter callee ∅ id⟩

/-- Whether a callee is registered. -/
def hasTarget (t : ContextTable) (callee : MethodId) : Bool := t.table.contains callee

/-- Record a call for one entry fact. -/
def addEntry (c : CallFact) (refined : List Fact)
    (acc : SortedMap Fact CallingContext × Bool) (entry : Fact) :
    SortedMap Fact CallingContext × Bool :=
  let (ctx, new) := ((acc.1.get? entry).getD {}).update c refined
  (acc.1.insert entry ctx, acc.2 || new)

/-- Record a call for a list of entry facts.  The answer says whether any
context grew. -/
def add (t : ContextTable) (callee : MethodId) (entries : List Fact) (c : CallFact)
    (refined : List Fact) : ContextTable × Bool :=
  let (contexts, new) :=
    entries.foldl (addEntry c refined) ((t.table.get? callee).getD ∅, false)
  (⟨t.table.insert callee contexts⟩, new)

/-- The contexts of a callee, by entry fact. -/
def contextsOf (t : ContextTable) (callee : MethodId) : List (Fact × CallingContext) :=
  ((t.table.get? callee).map (·.entries)).getD []

/-- The context of an entry fact. -/
def get? (t : ContextTable) (callee : MethodId) (entry : Fact) : Option CallingContext :=
  (t.table.get? callee).bind (·.get? entry)

/-- The methods with a recorded call into a callee, in order. -/
def callers (t : ContextTable) (callee : MethodId) : List MethodId :=
  (SortedSet.ofList ((t.contextsOf callee).flatMap fun (_, ctx) =>
    ctx.calls.map (·.1.point.caller))).toList

/-- A line for each callee with its numbers of entry facts and of calls. -/
def report (t : ContextTable) (name : MethodId → String) : String :=
  Text.unlines <| t.table.entries.map fun (callee, contexts) =>
    let calls := contexts.values.foldl (fun n c => n + c.calls.length) 0
    s!"Method {name callee} has entry structures / calling contexts {contexts.size} / {calls}"

end ContextTable

end ShapeAnalysis
