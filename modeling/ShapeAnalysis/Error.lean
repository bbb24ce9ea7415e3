import ShapeAnalysis.Config.Error
import ShapeAnalysis.Flow.Kind
import ShapeAnalysis.Store.Fact

/-!
# Errors

Every way in which an operation of the engine can be refused, one constructor
for each cause.  Causes are of six kinds, and only a failed coerce after
update ends an analysis.
-/

namespace ShapeAnalysis

/-- The kind of an error. -/
inductive ErrorKind where
  /-- The program or the vocabulary was set up wrongly. -/
  | registration
  /-- A caller broke a rule on nodes, edges, calls or arguments. -/
  | misuse
  /-- An action is used that has no definition. -/
  | undefinedAction
  /-- A formula names a predicate that was not declared. -/
  | undefinedPredicate
  /-- An updated structure broke a constraint and the policy stops there. -/
  | coerceAfterUpdate
  /-- The configuration is invalid. -/
  | config
deriving DecidableEq, Repr

/-- The cause of a refusal. -/
inductive Error where
  /-- A declaration uses a reserved name. -/
  | reservedPredicate (name : String)
  /-- A declaration repeats a name with another arity. -/
  | arityClash (name : String) (arity declared : Nat)
  /-- A name is not in the vocabulary. -/
  | undefinedPredicate (name : String)
  /-- An action is given the wrong number of arguments. -/
  | argumentCount (action : String) (expected given : Nat)
  /-- An action refers to a parameter it does not have. -/
  | missingParameter (action : String) (position : Nat)
  /-- The action cache was given no room. -/
  | noCacheRoom
  /-- An action is defined twice. -/
  | actionRedefined (action : String)
  /-- Actions are used that are not defined. -/
  | undefinedAction (names : String)
  /-- An updated structure breaks a constraint. -/
  | coerceAfterUpdate (action location input output : String)
  /-- The configuration is invalid. -/
  | config (e : ConfigError)
  /-- The store has no such state. -/
  | unknownState (state : Nat)
  /-- There is no edge between two sites. -/
  | noEdge (src dst : Site)
  /-- A transition has an end that is not a fact at its site. -/
  | unknownFacts (src dst : Fact)
  /-- A node cannot become a call site of this kind. -/
  | notSpecializable (label : String) (was now : NodeKind)
  /-- A method has one label for entry and exit. -/
  | entryIsExit (signature label : String)
  /-- A site is not a node of the method. -/
  | foreignSite (site : Site) (signature : String)
  /-- A label is used for two kinds of nodes. -/
  | kindConflict (label signature : String) (was now : NodeKind)
  /-- A call comes back to its own call site. -/
  | returnsToItself (label signature : String)
  /-- A call site has an edge already. -/
  | callSiteTaken (label signature : String)
  /-- A node is not a call site. -/
  | notCallSite (node : String)
  /-- A call site has no edge to a return site. -/
  | noReturnSite (label : String)
  /-- A method has no node with this label. -/
  | noSuchLabel (label signature : String)
  /-- The call graph takes no more calls. -/
  | callGraphClosed
  /-- A method was not registered as a call target. -/
  | notTarget (callee : MethodId)
  /-- A call site calls the method already, or calls another one. -/
  | duplicateCall (callee : MethodId) (site : Site) (caller : MethodId)
  /-- A site does not call the method. -/
  | notCalling (site : Site) (caller callee : MethodId)
  /-- A site is no virtual call of the method. -/
  | notVirtualCall (site : Site) (caller callee : MethodId)
  /-- A calling context lacks entry facts or refined facts. -/
  | emptyContext (callee : MethodId)
  /-- A definition comes after the definitions were completed. -/
  | definitionsCompleted (what : String)
  /-- A signature is taken. -/
  | methodRegistered (signature : String) (kind : MethodKind)
  /-- There is a main method already. -/
  | mainTaken (signature : String)
  /-- The main method has to be static. -/
  | mainNotStatic (signature : String)
  /-- The program has no such method. -/
  | undefinedMethod (method : MethodId)
  /-- A method is called as one of another kind. -/
  | calleeKind (was : MethodKind) (callee : String) (now : MethodKind) (label caller : String)
  /-- The analysis begins before the definitions were completed. -/
  | definitionsOpen
  /-- There is no main method. -/
  | noMain
  /-- A node is not of the kind asked for. -/
  | wrongNodeKind (node : String) (kind : NodeKind)
  /-- No static call is registered at the site. -/
  | noStaticCall (site : Site)
  /-- No constructor call is registered at the site. -/
  | noConstructorCall (site : Site)
  /-- An entry fact has no calling context. -/
  | noContext (entry : Fact) (callee : MethodId)
deriving DecidableEq, Repr

namespace Error

/-- The kind of a cause. -/
def kind : Error → ErrorKind
  | reservedPredicate _ | arityClash .. | actionRedefined _ | entryIsExit ..
  | callGraphClosed | notTarget _ | duplicateCall .. | definitionsCompleted _
  | methodRegistered .. | mainTaken _ | mainNotStatic _ | undefinedMethod _
  | noMain => .registration
  | undefinedPredicate _ => .undefinedPredicate
  | undefinedAction _ => .undefinedAction
  | coerceAfterUpdate .. => .coerceAfterUpdate
  | config _ => .config
  | _ => .misuse

/-- What happened, without its kind. -/
def detail : Error → String
  | reservedPredicate name => s!"predicate {name} is reserved by the engine"
  | arityClash name arity declared =>
    s!"predicate {name} redeclared with arity {arity} (was {declared})"
  | undefinedPredicate name => name
  | argumentCount action expected given =>
    s!"macro {action} expects {expected} arguments, got {given}"
  | missingParameter action position =>
    s!"macro {action} refers to missing parameter {position}"
  | noCacheRoom => "action cache capacity must be > 0"
  | actionRedefined action => s!"action macro {action} defined twice"
  | undefinedAction names => names
  | coerceAfterUpdate action location input output =>
    s!"{action} at {location}\ninput:\n{input}\nupdated:\n{output}"
  | config e => e.message
  | unknownState state => s!"unknown abstract state {state}"
  | noEdge src dst => s!"no CFG edge {src} -> {dst}"
  | unknownFacts src dst => s!"transition {src.text} -> {dst.text} between unknown facts"
  | notSpecializable label was now =>
    s!"node {label} cannot be specialized from {was.name} to {now.name}"
  | entryIsExit signature label => s!"method {signature} uses {label} as both entry and exit"
  | foreignSite site signature => s!"node {site} does not belong to {signature}"
  | kindConflict label signature was now =>
    s!"node {label} in {signature} has conflicting types: was {was.name} and now {now.name}"
  | returnsToItself label signature => s!"call site {label} in {signature} returns to itself"
  | callSiteTaken label signature =>
    s!"call site {label} in {signature} already has an outgoing edge"
  | notCallSite node => s!"{node} is not a call site"
  | noReturnSite label => s!"call site {label} has no return site"
  | noSuchLabel label signature => s!"no node {label} in {signature}"
  | callGraphClosed => "call graph is frozen once definitions are complete"
  | notTarget callee => s!"{callee.text} is not a registered call target"
  | duplicateCall callee site caller =>
    s!"duplicate call to {callee.text} at node {site} of {caller.text}"
  | notCalling site caller callee =>
    s!"node {site} of {caller.text} does not call {callee.text}"
  | notVirtualCall site caller callee =>
    s!"node {site} of {caller.text} is not a virtual call of {callee.text}"
  | emptyContext callee => s!"calling context of {callee.text} needs entry and refined facts"
  | definitionsCompleted what => s!"{what} after definitions were completed"
  | methodRegistered signature kind => s!"method {signature} already registered as {kind.name}"
  | mainTaken signature => s!"main already set to {signature}"
  | mainNotStatic signature => s!"main method {signature} must be static"
  | undefinedMethod method => s!"undefined method {method.text}"
  | calleeKind was callee now label caller =>
    s!"invoking {was.name} method {callee} as {now.name} at {label} in {caller}"
  | definitionsOpen => "init_analysis before complete_definitions"
  | noMain => "no main method was set"
  | wrongNodeKind node kind => s!"{node} is not a {kind.name} node"
  | noStaticCall site => s!"no static call at node {site}"
  | noConstructorCall site => s!"no constructor call at node {site}"
  | noContext entry callee => s!"no calling context for {entry.text} at {callee.text}"

/-- The words that introduce errors of a kind. -/
def heading : ErrorKind → String
  | .registration => "Registration error: "
  | .misuse => "Structural misuse: "
  | .undefinedAction => "Undefined action macro: "
  | .undefinedPredicate => "Undefined predicate: "
  | .coerceAfterUpdate => "Coerce after update failed for action "
  | .config => "Configuration error: "

/-- The wording of an error. -/
def message (e : Error) : String := heading e.kind ++ e.detail

/-- Whether the error ends the analysis. -/
def isFatal (e : Error) : Bool := e.kind = .coerceAfterUpdate

end Error

end ShapeAnalysis
