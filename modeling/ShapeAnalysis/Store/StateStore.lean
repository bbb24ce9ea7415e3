import ShapeAnalysis.Order.SortedMap
import ShapeAnalysis.Pipeline.Messages
import ShapeAnalysis.Pipeline.Statistics
import ShapeAnalysis.Store.Fact
import ShapeAnalysis.Store.Repository
import ShapeAnalysis.Structure.Merge

/-!
# State stores

A store holds the abstract states of one method.  A state owns slots of the
store's repository.  To add a structure to a state, the structure is merged into
the first slot of the state that takes it in, or gets a new slot.
-/

namespace ShapeAnalysis

/-- Abstract states over one repository. -/
structure StateStore (V : Vocabulary) where
  /-- The structures. -/
  repository : Repository (Structure V)
  /-- How states join. -/
  mode : JoinMode
  /-- The slots of each state, oldest first. -/
  states : List (List Nat) := []
  /-- The messages recorded for facts. -/
  messages : SortedMap Fact (Messages V) := ∅
  /-- How often a structure was joined. -/
  joinTimer : Timer := {}

namespace StateStore

variable {V : Vocabulary}

/-- The store with a number and no states. -/
def new (id : Nat) (mode : JoinMode) : StateStore V := { repository := .new id, mode }

/-- The number of the store. -/
def id (st : StateStore V) : Nat := st.repository.id

/-- Add a state without structures.  Its number is the position, which fits into 32 bits for up
to `2 ^ 32` states. -/
def allocate (st : StateStore V) : StateStore V × Nat :=
  ({ st with states := st.states ++ [[]] }, st.states.length)

/-- The slots of a state. -/
def slots? (st : StateStore V) (state : Nat) : Option (List Nat) := st.states[state]?

/-- The fact of a slot in a state. -/
def fact (st : StateStore V) (state slot : Nat) : Fact := ⟨st.id, state, slot⟩

/-- The first slot that takes a structure in, with the outcome and the structure
the slot holds then. -/
def absorb? (st : StateStore V) (s : Structure V) :
    List Nat → Option (Nat × MergeOutcome × Structure V)
  | [] => none
  | slot :: rest =>
    match st.repository.get? slot with
    | none => absorb? st s rest
    | some held =>
      match Structure.merge st.mode held s with
      | (.unrelated, _) => absorb? st s rest
      | (outcome, held') => some (slot, outcome, held')
termination_by structural slots => slots

/-- Join a structure into a state.  The answer says whether the state changed,
and which fact covers the structure. -/
def addStructure (st : StateStore V) (state : Nat) (s : Structure V) :
    Except Error (StateStore V × Bool × Fact) :=
  match st.slots? state with
  | none => .error (.unknownState state)
  | some slots =>
    let st := { st with joinTimer := st.joinTimer.record {} }
    match st.absorb? s slots with
    | some (slot, outcome, held) =>
      .ok ({ st with repository := st.repository.set slot held },
        outcome = .merged, st.fact state slot)
    | none =>
      let (repository, slot) := st.repository.add s
      .ok ({ st with repository, states := st.states.modify state (· ++ [slot]) },
        true, st.fact state slot)

/-- The structure behind a fact of this store. -/
def structure? (st : StateStore V) (f : Fact) : Option (Structure V) :=
  if f.store = st.id then st.repository.get? f.slot else none

/-- Whether a fact names a slot of its state. -/
def contains (st : StateStore V) (f : Fact) : Bool :=
  (match st.slots? f.state with
    | some slots => slots.contains f.slot
    | none => false) && (st.structure? f).isSome

/-- Whether the structure in a slot covers another one as it is. -/
def covers (st : StateStore V) (s : Structure V) (slot : Nat) : Bool :=
  match st.repository.get? slot with
  | some held => (Structure.merge st.mode held s).1 = .subsumed
  | none => false

/-- The fact of the first slot of a state that covers a structure. -/
def factFor? (st : StateStore V) (state : Nat) (s : Structure V) : Option Fact :=
  match st.slots? state with
  | some slots => (slots.find? (st.covers s)).map (st.fact state)
  | none => none

/-- The facts of a state with their structures. -/
def structures (st : StateStore V) (state : Nat) : List (Fact × Structure V) :=
  ((st.slots? state).getD []).filterMap fun slot =>
    (st.repository.get? slot).map fun s => (st.fact state slot, s)

/-- The messages recorded for a fact. -/
def messages? (st : StateStore V) (f : Fact) : Option (Messages V) := st.messages.get? f

/-- Record messages for a fact. -/
def addMessages (st : StateStore V) (f : Fact) (m : Messages V) : StateStore V :=
  if m.isEmpty then st else { st with messages := st.messages.alter f {} (·.extend m) }

/-- Whether any messages are recorded. -/
def hasMessages (st : StateStore V) : Bool := st.messages.size > 0

end StateStore

end ShapeAnalysis
