import ShapeAnalysis.Order.SortedMap
import ShapeAnalysis.Text.Decimal
import ShapeAnalysis.Text.Layout

/-!
# Statistics

Counters of what the pipeline did and, for each phase, how often it ran and how
long it took.  There is no clock here: phases that the library runs itself are
charged no time, and a caller that measures time records it.
-/

namespace ShapeAnalysis

/-! ## Durations and timers -/

/-- A length of time in seconds and nanoseconds. -/
structure Duration where
  /-- Full seconds. -/
  secs : Nat := 0
  /-- Nanoseconds beyond them, less than a full second. -/
  nanos : Nat := 0
deriving DecidableEq, Repr, Inhabited

namespace Duration

/-- Nanoseconds in a second. -/
def nanosPerSec : Nat := 1000000000

/-- The duration of seconds and any number of nanoseconds. -/
def of (secs nanos : Nat) : Duration := ⟨secs + nanos / nanosPerSec, nanos % nanosPerSec⟩

/-- The sum of two durations. -/
def add (a b : Duration) : Duration := of (a.secs + b.secs) (a.nanos + b.nanos)

/-- The duration in milliseconds, as a double. -/
def millis (d : Duration) : Float :=
  (d.secs.toUInt64.toFloat + d.nanos.toUInt64.toFloat / nanosPerSec.toUInt64.toFloat) * 1000.0

end Duration

/-- The time charged to a phase. -/
structure Timer where
  /-- All the time. -/
  total : Duration := {}
  /-- How often the phase ran. -/
  invocations : Nat := 0
deriving DecidableEq, Repr, Inhabited

/-- Charge one more run. -/
def Timer.record (t : Timer) (d : Duration) : Timer := ⟨t.total.add d, t.invocations + 1⟩

/-! ## Phases -/

/-- A phase of the analysis. -/
inductive Phase where
  /-- Splitting on focus formulas. -/
  | focus
  /-- Evaluating preconditions. -/
  | precondition
  /-- Applying updates. -/
  | update
  /-- Sharpening. -/
  | coerce
  /-- Merging nodes. -/
  | blur
  /-- Joining structures into states. -/
  | join
  /-- The whole analysis. -/
  | totalAnalysis
  /-- Loading the program. -/
  | load
deriving DecidableEq, Repr, Inhabited

namespace Phase

/-- The name of a phase. -/
def name : Phase → String
  | focus => "focus"
  | precondition => "precondition"
  | update => "update"
  | coerce => "coerce"
  | blur => "blur"
  | join => "join"
  | totalAnalysis => "total_analysis"
  | load => "load"

/-- Every phase, in the order of reports. -/
def all : List Phase := [focus, precondition, update, coerce, blur, join, totalAnalysis, load]

/-- The phase with a given name. -/
def ofName? (name : String) : Option Phase := all.find? fun p => p.name == name

/-- Phases compare by their place in reports. -/
instance : Ord Phase := ⟨compareOn fun p => all.idxOf p⟩

instance : Std.TransOrd Phase :=
  inferInstanceAs (Std.TransCmp (compareOn fun p : Phase => all.idxOf p))

end Phase

/-! ## Statistics -/

/-- Counters and timers of an analysis.  Counters have no bound here, and 64 bits count the same
below `2 ^ 64`. -/
structure Statistics where
  /-- The phases that ran. -/
  timers : SortedMap Phase Timer := ∅
  /-- Focused structures dropped by coerce. -/
  constraintBreaches : Nat := 0
  /-- Updated structures dropped by coerce. -/
  breachesAfterUpdate : Nat := 0
  /-- Branches dropped because a message was reported. -/
  messages : Nat := 0
  /-- Structures produced. -/
  structures : Nat := 0
  /-- Actions applied. -/
  actionsApplied : Nat := 0
  /-- Call and exit structures combined. -/
  combines : Nat := 0
  /-- Phases that were started and not stopped. -/
  running : List Phase := []

namespace Statistics

instance : Inhabited Statistics := ⟨{}⟩

/-- Charge a run of a phase. -/
def record (s : Statistics) (p : Phase) (d : Duration) : Statistics :=
  { s with timers := s.timers.alter p {} (·.record d) }

/-- Count a run of a phase. -/
def tick (s : Statistics) (p : Phase) : Statistics := s.record p {}

/-- Start a phase that runs until it is stopped. -/
def start (s : Statistics) (p : Phase) : Statistics :=
  { s with running := p :: s.running.filter (· ≠ p) }

/-- Stop a phase.  One that was not started is not charged. -/
def stop (s : Statistics) (p : Phase) : Statistics :=
  if p ∈ s.running then { s.tick p with running := s.running.filter (· ≠ p) } else s

/-- The time charged to a phase. -/
def elapsed (s : Statistics) (p : Phase) : Duration :=
  ((s.timers.get? p).map (·.total)).getD {}

/-- How often a phase ran. -/
def invocations (s : Statistics) (p : Phase) : Nat :=
  ((s.timers.get? p).map (·.invocations)).getD 0

/-- The counters with their names, in the order of data files. -/
def counters (s : Statistics) : List (String × Nat) :=
  [("constraint_breaches", s.constraintBreaches),
   ("breaches_after_update", s.breachesAfterUpdate),
   ("messages", s.messages),
   ("structures", s.structures),
   ("actions_applied", s.actionsApplied),
   ("combines", s.combines)]

/-- Set the counter with a given name. -/
def setCounter? (s : Statistics) (name : String) (n : Nat) : Option Statistics :=
  match name with
  | "constraint_breaches" => some { s with constraintBreaches := n }
  | "breaches_after_update" => some { s with breachesAfterUpdate := n }
  | "messages" => some { s with messages := n }
  | "structures" => some { s with structures := n }
  | "actions_applied" => some { s with actionsApplied := n }
  | "combines" => some { s with combines := n }
  | _ => none

/-! ## Reports -/

/-- The line of a phase: milliseconds with three places. -/
def timerLine (p : Phase) (t : Timer) : String :=
  "  " ++ Text.padRight 16 p.name ++ " " ++ Text.padLeft 10 (Text.fixed 3 t.total.millis) ++
    s!" ms ({t.invocations} calls)"

/-- The report of an analysis. -/
def report (s : Statistics) : String :=
  Text.unlines <|
    ["Analysis statistics"] ++
    (s.timers.entries.map fun (p, t) => timerLine p t) ++
    [s!"  actions applied:        {s.actionsApplied}",
     s!"  combines:               {s.combines}",
     s!"  structures:             {s.structures}",
     s!"  constraint breaches:    {s.constraintBreaches}",
     s!"  breaches after update:  {s.breachesAfterUpdate}",
     s!"  frozen with messages:   {s.messages}"]

/-- The fields of an object, indented by a number of blanks. -/
def object (indent : Nat) (fields : List (String × String)) : String :=
  if fields.isEmpty then "\x7b\x7d"
  else
    let pad := String.ofList (List.replicate indent ' ')
    let lines := fields.map fun (key, value) => pad ++ "  \"" ++ key ++ "\": " ++ value
    "\x7b\n" ++ ",\n".intercalate lines ++ "\n" ++ pad ++ "\x7d"

/-- A timer as an object. -/
def timerObject (t : Timer) : String :=
  object 4
    [("total", object 6 [("secs", toString t.total.secs), ("nanos", toString t.total.nanos)]),
     ("invocations", toString t.invocations)]

/-- The statistics as an object of objects, indented by two blanks a level. -/
def toJson (s : Statistics) : String :=
  object 0 <|
    ("timers", object 2 (s.timers.entries.map fun (p, t) => (p.name, timerObject t))) ::
    s.counters.map fun (name, n) => (name, toString n)

end Statistics

end ShapeAnalysis
