import Fallible.Diagnostic
import Fallible.Fixpoint.Holding

/-!
# The worklist

Constraints are applied in turn, first those given, in order, then again those
whose source has grown. A queue holds the places of the constraints that still
have to be applied, each at most once.

What happens next depends only on what the variables hold and on the queue. A
variable can only hold atoms that were offered to it, with arguments that were
offered, or with `Value` or `Nothing` in their place. So there is a number of
steps after which a run must have come back to where it was before. Arguments
that cover each other can be exchanged for ever along a circle of constraints;
a run that exceeds the number never ends, and is a fault.
-/

namespace Fallible.Fixpoint

/-- What a run works on. -/
structure Problem where
  constraints : List Constraint
  policy : Policy
  /-- How arguments are compared. -/
  holds : Comparison

/-- The state of a run. -/
structure State where
  holdings : Holdings
  /-- The places of the constraints still to be applied. -/
  queue : List Nat
  /-- The number of constraints applied so far. -/
  steps : Nat
  /-- Each growth so far: the variable and its new set, oldest first. -/
  growth : List (ErrorVar × ErrorSet)

/-- The state before the first step: every constraint is to be applied. -/
def State.start (initial : Table ErrorVar ErrorSet) (cs : List Constraint) : State :=
  ⟨.start initial cs, List.range cs.length, 0, []⟩

/-- The places of the constraints that read a variable. -/
def Problem.readers (p : Problem) (v : ErrorVar) : List Nat :=
  (p.constraints.zipIdx.filter fun c => c.1.source?.any fun u => u == v).map Prod.snd

/-- Queues the places that are not in the queue. -/
def State.enqueue (s : State) (places : List Nat) : State :=
  { s with queue := s.queue ++ places.filter fun i => !s.queue.contains i }

/-- Records what a variable holds. -/
def State.store (s : State) (v : ErrorVar) (h : Holding) : State :=
  { s with holdings := s.holdings.insert v h }

/-- Records a growth. -/
def State.report (s : State) (v : ErrorVar) (h : Holding) : State :=
  { s with growth := s.growth ++ [(v, h.toSet)] }

/-- The outcome of a step. -/
inductive Progress where
  | next (s : State)
  /-- A constraint brought arguments that cannot be merged. -/
  | conflict (s : State) (d : Diagnostic)

/-- Applies a constraint. -/
def Problem.applyTo (p : Problem) (s : State) (c : Constraint) : Except Fault Progress :=
  match c.contribution? s.holdings with
  | none => return .next s
  | some (target, incoming) => do
      match ← (s.holdings.of target).absorb p.policy p.holds incoming with
      | .clash k first second =>
          return .conflict s ⟨c.location, .ambiguousArguments target k first second⟩
      | .done h grew =>
          let s := s.store target h
          if grew then return .next ((s.report target h).enqueue (p.readers target))
          else return .next s

/-- Applies the constraint at a place that was taken from the queue. -/
def Problem.step (p : Problem) (s : State) (place : Nat) (rest : List Nat) :
    Except Fault Progress :=
  let s := { s with queue := rest, steps := s.steps + 1 }
  match p.constraints[place]? with
  | some c => p.applyTo s c
  | none => return .next s

/-- Applies constraints until the queue is empty, in at most `n` steps. -/
def Problem.run (p : Problem) : Nat → State → Except Fault Progress
  | n, s =>
      match s.queue with
      | [] => return .next s
      | place :: rest =>
          match n with
          | 0 => throw .unsettled
          | n + 1 => do
              match ← p.step s place rest with
              | .next s => p.run n s
              | .conflict s d => return .conflict s d

/-! ## The number of steps -/

/-- The entries of the sets that contribute atoms. -/
def offered (initial : Table ErrorVar ErrorSet) (cs : List Constraint) :
    List (Atom × List Ty) :=
  initial.values.flatMap ErrorSet.entries ++ cs.flatMap fun c =>
    match c.demand with
    | .unionSubset _ _ required => required.entries
    | .subset sub _ _ => [(.var sub, [])]
    | _ => []

/-- The number of arguments that are offered. -/
def offeredArgs (offers : List (Atom × List Ty)) : Nat :=
  offers.foldr (fun e n => e.2.length + n) 0

/-- A bound on the number of holdings that one variable can have. Each offered
atom is missing, or has one of the offered lists with each argument exchanged
for any of those offered, for `Value` or for `Nothing`. -/
def holdingBound (offers : List (Atom × List Ty)) : Nat :=
  2 * Nat.pow (offeredArgs offers + 3) (offers.length + offeredArgs offers)

/-- A bound on the number of queues of so many constraints. -/
def queueBound (n : Nat) : Nat := Nat.pow (n + 1) n

/-- A number of steps within which a run ends, unless it never does. The order
in which the variables have taken up their atoms changes only when an atom is
taken up; in between, a run is where it was before if the queue and all holdings
are. -/
def stepBound (initial : Table ErrorVar ErrorSet) (cs : List Constraint) : Nat :=
  let offers := offered initial cs
  (cs.length * offers.length + 1) *
    (queueBound cs.length * Nat.pow (holdingBound offers) cs.length)

end Fallible.Fixpoint
