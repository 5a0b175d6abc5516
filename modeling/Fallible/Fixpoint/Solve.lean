import Fallible.Fixpoint.Validation
import Fallible.Fixpoint.Worklist
import Fallible.Subtyping.View

/-!
# Solving constraints

The solution of a list of constraints is the least fixed point that the
worklist reaches, provided that it passes the checks. A failure leaves no
solution behind, only the report.
-/

namespace Fallible.Fixpoint

/-- The outcome of solving. -/
structure Outcome where
  /-- The sets of the variables; none if there is a violation. -/
  solution : Solution
  violation : Option Diagnostic
  /-- The number of constraints applied. -/
  steps : Nat
  /-- Each growth on the way. -/
  growth : List (ErrorVar × ErrorSet)

/-- Whether the constraints were solved. -/
def Outcome.success (o : Outcome) : Bool := o.violation.isNone

/-- The outcome when there is a violation. -/
def Outcome.failure (d : Diagnostic) (steps : Nat) (growth : List (ErrorVar × ErrorSet)) :
    Outcome :=
  ⟨.empty, some d, steps, growth⟩

/-- Checks the fixed point that a run has reached. -/
def conclude (view : View) (cs : List Constraint) (s : State) : Except Fault Outcome := do
  match ← violation? view.covers s.holdings.toSolution cs with
  | some d => return .failure d s.steps s.growth
  | none => return ⟨s.holdings.toSolution, none, s.steps, s.growth⟩

/-- Solves constraints, starting from the given sets. -/
def solveBy (policy : Policy) (r : Registry) (view : View) (cs : List Constraint)
    (initial : Table ErrorVar ErrorSet) : Except Fault Outcome :=
  match unknown? r cs with
  | some d => return .failure d 0 []
  | none => do
      match ← (Problem.mk cs policy view.holds).run (stepBound initial cs)
          (State.start initial cs) with
      | .conflict s d => return .failure d s.steps s.growth
      | .next s => conclude view cs s

/-- Solves constraints under the chosen policy. -/
def solve (policy : PolicyChoice) (r : Registry) (view : View) (cs : List Constraint)
    (initial : Table ErrorVar ErrorSet) : Except Fault Outcome := do
  solveBy (← policy.resolve) r view cs initial

end Fallible.Fixpoint
