import Fallible.Diagnostic
import Fallible.Payload
import Fallible.Registry
import Fallible.Solution

/-!
# Checks before and after solving

Before solving, every classifier that the constraints name must have been
issued by the registry. After solving, the sets must stay within the upper
bounds, and the sets of variables with an alias within that alias. Constraints
are checked in order and the first violation is reported; the alias of a
variable is checked where the variable is first mentioned.
-/

namespace Fallible.Fixpoint

/-- The classifiers that a constraint names, in its sets and in the aliases of
its variables. -/
def namedClassifiers (c : Constraint) : List Classifier :=
  c.errorSets.flatMap ErrorSet.classifiers ++ c.vars.flatMap fun v =>
    match v.bound with
    | .bounded a => a.members
    | .unbounded => []

/-- The first classifier of a constraint that the registry did not issue. -/
def unknownIn? (r : Registry) (c : Constraint) : Option Diagnostic :=
  ((namedClassifiers c).find? fun k => !r.contains k).map fun k =>
    ⟨c.location, .unknownClassifier k⟩

/-- The first classifier that the registry did not issue. -/
def unknown? (r : Registry) (cs : List Constraint) : Option Diagnostic :=
  cs.findSome? (unknownIn? r)

/-- What a variable holds in the end. A rigid variable holds itself. -/
def finalSet (solution : Solution) (v : ErrorVar) : ErrorSet :=
  if v.flexible then solution.getD v else .ofAtoms [.var v]

/-- The violation of a constraint that is an upper bound. -/
def boundViolation (covers : ErrorSet → ErrorSet → Except Fault Bool) (solution : Solution)
    (c : Constraint) : Except Fault (Option Diagnostic) :=
  match c.demand with
  | .upperBound v bound => do
      if ← covers bound (finalSet solution v) then return none
      else return some ⟨c.location, .exceedsBound c v bound (finalSet solution v)⟩
  | _ => return none

/-- Whether a set stays within an alias. -/
def fitsAlias (a : Alias) (s : ErrorSet) : Bool :=
  !s.universal && s.atoms.all fun atom => atom.isWithin a

/-- The violation of a variable's own alias. -/
def aliasViolation (solution : Solution) (c : Constraint) (v : ErrorVar) : Option Diagnostic :=
  match v.bound with
  | .unbounded => none
  | .bounded a =>
      if fitsAlias a (solution.getD v) then none
      else some ⟨c.location, .exceedsAlias c v a (solution.getD v)⟩

/-- The flexible variables that are mentioned for the first time. -/
def firstMentions : List ErrorVar → List ErrorVar → List ErrorVar
  | _, [] => []
  | seen, v :: vs =>
      if !v.flexible || seen.contains v then firstMentions seen vs
      else v :: firstMentions (v :: seen) vs

/-- The first violation by the constraints, given the variables seen before. -/
def violationFrom (covers : ErrorSet → ErrorSet → Except Fault Bool) (solution : Solution) :
    List ErrorVar → List Constraint → Except Fault (Option Diagnostic)
  | _, [] => return none
  | seen, c :: cs => do
      match ← boundViolation covers solution c with
      | some d => return some d
      | none =>
          let fresh := firstMentions seen c.vars
          match fresh.findSome? (aliasViolation solution c) with
          | some d => return some d
          | none => violationFrom covers solution (fresh ++ seen) cs

/-- The first violation by the constraints. -/
def violation? (covers : ErrorSet → ErrorSet → Except Fault Bool) (solution : Solution)
    (cs : List Constraint) : Except Fault (Option Diagnostic) :=
  violationFrom covers solution [] cs

end Fallible.Fixpoint
