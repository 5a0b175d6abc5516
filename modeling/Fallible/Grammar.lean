import Fallible.Diagnostic

/-!
# The grammar of unions

A union may hold at most one value, which comes first, and its errors must be
disjoint: no classifier twice, and no two variables that could hold the same
classifier. `Error` counts as a variable without bound. The rules are checked
on the constituents of the union, in this order, and every violation is listed.
-/

namespace Fallible.Grammar

/-- The constituents that are values, each with its position. -/
def values (flat : List Ty) : List (Ty × Nat) := flat.zipIdx.filter fun m => m.1.isValue

/-- Violations of the rule on values; there is at most one. -/
def valueViolations (flat : List Ty) : List Cause :=
  match values flat with
  | [] => []
  | [(v, position)] => if position == 0 then [] else [.misplacedValue flat v position]
  | vs => [.multipleValues flat (vs.map Prod.fst)]

/-- The classifiers that stand as constants, in written order. -/
def constants (flat : List Ty) : List Classifier :=
  flat.filterMap fun
    | .errorConst c _ => some c
    | _ => none

/-- The classifiers met for the second time, in the order of that meeting,
given those that were met before and those already reported. -/
def repeated (seen reported : List Classifier) : List Classifier → List Classifier
  | [] => []
  | c :: cs =>
      if seen.contains c && !reported.contains c then
        c :: repeated (c :: seen) (c :: reported) cs
      else repeated (c :: seen) reported cs

/-- Violations of the rule on classifiers, one for each repeated one. -/
def constantViolations (flat : List Ty) : List Cause :=
  (repeated [] [] (constants flat)).map (.duplicateClassifier flat)

/-- Whether a constituent stands for classifiers that it does not name. -/
def isOpen : Ty → Bool
  | .errorVar _ | .error => true
  | _ => false

/-- The classifiers that an open constituent may hold. -/
def universeOf : Ty → Universe
  | .errorVar v => v.bound
  | _ => .unbounded

/-- The pairs of elements, the earlier one first. -/
def pairs {α : Type} : List α → List (α × α)
  | [] => []
  | x :: xs => xs.map (fun y => (x, y)) ++ pairs xs

/-- Whether two open constituents may hold the same classifier. -/
def overlap (first second : Ty) : Bool := (universeOf first).overlaps (universeOf second)

/-- Violations of the rule on variables, one for each pair. -/
def variableViolations (flat : List Ty) : List Cause :=
  ((pairs (flat.filter isOpen)).filter fun p => overlap p.1 p.2).map
    fun p => .overlappingVariables flat p.1 p.2

/-- All violations by a list of members. -/
def violations (members : List Ty) : List Cause :=
  let flat := Ty.constituentsAll members
  valueViolations flat ++ constantViolations flat ++ variableViolations flat

/-- The first violation by a list of members. A rule is looked at only if the
rules before it are obeyed. -/
def check (members : List Ty) : Option Cause :=
  let flat := Ty.constituentsAll members
  (valueViolations flat).head?.or
    ((constantViolations flat).head?.or (variableViolations flat).head?)

/-- Whether a list of members makes a union. -/
def isWellFormed (members : List Ty) : Bool := (check members).isNone

/-- The first violation by a type that is a union. Other types have none. -/
def violation? : Ty → Option Cause
  | .union members => check members
  | _ => none

end Fallible.Grammar
