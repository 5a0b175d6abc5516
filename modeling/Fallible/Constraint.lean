import Fallible.ErrorSet
import Fallible.Location

/-!
# Constraints between error variables

A constraint says what the set of an error variable must hold. Two kinds make
a set grow: what flows in from another variable, and what is required
outright; both leave out the atoms that are known to be covered already. The
third kind bounds a set from above and is only checked at the end. A constraint
remembers where it arose and which types were compared.
-/

namespace Fallible

/-- What a constraint asks for. -/
inductive Demand where
  /-- Everything `sub` holds, except what is known, belongs to `sup`. -/
  | subset (sub sup : ErrorVar) (known : ErrorSet)
  /-- Everything required, except what is known, belongs to `var`. -/
  | unionSubset (var : ErrorVar) (known required : ErrorSet)
  /-- Nothing outside the bound belongs to `var`. -/
  | upperBound (var : ErrorVar) (bound : ErrorSet)
  /-- Nothing at all. -/
  | none

/-- A constraint on error variables. -/
structure Constraint where
  demand : Demand
  /-- Where the constraint arose. -/
  location : Location
  /-- The comparison that gave rise to it. -/
  reason : String

namespace Constraint

/-- The variable whose set the constraint makes grow. -/
def target? (c : Constraint) : Option ErrorVar :=
  match c.demand with
  | .subset _ sup _ => some sup
  | .unionSubset v _ _ => some v
  | _ => none

/-- The variable whose growth may make the target grow again. -/
def source? (c : Constraint) : Option ErrorVar :=
  match c.demand with
  | .subset sub _ _ => some sub
  | _ => none

/-- The variables of a constraint, the source first. -/
def vars (c : Constraint) : List ErrorVar :=
  match c.demand with
  | .subset sub sup _ => [sub, sup]
  | .unionSubset v _ _ => [v]
  | .upperBound v _ => [v]
  | .none => []

/-- The sets that a constraint names. -/
def errorSets (c : Constraint) : List ErrorSet :=
  match c.demand with
  | .subset _ _ known => [known]
  | .unionSubset _ known required => [known, required]
  | .upperBound _ bound => [bound]
  | .none => []

/-- The constraint on one line. -/
def summary (c : Constraint) : String :=
  match c.demand with
  | .subset sub sup known =>
      if known.isEmpty then sub.text ++ " <= " ++ sup.text
      else sub.text ++ " \\ " ++ known.text ++ " <= " ++ sup.text
  | .unionSubset v known required =>
      required.text ++ " <= " ++ v.text ++ " + " ++ known.text
  | .upperBound v bound => v.text ++ " <= " ++ bound.text
  | .none =>
      "Constraint(location=" ++ c.location.display ++ ", reason=" ++ Text.quoted c.reason ++ ")"

end Constraint

end Fallible
