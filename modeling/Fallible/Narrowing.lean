import Fallible.Table
import Fallible.Ty.Parts

/-!
# Narrowing

A test whether a computation failed with one of some classifiers splits its
type in two. Where the test failed those classifiers are excluded. Where it
succeeded the type is restricted to them: each that the type names or could
carry remains, and the value is gone.
-/

namespace Fallible.Narrowing

/-- Whether excluding the classifiers leaves nothing of a constituent. -/
def isExcluded (dropped : List Classifier) : Ty → Bool
  | .errorConst c _ => dropped.contains c
  | .errorVar v =>
      match v.bound with
      | .bounded a => a.members.all dropped.contains
      | .unbounded => false
  | _ => false

/-- The type where a test for the classifiers failed. -/
def exclude (t : Ty) (dropped : List Classifier) : Ty :=
  (Ty.union (t.constituents.filter fun m => !isExcluded dropped m)).canonical

/-- The constituents that name a wanted classifier, the first for each. -/
def named (wanted : List Classifier) (flat : List Ty) : Table Classifier Ty :=
  flat.foldl (fun found m =>
    match m with
    | .errorConst c args =>
        if wanted.contains c then found.insertNew c (.errorConst c args) else found
    | _ => found) .empty

/-- Whether a constituent could carry a classifier that it does not name. -/
def couldCarry : Ty → Classifier → Bool
  | .errorVar v, c => v.mayHold c
  | .error, _ => true
  | _, _ => false

/-- Adds the wanted classifiers that a constituent could carry. -/
def addCarried (wanted : List Classifier) (found : Table Classifier Ty) (m : Ty) :
    Table Classifier Ty :=
  wanted.foldl (fun found c =>
    if couldCarry m c then found.insertNew c (.errorConst c []) else found) found

/-- The type where a test for the classifiers succeeded. -/
def restrict (t : Ty) (classifiers : List Classifier) : Ty :=
  let wanted := Alias.collect classifiers
  let flat := t.constituents
  if flat.any Ty.isErroneous then .erroneous
  else (Ty.union (flat.foldl (addCarried wanted) (named wanted flat)).values).canonical

end Fallible.Narrowing
