import Fallible.Table
import Fallible.Ty.Canonical

/-!
# Substitution

A substitution maps whole types to types. The outermost type that has an image
is replaced and its image is not looked into. Unions are opened up again as
they are rebuilt, because an image may itself be a union.
-/

namespace Fallible.Ty

mutual

/-- Replaces every type that has an image. -/
def subst (images : Table Ty Ty) (t : Ty) : Ty :=
  match images.get? t with
  | some image => image
  | none =>
      match t with
      | .union ms => unionOf (substAll images ms)
      | .con c args => .con c (substAll images args)
      | .errorConst c args => .errorConst c (substAll images args)
      | t => t

/-- Replaces in several types. -/
def substAll (images : Table Ty Ty) : List Ty → List Ty
  | [] => []
  | t :: ts => subst images t :: substAll images ts

end

theorem substAll_eq_map (images : Table Ty Ty) (ts : List Ty) :
    substAll images ts = ts.map (subst images) := by
  induction ts with
  | nil => rfl
  | cons t ts ih => simp [substAll, ih]

mutual

/-- The type with `Nothing` for every flexible value projection. -/
def ground : Ty → Ty
  | .valueProj name flexible => if flexible then .nothing else .valueProj name flexible
  | .union ms => unionOf (groundAll ms)
  | .con c args => .con c (groundAll args)
  | .errorConst c args => .errorConst c (groundAll args)
  | t => t

/-- Several types with `Nothing` for every flexible value projection. -/
def groundAll : List Ty → List Ty
  | [] => []
  | t :: ts => ground t :: groundAll ts

end

theorem groundAll_eq_map (ts : List Ty) : groundAll ts = ts.map ground := by
  induction ts with
  | nil => rfl
  | cons t ts ih => simp [groundAll, ih]

end Fallible.Ty
