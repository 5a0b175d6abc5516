import Fallible.SortKey
import Fallible.Ty.Equality

/-!
# Constituents and canonical form

A type is read through its constituents: the members of a union with nested
unions opened up, `Nothing` left out, and `Any` and bare type variables split
into their value and their errors. Every later notion (value part, error part,
narrowing, the grammar of unions) is a statement about this list.

The canonical form of a type lists constituents without repetition, the value
first, then classifiers by number, variables by name, and `Error` last. A
constituent that failed to check makes the whole union fail. A union of one is
its member and a union of none is `Nothing`.
-/

namespace Fallible

/-- The elements of a list, each at its first occurrence only. -/
def distinct {α : Type} [BEq α] : List α → List α
  | [] => []
  | x :: xs => x :: (distinct xs).filter fun y => !(x == y)

namespace Ty

mutual

/-- The constituents of a type, in written order. -/
def constituents : Ty → List Ty
  | .union ms => constituentsAll ms
  | .nothing => []
  | .any => [.value, .error]
  | .var name flexible => [.valueProj name flexible, .errorVar (.ofTyVar name flexible)]
  | t => [t]

/-- The constituents of several types, one after the other. -/
def constituentsAll : List Ty → List Ty
  | [] => []
  | m :: ms => constituents m ++ constituentsAll ms

end

theorem constituentsAll_eq_flatMap (ms : List Ty) :
    constituentsAll ms = ms.flatMap constituents := by
  induction ms with
  | nil => rfl
  | cons m ms ih => simp [constituentsAll, ih]

/-- The union of some types, opened up but neither sorted nor checked. -/
def unionOf (ms : List Ty) : Ty := .union (constituentsAll ms)

/-- The place of a member in a canonical union. -/
def memberKey : Ty → SortKey
  | .errorConst c _ => ⟨1, c.id, ""⟩
  | .errorVar v => ⟨2, 0, v.name⟩
  | .error => ⟨3, 0, ""⟩
  | _ => ⟨0, 0, ""⟩

/-- Whether the type is the mark of a failed check. -/
def isErroneous : Ty → Bool
  | .erroneous => true
  | _ => false

/-- A union of members that are listed already: of one, it is the member; of
none, it is `Nothing`. -/
def ofListed : List Ty → Ty
  | [] => .nothing
  | [m] => m
  | ms => .union ms

/-- The canonical union of constituents that are canonical themselves. -/
def ofConstituents (flat : List Ty) : Ty :=
  if flat.any isErroneous then .erroneous
  else ofListed (sortOn memberKey (distinct flat))

mutual

/-- The canonical form of a type. -/
def canonical : Ty → Ty
  | .union ms => ofConstituents (constituentsAll (canonicalAll ms))
  | .con c args => .con c (canonicalAll args)
  | .errorConst c args => .errorConst c (canonicalAll args)
  | .var name flexible =>
      .union [.valueProj name flexible, .errorVar (.ofTyVar name flexible)]
  | t => t

/-- The canonical forms of several types. -/
def canonicalAll : List Ty → List Ty
  | [] => []
  | m :: ms => canonical m :: canonicalAll ms

end

theorem canonicalAll_eq_map (ms : List Ty) : canonicalAll ms = ms.map canonical := by
  induction ms with
  | nil => rfl
  | cons m ms ih => simp [canonicalAll, ih]

/-- Whether the type, once normalised, is the mark of a failed check. -/
def failed (t : Ty) : Bool := t.canonical.isErroneous

end Ty

end Fallible
