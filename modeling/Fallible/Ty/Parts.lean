import Fallible.Ty.Canonical

/-!
# The value part and the error part

A type is compared through two projections. Its value part is the first
constituent that is a value, or that failed to check; a type without one has
the value part `Nothing`. Its error part is the list of its error
constituents, in written order.
-/

namespace Fallible.Ty

/-- The value part of a type. -/
def valuePart (t : Ty) : Ty :=
  (t.constituents.find? fun m => m.isValue || m.isErroneous).getD .nothing

/-- The error part of a type. -/
def errorPart (t : Ty) : List Ty := t.constituents.filter isError

mutual

/-- The error variables of a type at any depth, in the order of mention. -/
def mentions : Ty → List ErrorVar
  | .errorVar v => [v]
  | .var name flexible => [.ofTyVar name flexible]
  | .union ms => mentionsAll ms
  | .con _ args => mentionsAll args
  | .errorConst _ args => mentionsAll args
  | _ => []

/-- The error variables of several types, in the order of mention. -/
def mentionsAll : List Ty → List ErrorVar
  | [] => []
  | m :: ms => mentions m ++ mentionsAll ms

end

/-- The error variables of a type at any depth, each at its first mention. -/
def freeErrorVars (t : Ty) : List ErrorVar := distinct t.mentions

end Fallible.Ty
