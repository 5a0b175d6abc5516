import Fallible.ErrorSet
import Fallible.Ty.Subst

/-!
# Solutions

A solution gives error variables their sets. Applying it to a type puts each
set in the place of its variable; a universal set becomes `Error`, whatever
else it lists.
-/

namespace Fallible

/-- The sets of solved variables. -/
structure Solution where
  sets : Table ErrorVar ErrorSet

namespace Solution

/-- Nothing is solved. -/
def empty : Solution := ⟨.empty⟩

instance : Inhabited Solution := ⟨empty⟩

/-- The set of a variable, if it is solved. -/
def get? (s : Solution) (v : ErrorVar) : Option ErrorSet := s.sets.get? v

/-- The set of a variable; one that is not solved has none. -/
def getD (s : Solution) (v : ErrorVar) : ErrorSet := (s.get? v).getD .empty

/-- Whether a variable is solved. -/
def contains (s : Solution) (v : ErrorVar) : Bool := s.sets.contains v

/-- The type that takes a variable's place. -/
def image (set : ErrorSet) : Ty := if set.universal then .error else .union set.members

/-- What takes the place of each solved variable. -/
def images (s : Solution) : Table Ty Ty :=
  .ofList (s.sets.entries.map fun e => (.errorVar e.1, image e.2))

/-- Puts the sets in the place of the variables, and normalises. -/
def apply (s : Solution) (t : Ty) : Ty := (t.canonical.subst s.images).canonical

/-- The solution with further variables solved. Sets that are there stay. -/
def extend (s : Solution) (more : Table ErrorVar ErrorSet) : Solution :=
  ⟨more.overlay s.sets⟩

/-- The arguments in the sets, at any depth. -/
def arguments (s : Solution) : List Ty := s.sets.values.flatMap ErrorSet.arguments

/-- The text of a solution. -/
def text (s : Solution) : String :=
  "Solution(\x7b" ++
    ", ".intercalate (s.sets.entries.map fun e => e.1.text ++ ": " ++ e.2.text) ++ "\x7d)"

end Solution

end Fallible
