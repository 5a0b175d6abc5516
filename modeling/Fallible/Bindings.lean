import Fallible.Fault

/-!
# Value bindings

A flexible value projection is bound to a value type the first time it is
compared, and the binding is never revised. Writing a type out replaces bound
projections by what they stand for, and goes on inside the replacement.

Nothing stops a projection from being bound to a type that mentions it, and
then writing out does not end. A chain of replacements in which no projection
comes back to itself is no longer than the number of bindings. So a chain
longer than that is a fault, and no other chain is.
-/

namespace Fallible

/-- What flexible value projections stand for. -/
structure Bindings where
  table : Table String Ty

namespace Bindings

/-- No projection is bound. -/
def empty : Bindings := ⟨.empty⟩

instance : Inhabited Bindings := ⟨empty⟩

/-- Whether a projection is bound. -/
def contains (b : Bindings) (name : String) : Bool := b.table.contains name

/-- Binds a projection. -/
def bind (b : Bindings) (name : String) (t : Ty) : Bindings := ⟨b.table.insert name t⟩

/-- The arguments in the bound types, at any depth. -/
def arguments (b : Bindings) : List Ty := Ty.argumentsAll b.table.values

mutual

/-- Writes a type out, given how bound projections are written out. -/
def unfoldWith (image : String → Option (Except Fault Ty)) : Ty → Except Fault Ty
  | .valueProj name flexible =>
      if flexible then (image name).getD (.ok (.valueProj name flexible))
      else .ok (.valueProj name flexible)
  | .union ms => do return Ty.unionOf (← unfoldAllWith image ms)
  | .con c args => do return .con c (← unfoldAllWith image args)
  | .errorConst c args => do return .errorConst c (← unfoldAllWith image args)
  | t => .ok t

/-- Writes several types out. -/
def unfoldAllWith (image : String → Option (Except Fault Ty)) :
    List Ty → Except Fault (List Ty)
  | [] => .ok []
  | t :: ts => do
      let u ← unfoldWith image t
      let us ← unfoldAllWith image ts
      return u :: us

end

/-- How a projection is written out with chains of at most `n` replacements.
One that is not bound is not replaced. -/
def imageWithin (b : Bindings) : Nat → String → Option (Except Fault Ty)
  | 0, name => (b.table.get? name).map fun _ => .error .endless
  | n + 1, name => (b.table.get? name).map (unfoldWith (b.imageWithin n))

/-- Writes a type out. -/
def apply (b : Bindings) (t : Ty) : Except Fault Ty :=
  unfoldWith (b.imageWithin b.table.size) t

end Bindings

end Fallible
