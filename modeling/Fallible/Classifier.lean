/-!
# Error classifiers

A classifier names one way in which a computation may fail. Two relations
live on classifiers and must not be confused. The checker compares them by
number alone: this is `==`, and it is what sets, maps and sorting use. A
registry asks more when it recognises its own records: there two records are
the same only if they agree in everything, the issuing registry included, and
that is `=`.
-/

namespace Fallible

/-- How a classifier's parameter responds to subtyping of its argument. -/
inductive Variance where
  /-- The argument's relation carries over. -/
  | covariant
  /-- The argument's relation is turned round. -/
  | contravariant
  /-- The arguments must be related both ways. -/
  | invariant
  deriving DecidableEq

/-- An error classifier. -/
structure Classifier where
  /-- The number that identifies the classifier. -/
  id : Int
  /-- The path of the declaring scope, outermost first. -/
  scope : List String
  /-- The name inside that scope. -/
  name : String
  /-- The declared variance of each parameter. -/
  variances : List Variance
  /-- The serial number of the registry that issued the record, if one did. -/
  issuer : Option Nat
  deriving DecidableEq

namespace Classifier

/-- Classifiers are compared by number. -/
instance : BEq Classifier := ⟨fun a b => a.id == b.id⟩

theorem beq_def (a b : Classifier) : (a == b) = (a.id == b.id) := rfl

/-- Being the same number, as a relation between classifiers. -/
@[simp] theorem beq_iff {a b : Classifier} : (a == b) = true ↔ a.id = b.id := by
  rw [beq_def, beq_iff_eq]

instance : EquivBEq Classifier where
  rfl := by simp
  symm h := by simpa using (beq_iff.1 h).symm
  trans h k := by simpa using (beq_iff.1 h).trans (beq_iff.1 k)

/-- Whether two records are one. A record made by hand is no other. -/
def isSameRecord (a b : Classifier) : Bool := a.issuer.isSome && decide (a = b)

/-- The code under which a classifier is filed: its number reduced modulo the
Mersenne prime with 61 binary digits, with its sign, where `-1` is filed under
`-2`. -/
def hashCode (c : Classifier) : Int :=
  let code := Int.tmod c.id 0x1fffffffffffffff
  if code == -1 then -2 else code

/-- Whether one classifier is listed no later than another. -/
def le (a b : Classifier) : Bool := a.id ≤ b.id

/-- The name with its scope in front, divided by points. -/
def qualifiedName (c : Classifier) : String := ".".intercalate (c.scope ++ [c.name])

/-- The number of parameters. -/
def arity (c : Classifier) : Nat := c.variances.length

/-- The qualified name with the number behind it. -/
def tag (c : Classifier) : String := s!"{c.qualifiedName}#{c.id}"

/-- The tag as messages show it. -/
def display (c : Classifier) : String := s!"Classifier({c.tag})"

/-- The variance of a parameter. One that was not declared is invariant. -/
def variance (c : Classifier) (i : Nat) : Variance := c.variances[i]?.getD .invariant

end Classifier

end Fallible
