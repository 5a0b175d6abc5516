import Fallible.Classifier
import Fallible.Host.Class

/-!
# Types of computations that may fail

A type says which value a computation yields and which errors it may fail
with. Value types are built from constructors, which the host names or takes
from its classes. Errors are classifiers, which may carry arguments, and error
variables, which stand for a set of classifiers still to be known. A union
holds both kinds side by side, in the order in which it was written.

A bare type variable stands for both at once and splits into two projections,
one for its value and one for its errors. Variables are rigid, when they are
parameters seen from inside a declaration, or flexible, when an inference
session introduced them and is to find out what they stand for.

Types are compared by `==`, which is equality up to the spelling of
classifiers. `Ty.bare` strips that spelling, and `==` is equality of the bare
types; that it is an equivalence is then plain.
-/

namespace Fallible

/-- Constructors of value types. -/
inductive Con where
  /-- A class of the host. -/
  | host (c : HostClass)
  /-- A name of the host's choice. -/
  | named (name : String)
  deriving DecidableEq

/-- The name of a constructor. -/
def Con.name : Con → String
  | .host c => c.name
  | .named s => s

/-! ## Aliases: named finite sets of classifiers -/

/-- A named, finite set of classifiers, listed by number. -/
structure Alias where
  name : String
  members : List Classifier
  increasing : members.Pairwise fun a b => a.id < b.id

namespace Alias

/-- Adds a classifier to a list ordered by number. One whose number is listed
already is left out. -/
def insertMember (c : Classifier) : List Classifier → List Classifier
  | [] => [c]
  | d :: rest =>
      if c.id < d.id then c :: d :: rest
      else if d.id < c.id then d :: insertMember c rest
      else d :: rest

theorem mem_insertMember {c x : Classifier} {ds : List Classifier}
    (h : x ∈ insertMember c ds) : x = c ∨ x ∈ ds := by
  induction ds with
  | nil => simpa [insertMember] using h
  | cons d rest ih =>
      unfold insertMember at h
      split at h
      · simpa using h
      · split at h
        · cases List.mem_cons.1 h with
          | inl e => exact Or.inr (by simp [e])
          | inr h => exact (ih h).imp id (List.mem_cons_of_mem d)
        · exact Or.inr h

theorem insertMember_increasing (c : Classifier) {ds : List Classifier}
    (h : ds.Pairwise fun a b => a.id < b.id) :
    (insertMember c ds).Pairwise fun a b => a.id < b.id := by
  induction ds with
  | nil => simp [insertMember]
  | cons d rest ih =>
      obtain ⟨hd, hrest⟩ := List.pairwise_cons.1 h
      unfold insertMember
      split
      · rename_i hc
        refine List.pairwise_cons.2 ⟨fun x hx => ?_, h⟩
        cases List.mem_cons.1 hx with
        | inl e => exact e ▸ hc
        | inr hx => have := hd x hx; omega
      · split
        · rename_i hc
          refine List.pairwise_cons.2 ⟨fun x hx => ?_, ih hrest⟩
          cases mem_insertMember hx with
          | inl e => exact e ▸ hc
          | inr hx => exact hd x hx
        · exact h

/-- A list of classifiers ordered by number, the first of each number kept. -/
def collect (cs : List Classifier) : List Classifier :=
  cs.foldl (fun acc c => insertMember c acc) []

theorem collect_increasing (cs : List Classifier) :
    (collect cs).Pairwise fun a b => a.id < b.id := by
  suffices h : ∀ acc : List Classifier, acc.Pairwise (fun a b => a.id < b.id) →
      (cs.foldl (fun acc c => insertMember c acc) acc).Pairwise fun a b => a.id < b.id from
    h [] List.Pairwise.nil
  induction cs with
  | nil => exact fun acc h => h
  | cons c cs ih => exact fun acc h => ih _ (insertMember_increasing c h)

/-- The alias of a list of classifiers. -/
def of (name : String) (cs : List Classifier) : Alias :=
  ⟨name, collect cs, collect_increasing cs⟩

/-- Whether a classifier belongs to the alias. -/
def contains (a : Alias) (c : Classifier) : Bool := a.members.contains c

/-- Whether every classifier of the alias belongs to another. -/
def isWithin (a b : Alias) : Bool := a.members.all b.contains

/-- Whether two aliases have a classifier in common. -/
def meets (a b : Alias) : Bool := a.members.any b.contains

/-- Aliases are compared by name and by the numbers of their members. -/
instance : BEq Alias := ⟨fun a b => a.name == b.name && a.members == b.members⟩

end Alias

/-! ## Error variables -/

/-- The classifiers that an error variable may come to hold. -/
inductive Universe where
  /-- Any classifier at all. -/
  | unbounded
  /-- Only the classifiers of an alias. -/
  | bounded (a : Alias)

namespace Universe

/-- Whether a classifier belongs to the universe. -/
def contains : Universe → Classifier → Bool
  | .unbounded, _ => true
  | .bounded a, c => a.contains c

/-- Whether the universe is that of all classifiers. -/
def isUnbounded : Universe → Bool
  | .unbounded => true
  | .bounded _ => false

/-- Whether two universes can share a classifier. An unbounded one meets
everything but the empty alias. -/
def overlaps : Universe → Universe → Bool
  | .unbounded, .unbounded => true
  | .unbounded, .bounded a | .bounded a, .unbounded => !a.members.isEmpty
  | .bounded a, .bounded b => a.meets b

/-- Universes are compared as their aliases are. -/
def beq : Universe → Universe → Bool
  | .unbounded, .unbounded => true
  | .bounded a, .bounded b => a == b
  | _, _ => false

instance : BEq Universe := ⟨beq⟩

end Universe

/-- An error variable. -/
structure ErrorVar where
  name : String
  /-- The classifiers that the variable may hold. -/
  bound : Universe
  /-- Whether the variable is to be solved for. -/
  flexible : Bool

namespace ErrorVar

/-- Error variables are compared by name, bound and flexibility. -/
instance : BEq ErrorVar :=
  ⟨fun a b => a.name == b.name && a.bound == b.bound && a.flexible == b.flexible⟩

/-- Whether the variable could hold a classifier. -/
def mayHold (v : ErrorVar) (c : Classifier) : Bool := v.bound.contains c

end ErrorVar

/-! ## Types -/

/-- Types. -/
inductive Ty where
  /-- Any value and any error. -/
  | any
  /-- Any value. -/
  | value
  /-- Any error. -/
  | error
  /-- No value and no error. -/
  | nothing
  /-- A type that failed to check; it is compatible with everything, so that
  one failure does not cause another. -/
  | erroneous
  /-- A value type. -/
  | con (c : Con) (args : List Ty)
  /-- A type variable that has not been split. -/
  | var (name : String) (flexible : Bool)
  /-- The value projection of a type variable. -/
  | valueProj (name : String) (flexible : Bool)
  /-- A classifier, with the arguments of its parameters if they are fixed. -/
  | errorConst (c : Classifier) (args : List Ty)
  /-- An error variable. -/
  | errorVar (v : ErrorVar)
  /-- A union in written order. -/
  | union (members : List Ty)

instance : Inhabited Ty := ⟨.nothing⟩

/-- The error projection of a type variable. -/
def ErrorVar.ofTyVar (name : String) (flexible : Bool) : ErrorVar :=
  ⟨name ++ "|_e", .unbounded, flexible⟩

namespace Ty

/-- The value projection of a type variable; other types have none. -/
def valueOf? : Ty → Option Ty
  | .var name flexible => some (.valueProj name flexible)
  | _ => none

/-- The error projection of a type variable; other types have none. -/
def errorOf? : Ty → Option Ty
  | .var name flexible => some (.errorVar (.ofTyVar name flexible))
  | _ => none

/-- Whether the type is a single value. -/
def isValue : Ty → Bool
  | .value | .con .. | .valueProj .. => true
  | _ => false

/-- Whether the type is a single error. -/
def isError : Ty → Bool
  | .error | .errorConst .. | .errorVar _ => true
  | _ => false

/-- Whether the type is a union. -/
def isUnion : Ty → Bool
  | .union _ => true
  | _ => false

mutual

/-- Equality up to the spelling of classifiers. -/
def beq : Ty → Ty → Bool
  | .any, .any | .value, .value | .error, .error | .nothing, .nothing
  | .erroneous, .erroneous => true
  | .con c as, .con d bs => c == d && beqAll as bs
  | .var a f, .var b g | .valueProj a f, .valueProj b g => a == b && f == g
  | .errorConst c as, .errorConst d bs => c == d && beqAll as bs
  | .errorVar v, .errorVar w => v == w
  | .union as, .union bs => beqAll as bs
  | _, _ => false

/-- Equality of lists of types, up to the spelling of classifiers. -/
def beqAll : List Ty → List Ty → Bool
  | [], [] => true
  | a :: as, b :: bs => beq a b && beqAll as bs
  | _, _ => false

end

instance : BEq Ty := ⟨beq⟩

mutual

/-- The number of nodes of a type. -/
def size : Ty → Nat
  | .con _ as | .errorConst _ as | .union as => sizeAll as + 1
  | _ => 1

/-- The number of nodes of a list of types. -/
def sizeAll : List Ty → Nat
  | [] => 0
  | a :: as => size a + sizeAll as

end

mutual

/-- The arguments in a type, at any depth. -/
def arguments : Ty → List Ty
  | .con _ as | .errorConst _ as => as ++ argumentsAll as
  | .union ms => argumentsAll ms
  | _ => []

/-- The arguments in several types, at any depth. -/
def argumentsAll : List Ty → List Ty
  | [] => []
  | a :: as => arguments a ++ argumentsAll as

end

/-! ## Induction

Types hold lists of types, and what is proved of all types is proved by an induction in
which the members of a union and the arguments of a constructor or of a classifier count
as smaller. -/

@[induction_eliminator]
theorem induct {P : Ty → Prop} (any : P .any) (value : P .value) (error : P .error)
    (nothing : P .nothing) (erroneous : P .erroneous)
    (con : ∀ c args, (∀ a ∈ args, P a) → P (.con c args))
    (var : ∀ name flexible, P (.var name flexible))
    (valueProj : ∀ name flexible, P (.valueProj name flexible))
    (errorConst : ∀ c args, (∀ a ∈ args, P a) → P (.errorConst c args))
    (errorVar : ∀ v, P (.errorVar v))
    (union : ∀ ms, (∀ m ∈ ms, P m) → P (.union ms)) (t : Ty) : P t := by
  refine @Ty.rec P (fun ts => ∀ t ∈ ts, P t) any value error nothing erroneous con var
    valueProj errorConst errorVar union (fun _ h => absurd h List.not_mem_nil) ?_ t
  intro a as ha has x hx
  rcases List.mem_cons.1 hx with rfl | hx
  · exact ha
  · exact has x hx

end Ty

end Fallible
