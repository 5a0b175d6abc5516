import Fallible.Classifier
import Fallible.Table

/-!
# The registry of classifiers

A registry issues one record per pair of scope and name, numbered from zero in
the order of first declaration, and never takes one back. It keeps its records
twice: in a list, where a record's number is its place, and in a table, where
the pair of scope and name is the key. Getting a record by its number reads the
list, and looking one up by its key reads the table.

A registry has a serial number, which it stamps on the records it issues. So
it knows its own records from those of another registry, or from records made
by hand, even when their numbers and names agree.
-/

namespace Fallible

/-- What a classifier is declared by: a scope and a name in it. -/
abbrev Classifier.Key := List String × String

/-- The key of a record. -/
def Classifier.key (c : Classifier) : Key := (c.scope, c.name)

/-- The classifiers issued so far. -/
structure Registry where
  /-- The serial number of this registry. -/
  serial : Nat
  /-- The record issued for each key. -/
  byKey : Table Classifier.Key Classifier
  /-- The issued records; the record numbered `i` stands at place `i`. -/
  records : List Classifier

namespace Registry

/-- Why a registry refuses a request. -/
inductive Refusal where
  /-- The classifier was declared before, with other parameters. -/
  | redeclared (found : Classifier)
  /-- No record has this number. -/
  | unknownId (id : Int)

/-- The wording of a refusal. -/
def Refusal.message : Refusal → String
  | .redeclared found =>
      s!"Classifier {found.qualifiedName} already declared with {found.arity} parameter(s)"
  | .unknownId id => s!"No classifier with id {id}"

/-- A registry that has issued nothing. -/
def new (serial : Nat) : Registry := ⟨serial, .empty, []⟩

/-- The registry that has these records, each filed under its own key. -/
def holding (serial : Nat) (records : List Classifier) : Registry :=
  ⟨serial, ⟨records.map fun c => (c.key, c)⟩, records⟩

/-- The number of issued records. -/
def size (r : Registry) : Nat := r.records.length

/-- The record issued for a scope and name. -/
def lookup (r : Registry) (scope : List String) (name : String) : Option Classifier :=
  r.byKey.get? (scope, name)

/-- The record that the next new declaration gets. -/
def next (r : Registry) (scope : List String) (name : String) (variances : List Variance) :
    Classifier :=
  ⟨r.size, scope, name, variances, some r.serial⟩

/-- Issues the next record: it goes to the end of the list, and into the table. -/
def issue (r : Registry) (scope : List String) (name : String) (variances : List Variance) :
    Registry :=
  let c := r.next scope name variances
  { r with records := r.records ++ [c], byKey := r.byKey.insert (scope, name) c }

/-- Declares a classifier. A first declaration issues a record; a later one
gets the same record back, and may repeat its parameters or leave them out. -/
def intern (r : Registry) (scope : List String) (name : String) (variances : List Variance) :
    Except Refusal Classifier × Registry :=
  match r.lookup scope name with
  | none => (.ok (r.next scope name variances), r.issue scope name variances)
  | some found =>
      if variances.isEmpty || variances == found.variances then (.ok found, r)
      else (.error (.redeclared found), r)

/-- The record with a number, if there is one. -/
def get? (r : Registry) (id : Int) : Option Classifier :=
  if id < 0 then none else r.records[id.toNat]?

/-- The record with a number. -/
def get (r : Registry) (id : Int) : Except Refusal Classifier :=
  match r.get? id with
  | some c => .ok c
  | none => .error (.unknownId id)

/-- Whether this registry issued this very record. -/
def contains (r : Registry) (c : Classifier) : Bool := decide (r.get? c.id = some c)

end Registry

end Fallible
