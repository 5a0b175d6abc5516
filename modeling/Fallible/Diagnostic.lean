import Fallible.Constraint

/-!
# Diagnostics

A check that fails is reported, never thrown: the report says where, what went
wrong, and, where sets of errors are at odds, which set was expected and which
was found. The cause of a report is data; its wording is computed from it.
-/

namespace Fallible

/-- What went wrong. -/
inductive Cause where
  /-- A union has more than one value. -/
  | multipleValues (union values : List Ty)
  /-- The value of a union does not come first. -/
  | misplacedValue (union : List Ty) (misplaced : Ty) (position : Nat)
  /-- A union names a classifier more than once. -/
  | duplicateClassifier (union : List Ty) (c : Classifier)
  /-- Two variables of a union may hold the same classifier. -/
  | overlappingVariables (union : List Ty) (first second : Ty)
  /-- A solved variable holds more than a constraint allows. -/
  | exceedsBound (constraint : Constraint) (var : ErrorVar) (bound actual : ErrorSet)
  /-- A solved variable holds more than its own alias allows. -/
  | exceedsAlias (constraint : Constraint) (var : ErrorVar) (limit : Alias) (actual : ErrorSet)
  /-- A classifier reached a variable with arguments that cannot be merged. -/
  | ambiguousArguments (var : ErrorVar) (c : Classifier) (first second : List Ty)
  /-- A constraint names a classifier that the registry never issued. -/
  | unknownClassifier (c : Classifier)
  /-- A type was required to be a subtype of another and is not. -/
  | mismatch (sup sub : Ty)

namespace Cause

/-- The name of the kind of failure. -/
def kind : Cause → String
  | .multipleValues .. => "MultipleValueComponents"
  | .misplacedValue .. => "MisplacedValueComponent"
  | .duplicateClassifier .. => "DuplicateClassifier"
  | .overlappingVariables .. => "NonDisjointVariables"
  | .exceedsBound .. => "UnsatisfiableConstraint"
  | .exceedsAlias .. => "UnsatisfiableConstraint"
  | .ambiguousArguments .. => "AmbiguousGenericInstantiation"
  | .unknownClassifier _ => "UnknownClassifier"
  | .mismatch .. => "SubtypeMismatch"

/-- Whether checking may go on after the failure. -/
def recoverable : Cause → Bool
  | .unknownClassifier _ => false
  | _ => true

/-- A classifier with arguments in brackets, shown even when there are none. -/
def applied (c : Classifier) (args : List Ty) : String :=
  c.qualifiedName ++ "[" ++ Ty.textList args ++ "]"

/-- The failure in one sentence. -/
def message : Cause → String
  | .multipleValues _ values =>
      "At most one value component is allowed, found " ++ Ty.textList values
  | .misplacedValue _ misplaced position =>
      "Value component " ++ misplaced.text ++ " must come first, found at position " ++
        toString position
  | .duplicateClassifier _ c => "Classifier " ++ c.qualifiedName ++ " appears twice"
  | .overlappingVariables _ first second =>
      "Error variables " ++ first.text ++ " and " ++ second.text ++
        " may hold the same classifier"
  | .exceedsBound _ v bound actual =>
      v.text ++ " may hold " ++ actual.text ++ ", but at most " ++ bound.text ++ " is allowed"
  | .exceedsAlias _ v a actual =>
      v.text ++ " may hold " ++ actual.text ++ ", outside its bound " ++ a.name
  | .ambiguousArguments v c first second =>
      v.text ++ " receives " ++ applied c first ++ " and " ++ applied c second ++
        ", which cannot be reconciled"
  | .unknownClassifier c => "Classifier " ++ c.display ++ " was not issued by the registry"
  | .mismatch sup sub => sub.text ++ " is not a subtype of " ++ sup.text

/-- The classifiers of an alias as a set of errors. -/
def aliasSet (a : Alias) : ErrorSet := .ofAtoms (a.members.map Atom.classifier)

/-- The errors that were expected, where that is the point. -/
def expected? : Cause → Option ErrorSet
  | .exceedsBound _ _ bound _ => some bound
  | .exceedsAlias _ _ a _ => some (aliasSet a)
  | .ambiguousArguments _ c first _ => some (.ofEntries [(.classifier c, first)] false)
  | .mismatch sup _ => some (.ofTy sup)
  | _ => none

/-- The errors that were found, where that is the point. -/
def actual? : Cause → Option ErrorSet
  | .duplicateClassifier _ c => some (.ofAtoms [.classifier c])
  | .exceedsBound _ _ _ actual => some actual
  | .exceedsAlias _ _ _ actual => some actual
  | .ambiguousArguments _ c _ second => some (.ofEntries [(.classifier c, second)] false)
  | .mismatch _ sub => some (.ofTy sub)
  | _ => none

/-- The report on a union that breaks the grammar. -/
def illFormedText (place message : String) (union : List Ty) : String :=
  place ++ ": Ill-formed union type\n  Union:  " ++ Ty.textMembers union ++
    "\n  Reason: " ++ message

/-- The report on a variable that holds too much. -/
def unsatisfiableText (place : String) (constraint : Constraint) (v : ErrorVar)
    (bound actual : ErrorSet) : String :=
  place ++ ": Unsatisfiable constraint\n  Variable: " ++ v.text ++
    "\n  Bound:    " ++ bound.text ++ "\n  Computed: " ++ actual.text ++
    (if constraint.reason.isEmpty then "" else "\n  Reason:   " ++ constraint.reason)

/-- The report on a failure at a place. -/
def report (place : String) (cause : Cause) : String :=
  match cause with
  | .multipleValues u _ => illFormedText place cause.message u
  | .misplacedValue u _ _ => illFormedText place cause.message u
  | .duplicateClassifier u _ => illFormedText place cause.message u
  | .overlappingVariables u _ _ => illFormedText place cause.message u
  | .exceedsBound c v bound actual => unsatisfiableText place c v bound actual
  | .exceedsAlias c v a actual => unsatisfiableText place c v (aliasSet a) actual
  | .ambiguousArguments v c first second =>
      place ++ ": Ambiguous generic instantiation\n  Variable: " ++ v.text ++
        "\n  First:    " ++ applied c first ++ "\n  Second:   " ++ applied c second
  | .unknownClassifier _ => place ++ ": " ++ cause.message
  | .mismatch sup sub =>
      place ++ ": Type is not assignable\n  Type:     " ++ sub.text ++
        "\n  Expected: " ++ sup.text ++ "\n  Reason:   " ++ cause.message

end Cause

/-- A report of a failed check. -/
structure Diagnostic where
  location : Location
  cause : Cause

/-- The report as text. -/
def Diagnostic.text (d : Diagnostic) : String := d.cause.report d.location.describe

end Fallible
