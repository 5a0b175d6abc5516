import Fallible.ErrorSet
import Fallible.Host.Value

/-!
# Faults

Requests that cannot be carried out at all end in a fault. What is wrong with
a program under check is a diagnostic instead.
-/

namespace Fallible

/-- The states of an inference session. -/
inductive Status where
  /-- Checks are still being made. -/
  | active
  /-- The session was solved. -/
  | solved
  /-- The session was abandoned. -/
  | cancelled
  deriving DecidableEq

/-- Why a request cannot be carried out. -/
inductive Fault where
  /-- Options were given that do not exist. -/
  | unknownOptions (names : List String)
  /-- A fixing policy was named that does not exist. -/
  | unknownPolicy (given : HostValue)
  /-- A list or a map stands where a name is looked up. -/
  | notAName (kind : String)
  /-- A type cannot be written out, or two types cannot be compared, because
  value bindings lead back to themselves. -/
  | endless
  /-- Growth goes round in circles and no fixed point is reached. -/
  | unsettled
  /-- An error variable was given arguments, and two lists of them clash. -/
  | argumentsOnVariable (v : ErrorVar)
  /-- There is no variable to receive an atom. -/
  | noTarget
  /-- The session takes no more checks. -/
  | notOpen (status : Status)
  /-- A solved session cannot be abandoned. -/
  | alreadySolved
  /-- A call has the wrong number of arguments. -/
  | argumentCount (name : String) (expected actual : Nat)
  /-- A node was annotated without a type. -/
  | missingType

/-- The name of a state. -/
def Status.name : Status → String
  | .active => "open"
  | .solved => "solved"
  | .cancelled => "cancelled"

/-- A bound as messages show it. -/
def Universe.display : Universe → String
  | .unbounded => "Unbounded()"
  | .bounded a => "Alias(" ++ a.name ++ ")"

/-- An error variable with all its fields. -/
def ErrorVar.display (v : ErrorVar) : String :=
  "ErrorVar(name=" ++ Text.quoted v.name ++ ", universe=" ++ v.bound.display ++
    ", flexible=" ++ HostValue.showBool v.flexible ++ ")"

/-- The wording of a fault. -/
def Fault.message : Fault → String
  | .unknownOptions names => "Unknown option(s): " ++ ", ".intercalate names
  | .unknownPolicy given =>
      "Unknown fixing policy " ++ given.display ++ " (expected one of: soft, strict)"
  | .notAName kind => "unhashable type: " ++ Text.quoted kind
  | .endless => "Value bindings lead back to themselves"
  | .unsettled => "No fixed point was reached"
  | .argumentsOnVariable v => "Generic instantiation on non-classifier atom " ++ v.display
  | .noTarget => "tuple index out of range"
  | .notOpen status => "Session is " ++ status.name
  | .alreadySolved => "Cannot cancel a solved session"
  | .argumentCount name expected actual =>
      name ++ " takes " ++ toString expected ++ " argument(s), got " ++ toString actual
  | .missingType => "A type is required when annotating by node id"

end Fallible
