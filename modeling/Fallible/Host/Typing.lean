import Fallible.Host.Class

/-!
# Names of the `typing` module

Six names of the module stand for classes that take arguments, and two build
unions.
-/

namespace Fallible

/-- A name of the `typing` module. -/
inductive TypingForm where
  | list | dict | tuple | set | frozenSet | orderedDict | union | optional
  deriving DecidableEq

namespace TypingForm

/-- The name itself. -/
def name : TypingForm → String
  | list => "List"
  | dict => "Dict"
  | tuple => "Tuple"
  | set => "Set"
  | frozenSet => "FrozenSet"
  | orderedDict => "OrderedDict"
  | union => "Union"
  | optional => "Optional"

/-- Every name. -/
def all : List TypingForm :=
  [list, dict, tuple, set, frozenSet, orderedDict, union, optional]

/-- The name that is written in a given way. -/
def ofName? (s : String) : Option TypingForm := all.find? fun f => f.name == s

/-- The class that a name stands for. -/
def toClass? : TypingForm → Option HostClass
  | list => some .list
  | dict => some .dict
  | tuple => some .tuple
  | set => some .set
  | frozenSet => some .frozenset
  | orderedDict => some .orderedDict
  | union | optional => none

/-- The number of arguments that a name takes, if it is fixed. -/
def arity? : TypingForm → Option Nat
  | list | set | frozenSet => some 1
  | dict | orderedDict => some 2
  | tuple | union | optional => none

/-- A name as messages show it. -/
def display (f : TypingForm) : String := "typing." ++ f.name

end TypingForm

end Fallible
