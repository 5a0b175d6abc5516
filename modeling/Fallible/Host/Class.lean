/-!
# Classes of the host language

Value types may be built from classes of the host language. The checker needs
four things of a class: what tells it from others, its name, the module shown
in front of the name when it is not built in, and the classes that it counts
below.

The host says what a class counts below, and it need not go by derivation
alone. So a class is a record that lists the classes above it, and nothing says
that what stands above one of these is listed as well.
-/

namespace Fallible

/-- A class of the host. -/
structure HostClass where
  /-- The number that tells the class from others. -/
  serial : Nat
  name : String
  /-- The module it comes from, unless it is built in. -/
  home : Option String
  /-- The numbers of the classes above, nearest first. -/
  above : List Nat
  deriving DecidableEq

namespace HostClass

/-- The name with its module in front, unless the class is built in. -/
def path (c : HostClass) : String :=
  match c.home with
  | some home => home ++ "." ++ c.name
  | none => c.name

/-- Whether `sub` is `sup` or counts below it. -/
def isSubclass (sub sup : HostClass) : Bool := sub == sup || sub.above.contains sup.serial

/-- A class derived from another, and so below all that this is below. -/
def derive (base : HostClass) (serial : Nat) (name : String) : HostClass :=
  ⟨serial, name, none, base.serial :: base.above⟩

/-! ## Classes that the host brings along -/

def object : HostClass := ⟨0, "object", none, []⟩
def int : HostClass := object.derive 1 "int"
def str : HostClass := object.derive 2 "str"
def float : HostClass := object.derive 3 "float"
def bytes : HostClass := object.derive 4 "bytes"
def list : HostClass := object.derive 5 "list"
def dict : HostClass := object.derive 6 "dict"
def tuple : HostClass := object.derive 7 "tuple"
def set : HostClass := object.derive 8 "set"
def frozenset : HostClass := object.derive 9 "frozenset"
def noneType : HostClass := object.derive 10 "NoneType"
def baseException : HostClass := object.derive 11 "BaseException"
def bool : HostClass := int.derive 12 "bool"
def orderedDict : HostClass := { dict.derive 13 "OrderedDict" with home := some "collections" }
def defaultDict : HostClass := { dict.derive 14 "defaultdict" with home := some "collections" }
def exception : HostClass := baseException.derive 15 "Exception"
def arithmeticError : HostClass := exception.derive 16 "ArithmeticError"
def lookupError : HostClass := exception.derive 17 "LookupError"
def osError : HostClass := exception.derive 18 "OSError"
def valueError : HostClass := exception.derive 19 "ValueError"
def zeroDivisionError : HostClass := arithmeticError.derive 20 "ZeroDivisionError"
def keyError : HostClass := lookupError.derive 21 "KeyError"
def indexError : HostClass := lookupError.derive 22 "IndexError"
def fileNotFoundError : HostClass := osError.derive 23 "FileNotFoundError"
def unicodeError : HostClass := valueError.derive 24 "UnicodeError"

/-- The classes that the host brings along. -/
def builtIn : List HostClass :=
  [object, int, str, float, bytes, list, dict, tuple, set, frozenset, noneType,
   baseException, bool, orderedDict, defaultDict, exception, arithmeticError,
   lookupError, osError, valueError, zeroDivisionError, keyError, indexError,
   fileNotFoundError, unicodeError]

/-- The class with a name, among those that the host brings along. -/
def ofName? (s : String) : Option HostClass := builtIn.find? fun c => c.name == s

end HostClass

end Fallible
