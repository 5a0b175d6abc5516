import Fallible.Host.Typing
import Fallible.Host.Value

/-!
# Type hints of the host

A host that models its values by classes can write value types as hints: a
class, a class with arguments, a type variable, or `None` for no value at all.
Any other value of the host can turn up in the place of a hint, or of its
argument, and is shown as the host shows it.

Unions come in two kinds, written with bars or through `typing`, which are
built and shown differently.
-/

namespace Fallible

/-- A type hint, or another value in the place of one. -/
inductive Hint where
  /-- No value. -/
  | none
  | cls (c : HostClass)
  /-- A type variable. Each is told apart by its serial number, whatever its
  name. -/
  | typeVar (name : String) (serial : Nat)
  /-- A class with arguments. -/
  | generic (c : HostClass) (args : List Hint)
  /-- A name of the `typing` module, alone. -/
  | form (f : TypingForm)
  /-- A name of the `typing` module with arguments. -/
  | applied (f : TypingForm) (args : List Hint)
  /-- A union written with bars. -/
  | barUnion (members : List Hint)
  /-- A union written through the `typing` module. -/
  | typingUnion (members : List Hint)
  /-- A name whose definition comes later. -/
  | forwardRef (name : String)
  | list (items : List Hint)
  | ellipsis
  | text (s : String)
  | int (n : Int)
  | bool (b : Bool)

instance : Inhabited Hint := ⟨.none⟩

namespace Hint

/-- The host's name for the kind of a hint that is not of the `typing` module. -/
def kind : Hint → String
  | .none => "NoneType"
  | .cls _ => "type"
  | .generic .. => "types.GenericAlias"
  | .barUnion _ => "types.UnionType"
  | .list _ => "list"
  | .ellipsis => "ellipsis"
  | .text _ => "str"
  | .int _ => "int"
  | .bool _ => "bool"
  | .typeVar .. | .form _ | .applied .. | .typingUnion _ | .forwardRef _ => "typing"

/-- Whether a hint is of the `typing` module. -/
def isTyping : Hint → Bool
  | .typeVar .. | .form _ | .applied .. | .typingUnion _ | .forwardRef _ => true
  | _ => false

/-- The number that a value counts as: truth values count as zero and one. -/
def number? : Hint → Option Int
  | .int n => some n
  | .bool b => some (if b then 1 else 0)
  | _ => Option.none

/-! ## Showing hints -/

/-- Where a hint is shown. -/
inductive Place where
  /-- By itself or in a list. -/
  | alone
  /-- As an argument. -/
  | argument
  /-- As a member of a union written with bars. -/
  | barMember
  deriving DecidableEq

/-- A class at a place. -/
def showClass : Place → HostClass → String
  | .alone, c => "<class '" ++ c.path ++ "'>"
  | .argument, c => c.path
  | .barMember, c => if c == .noneType then "None" else c.path

/-- Arguments in brackets. -/
def bracketed (args : List String) : String :=
  if args.isEmpty then "[()]" else "[" ++ ", ".intercalate args ++ "]"

/-- Whether a hint is the class of `None`. -/
def isNoneType : Hint → Bool
  | .cls c => c == .noneType
  | _ => false

/-- The place of the member beside `None` in a union of two. -/
def optional? : List Hint → Option Nat
  | [a, b] => if a.isNoneType then some 1 else if b.isNoneType then some 0 else Option.none
  | _ => Option.none

mutual

/-- A hint at a place. -/
def render (place : Place) : Hint → String
  | .none => "None"
  | .cls c => showClass place c
  | .typeVar name _ => "~" ++ name
  | .generic c args => c.path ++ bracketed (renderAll .argument args)
  | .form f => f.display
  | .applied f args => f.display ++ bracketed (renderAll .argument args)
  | .barUnion ms => " | ".intercalate (renderAll .barMember ms)
  | .typingUnion ms =>
      match optional? ms with
      | some i => "typing.Optional" ++ bracketed (((renderAll .argument ms)[i]?).toList)
      | Option.none => "typing.Union" ++ bracketed (renderAll .argument ms)
  | .forwardRef name => "ForwardRef(" ++ Text.quoted name ++ ")"
  | .list items => "[" ++ ", ".intercalate (renderAll .alone items) ++ "]"
  | .ellipsis => if place == .alone then "Ellipsis" else "..."
  | .text s => Text.quoted s
  | .int n => toString n
  | .bool b => HostValue.showBool b

/-- Several hints at a place. -/
def renderAll (place : Place) : List Hint → List String
  | [] => []
  | h :: hs => render place h :: renderAll place hs

end

/-- Several hints in parentheses, cut to a hundred characters. -/
def showTuple (hs : List Hint) : String :=
  String.ofList (("(" ++ ", ".intercalate (renderAll .alone hs) ++ ")").toList.take 100)

/-! ## Refusals -/

/-- Why a hint cannot be built or is no value type. -/
inductive Refusal where
  /-- The value is no hint. -/
  | notAHint (h : Hint)
  /-- A union is no value type, because a type has one value at most. -/
  | union (h : Hint)
  /-- Two values with a bar between them that make no hint. -/
  | noBar (left right : Hint)
  /-- A union of nothing. -/
  | emptyUnion
  /-- A name that builds unions stands as an argument. -/
  | plainForm (f : TypingForm)
  /-- A name has the wrong number of arguments. -/
  | argumentCount (f : TypingForm) (actual expected : Nat)
  /-- An optional hint of other than one argument. -/
  | singleType (args : List Hint)
  /-- A text that is no expression stands for a later definition. -/
  | notAnExpression (s : String)
  /-- Members that hold a list are compared as a set. -/
  | listInSet

/-- The wording of a refusal. -/
def Refusal.message : Refusal → String
  | .notAHint h => "Cannot convert hint: " ++ h.render .alone
  | .union h => "Python unions are not value types: " ++ h.render .alone
  | .noBar a b =>
      "unsupported operand type(s) for |: '" ++ a.kind ++ "' and '" ++ b.kind ++ "'"
  | .emptyUnion => "Cannot take a Union of no types."
  | .plainForm f => "Plain " ++ f.display ++ " is not valid as type argument"
  | .argumentCount f actual expected =>
      "Too " ++ (if actual > expected then "many" else "few") ++ " arguments for " ++ f.display ++
        "; actual " ++ toString actual ++ ", expected " ++ toString expected
  | .singleType args => "typing.Optional requires a single type. Got " ++ showTuple args ++ "."
  | .notAnExpression s => "Forward reference must be an expression -- got " ++ Text.quoted s
  | .listInSet => "unhashable type: 'list'"

end Hint

end Fallible
