import Fallible.Ty.Canonical

/-!
# Types as text

Types are shown in canonical form, so that two spellings of one type read the
same in every message. Members of a union are divided by bars, arguments stand
in brackets behind the name, and flexible variables are marked by a question
mark.
-/

namespace Fallible.Ty

mutual

/-- The text of a type in canonical form. -/
def render : Ty → String
  | .any => "Any"
  | .value => "Value"
  | .error => "Error"
  | .nothing => "Nothing"
  | .erroneous => "<error>"
  | .con c args => c.name ++ showArgs args
  | .var name _ => name
  | .valueProj name flexible => (if flexible then "?" else "") ++ name ++ "|_v"
  | .errorConst c args => c.qualifiedName ++ showArgs args
  | .errorVar v => (if v.flexible then "?" else "") ++ v.name
  | .union ms => " | ".intercalate (showAll ms)

/-- The texts of several types in canonical form. -/
def showAll : List Ty → List String
  | [] => []
  | t :: ts => render t :: showAll ts

/-- The arguments of a constructor or classifier. -/
def showArgs : List Ty → String
  | [] => ""
  | t :: ts => "[" ++ ", ".intercalate (render t :: showAll ts) ++ "]"

end

/-- The text of a type. -/
def text (t : Ty) : String := render t.canonical

/-- The texts of several types, divided by commas. -/
def textList (ts : List Ty) : String := ", ".intercalate (ts.map text)

/-- The constituents of several types as a union in written order. -/
def textMembers (ms : List Ty) : String :=
  " | ".intercalate ((constituentsAll ms).map text)

end Fallible.Ty

/-- The text of an error variable. -/
def Fallible.ErrorVar.text (v : Fallible.ErrorVar) : String := (Fallible.Ty.errorVar v).text
