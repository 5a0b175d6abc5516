import Fallible.Text.Quoted

/-!
# Plain values of the host

A host configures the checker with plain values: nothing, truth values,
integers, texts, lists and maps. A value in the place of a truth value counts as
true unless it is nothing, zero or empty. Only single values can be looked up by
name; lists and maps cannot.
-/

namespace Fallible

/-- A plain value. -/
inductive HostValue where
  | none
  | bool (b : Bool)
  | int (n : Int)
  | text (s : String)
  | list (items : List HostValue)
  | map (entries : List (String × HostValue))

instance : Inhabited HostValue := ⟨.none⟩

namespace HostValue

/-- Whether a value counts as true. -/
def isTrue : HostValue → Bool
  | .none => false
  | .bool b => b
  | .int n => n != 0
  | .text s => !s.isEmpty
  | .list items => !items.isEmpty
  | .map entries => !entries.isEmpty

/-- The kind of a value that cannot be looked up. -/
def compound? : HostValue → Option String
  | .list _ => some "list"
  | .map _ => some "dict"
  | _ => Option.none

/-- A truth value as messages show it. -/
def showBool (b : Bool) : String := if b then "True" else "False"

/-- A single value as messages show it; lists and maps are never shown. -/
def display : HostValue → String
  | .none => "None"
  | .bool b => showBool b
  | .int n => toString n
  | .text s => Text.quoted s
  | .list _ | .map _ => ""

end HostValue

end Fallible
