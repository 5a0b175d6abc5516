import Fallible.Text.Quoted

/-!
# Locations

A location says where the host's source gave rise to a check: a path of the
host's choice, and a line and column where they are known. A column without a
line is not shown.
-/

namespace Fallible

/-- A place in the host's source. -/
structure Location where
  path : String
  line : Option Int
  column : Option Int

namespace Location

/-- The place of which nothing is known. -/
def unknown : Location := ⟨"<unknown>", none, none⟩

instance : Inhabited Location := ⟨unknown⟩

/-- The location as text. -/
def describe (l : Location) : String :=
  match l.line, l.column with
  | none, _ => l.path
  | some line, none => s!"{l.path}:{line}"
  | some line, some column => s!"{l.path}:{line}:{column}"

/-- The location of a part, named by one more segment of the path. -/
def child (l : Location) (segment : String) : Location :=
  { l with path := l.path ++ "." ++ segment }

/-- A number that may be missing. -/
def showNumber : Option Int → String
  | none => "None"
  | some n => toString n

/-- The location with all its fields. -/
def display (l : Location) : String :=
  "SourceLocation(path=" ++ Text.quoted l.path ++ ", line=" ++ showNumber l.line ++
    ", column=" ++ showNumber l.column ++ ")"

end Location

end Fallible
