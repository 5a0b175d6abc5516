import Fallible.Constraint
import Fallible.Payload
import Fallible.Solution

/-!
# What variables hold while constraints are being solved

During solving each variable holds some atoms with their arguments, and
possibly everything. A constraint offers its target a contribution: what flows
in from its source, or what it requires outright, less what is known. Absorbing
a contribution adds the atoms that are not there yet and merges the arguments
of those that are. It never takes an atom away.
-/

namespace Fallible

/-- What a variable holds so far. -/
structure Holding where
  atoms : Instantiations
  universal : Bool

namespace Holding

/-- Holding nothing. -/
def empty : Holding := ⟨.empty, false⟩

instance : Inhabited Holding := ⟨empty⟩

/-- What a set holds. -/
def ofSet (s : ErrorSet) : Holding := ⟨s.index, s.universal⟩

/-- What is held, as a set. -/
def toSet (h : Holding) : ErrorSet := .ofTable h.atoms h.universal

/-- What is held beyond a known set. -/
def beyond (h : Holding) (known : ErrorSet) : Holding :=
  ⟨h.atoms.filterKeys fun a => !known.contains a, h.universal && !known.universal⟩

/-- What a variable without a set of its own holds: itself. -/
def ofRigid (v : ErrorVar) : Holding := ⟨.ofList [(.var v, [])], false⟩

/-- The outcome of absorbing a contribution. -/
inductive Absorbed where
  /-- What is held now, and whether that is more than before. -/
  | done (h : Holding) (grew : Bool)
  /-- A classifier came with arguments that cannot be merged. -/
  | clash (c : Classifier) (first second : List Ty)

/-- Absorbs entries one by one. -/
def absorbEntries (p : Policy) (holds : Comparison) :
    List (Atom × List Ty) → Holding → Bool → Except Fault Absorbed
  | [], h, grew => return .done h grew
  | (atom, args) :: rest, h, grew =>
      match h.atoms.get? atom with
      | none => absorbEntries p holds rest { h with atoms := h.atoms.insert atom args } true
      | some old => do
          match ← Payload.merge p holds atom old args with
          | some merged =>
              if merged == old then absorbEntries p holds rest h grew
              else
                absorbEntries p holds rest { h with atoms := h.atoms.insert atom merged } true
          | none =>
              match atom with
              | .classifier c => return .clash c old args
              | .var v => throw (.argumentsOnVariable v)

/-- Absorbs a contribution. -/
def absorb (p : Policy) (holds : Comparison) (h incoming : Holding) : Except Fault Absorbed :=
  absorbEntries p holds incoming.atoms.entries
    { h with universal := h.universal || incoming.universal }
    (incoming.universal && !h.universal)

end Holding

/-- What every variable holds so far. -/
abbrev Holdings := Table ErrorVar Holding

namespace Holdings

/-- What a variable holds; one that was never mentioned holds nothing. -/
def of (hs : Holdings) (v : ErrorVar) : Holding := (hs.get? v).getD .empty

/-- What flows out of a variable. A rigid variable stands for itself. -/
def source (hs : Holdings) (v : ErrorVar) : Holding :=
  if v.flexible then of hs v else .ofRigid v

/-- The holdings as a solution. -/
def toSolution (hs : Holdings) : Solution := ⟨hs.mapValues Holding.toSet⟩

/-- What the variables hold before any constraint is applied. Flexible
variables of the constraints hold nothing unless they are given a set. -/
def start (initial : Table ErrorVar ErrorSet) (cs : List Constraint) : Holdings :=
  ((cs.flatMap Constraint.vars).filter ErrorVar.flexible).foldl
    (fun hs v => hs.insertNew v .empty) (initial.mapValues Holding.ofSet)

end Holdings

/-- What a constraint asks its target to hold. -/
def Constraint.contribution? (c : Constraint) (hs : Holdings) : Option (ErrorVar × Holding) :=
  match c.demand with
  | .subset sub sup known => some (sup, (hs.source sub).beyond known)
  | .unionSubset v known required => some (v, (Holding.ofSet required).beyond known)
  | _ => none

end Fallible
