import Fallible.Options

/-!
# Arguments of classifiers

Two argument lists of one classifier are compared, and merged, parameter by
parameter, as the declared variance of each says. Both operations are given
the comparison of single arguments as a function, `holds sup sub`, which may
itself end in a fault.

An empty list means that the arguments are not fixed yet. It covers every
other list and is covered by every other list.
-/

namespace Fallible

/-- A comparison of types: whether `sup` covers `sub`. -/
abbrev Comparison := Ty → Ty → Except Fault Bool

namespace Payload

/-- Compares two arguments of a parameter. -/
def coversArg (holds : Comparison) : Variance → Ty → Ty → Except Fault Bool
  | .covariant, sup, sub => holds sup sub
  | .contravariant, sup, sub => holds sub sup
  | .invariant, sup, sub => do
      if ← holds sup sub then holds sub sup else return false

/-- Compares arguments one by one, those of parameter `i` first. -/
def coversFrom (holds : Comparison) (atom : Atom) : Nat → List Ty → List Ty → Except Fault Bool
  | i, a :: as, b :: bs => do
      if ← coversArg holds (atom.variance i) a b then coversFrom holds atom (i + 1) as bs
      else return false
  | _, _, _ => return true

/-- Whether the arguments `sup` of an atom cover the arguments `sub`. -/
def covers (holds : Comparison) (atom : Atom) (sup sub : List Ty) : Except Fault Bool :=
  if sup.isEmpty || sub.isEmpty || sup == sub then return true
  else if sup.length != sub.length then return false
  else coversFrom holds atom 0 sup sub

/-- Whether every entry is covered by the arguments that `sup` has for it. -/
def coversEntries (holds : Comparison) (sup : ErrorSet) :
    List (Atom × List Ty) → Except Fault Bool
  | [] => return true
  | (atom, args) :: rest =>
      match sup.get? atom with
      | none => return false
      | some supArgs => do
          if ← covers holds atom supArgs args then coversEntries holds sup rest
          else return false

/-- Whether a set holds every atom of another, with arguments that cover its. -/
def subsumes (holds : Comparison) (sup sub : ErrorSet) : Except Fault Bool :=
  if sup.universal then return true
  else if sub.universal then return false
  else coversEntries holds sup sub.entries

/-! ## Merging -/

/-- The wider of two arguments, or the given type when neither is. -/
def widest (holds : Comparison) (fallback : Option Ty) (old new : Ty) :
    Except Fault (Option Ty) := do
  if ← holds old new then return some old
  else if ← holds new old then return some new
  else return fallback

/-- The narrower of two arguments, or the given type when neither is. -/
def narrowest (holds : Comparison) (fallback : Option Ty) (old new : Ty) :
    Except Fault (Option Ty) := do
  if ← holds old new then return some new
  else if ← holds new old then return some old
  else return fallback

/-- One of two arguments that agree. -/
def agreed (old new : Ty) : Option Ty := if old == new then some old else none

/-- Merges two arguments of a parameter. -/
def mergeArg (p : Policy) (holds : Comparison) : Variance → Ty → Ty → Except Fault (Option Ty)
  | .invariant, old, new => return agreed old new
  | .covariant, old, new =>
      match p with
      | .strict => return agreed old new
      | .soft => widest holds (some .value) old new
  | .contravariant, old, new =>
      match p with
      | .strict => narrowest holds none old new
      | .soft => narrowest holds (some .nothing) old new

/-- Merges arguments one by one, those of parameter `i` first. -/
def mergeFrom (p : Policy) (holds : Comparison) (atom : Atom) :
    Nat → List Ty → List Ty → Except Fault (Option (List Ty))
  | i, a :: as, b :: bs => do
      match ← mergeArg p holds (atom.variance i) a b with
      | none => return none
      | some m =>
          match ← mergeFrom p holds atom (i + 1) as bs with
          | none => return none
          | some ms => return some (m :: ms)
  | _, _, _ => return some []

/-- Merges the arguments already recorded for an atom with new ones. There is
no result if the policy cannot reconcile them. -/
def merge (p : Policy) (holds : Comparison) (atom : Atom) (current incoming : List Ty) :
    Except Fault (Option (List Ty)) :=
  if current == incoming || incoming.isEmpty then return some current
  else if current.isEmpty then return some incoming
  else if current.length != incoming.length then return none
  else mergeFrom p holds atom 0 current incoming

end Payload

end Fallible
