import Fallible.Constraint
import Fallible.Subtyping.View

/-!
# What a comparison that has to wait asks for

A comparison `sup` over `sub` that depends on unsolved variables is turned into
constraints under which it holds. Atoms that `sup` does not cover yet must be
received by its flexible variables; each atom is routed to one of them. What
flexible variables of `sub` come to hold must flow into those of `sup`, or,
where there are none, stay within what `sup` is known to hold.
-/

namespace Fallible

/-- The variable that is to receive an atom: the first whose alias contains
it, else the first without bound, else the first. -/
def route (atom : Atom) (targets : List ErrorVar) : Except Fault ErrorVar :=
  match targets.find? fun t => match t.bound with
      | .bounded a => atom.isWithin a
      | .unbounded => false with
  | some t => .ok t
  | none =>
      match targets.find? fun t => t.bound.isUnbounded with
      | some t => .ok t
      | none =>
          match targets with
          | t :: _ => .ok t
          | [] => .error .noTarget

namespace Obligation

/-- What each variable is to receive. -/
abbrev Routing := Table ErrorVar Instantiations

/-- Routes atoms, each to one of the targets. -/
def routeAll (targets : List ErrorVar) : List (Atom × List Ty) → Routing → Except Fault Routing
  | [], routing => return routing
  | (atom, args) :: rest, routing => do
      let t ← route atom targets
      routeAll targets rest
        (routing.insert t (((routing.get? t).getD .empty).insert atom args))

/-- The variable that receives `Error`: the first without bound, if `sub` has
`Error` and `sup` does not. -/
def absorber? (sup sub : Interpretation) : Option ErrorVar :=
  if sub.known.universal && !sup.known.universal then
    sup.flexible.find? fun t => t.bound.isUnbounded
  else none

/-- What must be received outright, target by target. -/
def received (sup : Interpretation) (absorber : Option ErrorVar) (missing : ErrorSet) :
    Except Fault (List Demand) := do
  let routing ←
    if sup.flexible.isEmpty then pure .empty
    else routeAll sup.flexible missing.entries .empty
  let routing := match absorber with
    | some t => routing.insertNew t .empty
    | none => routing
  return routing.entries.map fun e =>
    .unionSubset e.1 sup.known (.ofTable e.2 (absorber.any fun t => e.1 == t))

/-- What must hold of a flexible variable of `sub`. -/
def flow (sup : Interpretation) (v : ErrorVar) : Except Fault Demand :=
  if sup.flexible.isEmpty then return .upperBound v sup.known
  else do return .subset v (← route (.var v) sup.flexible) sup.known

/-- What must hold of the flexible variables of `sub` that `sup` lacks. -/
def flows (sup : Interpretation) : List ErrorVar → Except Fault (List Demand)
  | [] => return []
  | v :: vs => do
      if sup.flexible.contains v then flows sup vs
      else return (← flow sup v) :: (← flows sup vs)

/-- The demands under which a comparison holds. -/
def demands (view : View) (sup sub : Ty) : Except Fault (List Demand) := do
  let above := view.interpret sup
  let below := view.interpret sub
  let residual ← view.residual above.known below.known
  return (← received above (absorber? above below) residual.missing) ++
    (← flows above below.flexible)

/-- The comparison that gives rise to demands, as text. -/
def reason (sup sub : Ty) : String := sub.text ++ " <: " ++ sup.text

/-- The constraints under which a comparison holds. -/
def constraints (view : View) (sup sub : Ty) (location : Location) :
    Except Fault (List Constraint) := do
  return (← demands view sup sub).map fun d => ⟨d, location, reason sup sub⟩

end Obligation

end Fallible
