import Fallible.Obligation

/-!
# Comparisons that leave traces

An engine compares types as a view does, and may do two things more. If it has
bindings, comparing a value with a flexible projection that is not bound binds
it. If it collects obligations, a comparison that has to wait adds its
constraints. What a comparison has bound stays bound, whatever its answer.

Arguments are always compared through the engine's view, without traces.
-/

namespace Fallible

/-- Compares types and keeps what the comparisons bind and ask for. -/
structure Engine where
  order : ValueOrder
  solution : Solution
  /-- The bindings, if projections may be bound. -/
  bindings : Option Bindings
  /-- The constraints collected so far, if they are collected. -/
  obligations : Option (List Constraint)

namespace Engine

/-- An engine that leaves no traces. -/
def plain (order : ValueOrder) : Engine := ⟨order, .empty, none, none⟩

/-- What the engine's comparisons may look at. -/
def view (e : Engine) : View := ⟨e.order, e.solution, e.bindings.getD .empty⟩

/-- Whether a projection may be bound. -/
def isFree (e : Engine) (name : String) : Bool :=
  match e.bindings with
  | some b => !b.contains name
  | none => false

/-- Binds a projection, if the engine has bindings. -/
def bind (e : Engine) (name : String) (t : Ty) : Engine :=
  { e with bindings := e.bindings.map fun b => b.bind name t }

/-- Adds constraints, if the engine collects them. -/
def oblige (e : Engine) (cs : List Constraint) : Engine :=
  { e with obligations := e.obligations.map (· ++ cs) }

/-- Compares two values, binding a projection if that decides it. -/
def compareValues (e : Engine) (sup sub : Ty) : Except Fault Bool × Engine :=
  match e.view.follow sup, e.view.follow sub with
  | .ok above, .ok below =>
      match View.valueStep e.isFree above below with
      | .decided answer => (.ok answer, e)
      | .bind name t => (.ok true, e.bind name t)
      | .constructors c as d bs => (View.consRelate e.order e.view.holds c as d bs, e)
  | .error f, _ => (.error f, e)
  | _, .error f => (.error f, e)

/-- Adds the constraints of a comparison that has to wait. -/
def generate (e : Engine) (sup sub : Ty) (location : Location) :
    Except Fault (List Constraint) × Engine :=
  match Obligation.constraints e.view sup sub location with
  | .ok cs => (.ok cs, e.oblige cs)
  | .error f => (.error f, e)

/-- Compares the errors of two types. -/
def compareErrors (e : Engine) (sup sub : Ty) (location : Location) :
    Except Fault Verdict × Engine :=
  match View.compareErrors e.view.holds (e.view.interpret sup) (e.view.interpret sub) with
  | .ok .pending =>
      if e.obligations.isSome then
        match e.generate sup sub location with
        | (.ok _, e) => (.ok .pending, e)
        | (.error f, e) => (.error f, e)
      else (.ok .pending, e)
  | answer => (answer, e)

/-- Compares two types. -/
def check (e : Engine) (sup sub : Ty) (location : Location) : Except Fault Verdict × Engine :=
  if sup.failed || sub.failed then (.ok .holds, e)
  else
    match e.compareValues sup.valuePart sub.valuePart with
    | (.ok true, e) => e.compareErrors sup sub location
    | (.ok false, e) => (.ok .fails, e)
    | (.error f, e) => (.error f, e)

end Engine

end Fallible
