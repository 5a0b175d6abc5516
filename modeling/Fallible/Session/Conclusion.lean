import Fallible.Fixpoint.Solve
import Fallible.Session.Call

/-!
# Concluding a session

Solving closes a session: the constraints are solved once, comparisons that had
to wait are made again under the solution, and the types attached to nodes are
resolved. If the constraints have no solution, every variable of the session is
poisoned, and a type that mentions one resolves to a failed type.

Resolving a type writes out the value bindings and puts in the solution. After
solving nothing flexible is left: a value projection that was never bound is
`Nothing`.
-/

namespace Fallible

/-- What a solved session reports. -/
structure SessionReport where
  diagnostics : List Diagnostic
  solution : Solution
  /-- The resolved types of the annotated nodes. -/
  types : Table String Ty

namespace SessionReport

/-- Whether nothing was reported. -/
def success (r : SessionReport) : Bool := r.diagnostics.isEmpty

/-- The diagnostics as text, numbered from one. -/
def text (r : SessionReport) : String :=
  if r.success then "Type check passed."
  else
    "\n".intercalate <|
      s!"Type check failed with {r.diagnostics.length} error(s):\n" ::
        (r.diagnostics.zipIdx 1).map fun d => s!"[{d.2}] " ++ d.1.text ++ "\n"

end SessionReport

namespace Session

/-! ## Resolving -/

/-- The canonical form of a type with everything known put in, and the first
violation of the grammar by it. -/
def resolution (s : Session) (t : Ty) : Except Fault (Ty × Option Cause) := do
  let unfolded ← s.bindings.apply t.canonical
  if unfolded.freeErrorVars.any s.poisoned.contains then return (.erroneous, none)
  else
    let resolved := match s.solution with
      | none => unfolded.canonical
      | some solution => (solution.apply unfolded).ground.canonical
    return (resolved, Grammar.violation? resolved)

/-- The canonical form of a type with everything known put in. One that breaks
the grammar is a failed type. -/
def resolve (s : Session) (t : Ty) : Except Fault Ty := do
  let (resolved, violation) ← s.resolution t
  return if violation.isSome then .erroneous else resolved

/-! ## Solving -/

/-- What the session's variables hold if no constraint says otherwise. -/
def emptySets (s : Session) : Table ErrorVar ErrorSet :=
  .ofList (s.issued.map fun v => (v, .empty))

/-- The flexible variables of the session and of its constraints. -/
def flexibleVariables (s : Session) : List ErrorVar :=
  s.issued ++ (s.constraints.flatMap Constraint.vars).filter ErrorVar.flexible

/-- The session closed with the outcome of solving its constraints. -/
def close (s : Session) (outcome : Fixpoint.Outcome) : Session :=
  match outcome.violation with
  | none =>
      { s with
        status := .solved
        solution := some (outcome.solution.extend s.emptySets) }
  | some d =>
      { s with
        status := .solved
        diagnostics := s.diagnostics ++ [d]
        solution := some .empty
        poisoned := s.poisoned ++ s.flexibleVariables }

/-- Makes comparisons again under a solution, and reports those that fail. -/
def revalidate (s : Session) (solution : Solution) : List Pending → Except Fault Unit × Session
  | [] => (.ok (), s)
  | p :: rest =>
      match (View.mk s.options.order solution s.bindings).holds p.sup p.sub with
      | .error f => (.error f, s)
      | .ok true => s.revalidate solution rest
      | .ok false =>
          (s.report p.location (.mismatch (solution.apply p.sup) (solution.apply p.sub))).revalidate
            solution rest

/-- Resolves annotations in order, and reports those that break the grammar. -/
def resolveAll (s : Session) : List (String × Ty × Location) → Table String Ty →
    Except Fault (Table String Ty) × Session
  | [], types => (.ok types, s)
  | (node, t, location) :: rest, types =>
      match s.resolution t with
      | .error f => (.error f, s)
      | .ok (resolved, none) => s.resolveAll rest (types.insert node resolved)
      | .ok (_, some cause) =>
          (s.report location cause).resolveAll rest (types.insert node .erroneous)

/-- Resolves the annotations of a closed session and draws up its report. -/
def finish (s : Session) : Except Fault SessionReport × Session :=
  match s.resolveAll s.annotations.entries .empty with
  | (.error f, s) => (.error f, s)
  | (.ok types, s) => (.ok ⟨s.diagnostics, s.solution.getD .empty, types⟩, s)

/-- Checks a closed session against the outcome of solving its constraints. -/
def review (s : Session) (outcome : Fixpoint.Outcome) : Except Fault Unit × Session :=
  match s.solution with
  | some solution =>
      if outcome.success && s.options.revalidates then s.revalidate solution s.pending
      else (.ok (), s)
  | none => (.ok (), s)

/-- Solves the constraints of an open session. -/
def outcome (s : Session) : Except Fault Fixpoint.Outcome :=
  Fixpoint.solve s.options.policy s.registry ⟨s.options.order, .empty, s.bindings⟩
    s.constraints .empty

/-- Solves an open session. -/
def solve (s : Session) : Except Fault SessionReport × Session :=
  s.whileOpen <|
    match s.outcome with
    | .error f => (.error f, s)
    | .ok outcome =>
        match (s.close outcome).review outcome with
        | (.error f, s) => (.error f, s)
        | (.ok _, s) => s.finish

end Session

end Fallible
