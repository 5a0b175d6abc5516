import Fallible.Grammar
import Fallible.Registry
import Fallible.Subtyping.Engine

/-!
# Inference sessions

A session covers one scope that the host checks as a unit. It hands out
flexible variables, takes requirements that one type cover another, and
collects diagnostics. While it is open, a requirement may bind value
projections and add constraints on error variables. Solving it, or abandoning
it, closes it.

Every operation yields its answer, or a fault, together with the session after
it. What an operation did before a fault stays done.
-/

namespace Fallible

/-- A comparison that had to wait. -/
structure Pending where
  sup : Ty
  sub : Ty
  location : Location

/-- A session. -/
structure Session where
  options : Options
  /-- The registry that must have issued the classifiers of constraints. -/
  registry : Registry
  status : Status
  /-- The number of variables handed out. -/
  counter : Nat
  /-- The flexible error variables handed out. -/
  issued : List ErrorVar
  constraints : List Constraint
  diagnostics : List Diagnostic
  bindings : Bindings
  /-- The solution, once there is one. -/
  solution : Option Solution
  /-- The variables whose sets were lost because solving failed. -/
  poisoned : List ErrorVar
  pending : List Pending
  /-- The types attached to the host's nodes. -/
  annotations : Table String (Ty × Location)

/-- An expression that the host has typed. -/
structure TypedExpr where
  node : String
  type : Ty
  location : Location

namespace Session

/-- A session in which nothing has been checked. -/
def new (options : Options) (registry : Registry) : Session :=
  { options, registry, status := .active, counter := 0, issued := [], constraints := []
    diagnostics := [], bindings := .empty, solution := none, poisoned := [], pending := []
    annotations := .empty }

/-- The session with one more diagnostic. -/
def report (s : Session) (location : Location) (cause : Cause) : Session :=
  { s with diagnostics := s.diagnostics ++ [⟨location, cause⟩] }

/-- Runs an operation that only an open session allows. -/
def whileOpen {α : Type} (s : Session) (op : Except Fault α × Session) :
    Except Fault α × Session :=
  match s.status with
  | .active => op
  | status => (.error (.notOpen status), s)

/-! ## Fresh variables -/

/-- The name of the next fresh variable. -/
def freshName (s : Session) (base : String) : String := base ++ "$" ++ toString s.counter

/-- The session that has handed out one more name, for an error variable. -/
def issue (s : Session) (v : ErrorVar) : Session :=
  { s with
    counter := s.counter + 1
    issued := if s.issued.contains v then s.issued else s.issued ++ [v] }

/-- Hands out a flexible error variable. -/
def freshErrorVar (s : Session) (base : String) (bound : Universe) :
    Except Fault ErrorVar × Session :=
  let v : ErrorVar := ⟨s.freshName base, bound, true⟩
  s.whileOpen (.ok v, s.issue v)

/-- Hands out the name of a flexible type variable. -/
def freshTyVar (s : Session) (base : String) : Except Fault String × Session :=
  let name := s.freshName base
  s.whileOpen (.ok name, s.issue (.ofTyVar name true))

/-! ## Unions and requirements -/

/-- Builds a union. One that breaks the grammar is reported, and counts as a
failed type. -/
def union (s : Session) (members : List Ty) (location : Location) : Ty × Session :=
  match Grammar.check members with
  | some cause => (.erroneous, s.report location cause)
  | none => ((Ty.unionOf members).canonical, s)

/-- The engine that makes the session's comparisons. -/
def engine (s : Session) : Engine :=
  ⟨s.options.order, .empty, some s.bindings, some s.constraints⟩

/-- The session with the traces of a comparison. -/
def withTraces (s : Session) (e : Engine) : Session :=
  { s with
    bindings := e.bindings.getD s.bindings
    constraints := e.obligations.getD s.constraints }

/-- Records the answer to a requirement. -/
def record (s : Session) (sup sub : Ty) (location : Location) : Verdict → Session
  | .holds => s
  | .fails => s.report location (.mismatch sup sub)
  | .pending => { s with pending := s.pending ++ [⟨sup, sub, location⟩] }

/-- Requires that `sup` cover `sub`. A failure is reported at once; a
comparison that has to wait is remembered. -/
def require (s : Session) (sup sub : Ty) (location : Location) :
    Except Fault Verdict × Session :=
  s.whileOpen <|
    match s.engine.check sup sub location with
    | (.ok verdict, e) => (.ok verdict, (s.withTraces e).record sup sub location verdict)
    | (.error f, e) => (.error f, s.withTraces e)

/-- Requires that an expression fit a type. -/
def requireExpr (s : Session) (sup : Ty) (e : TypedExpr) : Except Fault Verdict × Session :=
  s.require sup e.type e.location

/-! ## Annotations -/

/-- Attaches a type to a node. -/
def annotate (s : Session) (node : String) (t : Ty) (location : Location) : Session :=
  { s with annotations := s.annotations.insert node (t, location) }

/-- Attaches a type to a node of which only the name is known. -/
def annotateNode (s : Session) (node : String) (t : Option Ty) : Except Fault Unit × Session :=
  match t with
  | some t => (.ok (), s.annotate node t .unknown)
  | none => (.error .missingType, s)

/-- Attaches a type to an expression, by default its own. -/
def annotateExpr (s : Session) (e : TypedExpr) (t : Option Ty) : Session :=
  s.annotate e.node (t.getD e.type) e.location

/-! ## Abandoning -/

/-- Abandons a session that was not solved. -/
def cancel (s : Session) : Except Fault Unit × Session :=
  match s.status with
  | .solved => (.error .alreadySolved, s)
  | _ =>
      (.ok (), { s with
        status := .cancelled
        constraints := []
        pending := []
        annotations := .empty
        bindings := .empty })

end Session

end Fallible
