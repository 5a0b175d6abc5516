import Fallible.Session.Basic

/-!
# Calls of polymorphic functions

A signature may have type parameters. Each use of it puts fresh flexible
variables in their place, so that every call finds its own types. A parameter
that stands for a whole type is replaced together with its two projections.
-/

namespace Fallible

/-- A parameter of a signature. -/
inductive TypeParam where
  /-- A type variable. -/
  | type (name : String) (flexible : Bool)
  /-- An error variable. -/
  | error (v : ErrorVar)

/-- The signature of a function. -/
structure Signature where
  name : String
  typeParams : List TypeParam
  params : List Ty
  returns : Ty

namespace Session

/-- Puts fresh variables in the place of parameters. -/
def freshParams (s : Session) :
    List TypeParam → Table Ty Ty → Except Fault (Table Ty Ty) × Session
  | [], images => (.ok images, s)
  | .type name flexible :: rest, images =>
      match s.freshTyVar name with
      | (.error f, s) => (.error f, s)
      | (.ok fresh, s) =>
          s.freshParams rest <|
            ((images.insert (.var name flexible) (.var fresh true)).insert
              (.valueProj name flexible) (.valueProj fresh true)).insert
              (.errorVar (.ofTyVar name flexible)) (.errorVar (.ofTyVar fresh true))
  | .error v :: rest, images =>
      match s.freshErrorVar v.name v.bound with
      | (.error f, s) => (.error f, s)
      | (.ok fresh, s) => s.freshParams rest (images.insert (.errorVar v) (.errorVar fresh))

/-- Checks a type that substitution may have spoilt. A union that breaks the
grammar is reported, and counts as a failed type. -/
def checked (s : Session) (location : Location) (t : Ty) : Ty × Session :=
  match Grammar.violation? t with
  | some cause => (.erroneous, s.report location cause)
  | none => (t, s)

/-- Checks several types in order. -/
def checkedAll (s : Session) (location : Location) : List Ty → List Ty × Session
  | [] => ([], s)
  | t :: ts =>
      let (t, s) := s.checked location t
      let (ts, s) := s.checkedAll location ts
      (t :: ts, s)

/-- The parameter types and the result type of a signature, with fresh
variables in the place of its type parameters. -/
def instantiate (s : Session) (sig : Signature) (location : Location) :
    Except Fault (List Ty × Ty) × Session :=
  match s.freshParams sig.typeParams .empty with
  | (.error f, s) => (.error f, s)
  | (.ok images, s) =>
      let (params, s) := s.checkedAll location (Ty.substAll images sig.params)
      let (returns, s) := s.checked location (sig.returns.subst images)
      (.ok (params, returns), s)

/-- Requires that each argument fit its parameter. -/
def requireArgs (s : Session) : List (Ty × TypedExpr) → Except Fault Unit × Session
  | [] => (.ok (), s)
  | (param, arg) :: rest =>
      match s.requireExpr param arg with
      | (.error f, s) => (.error f, s)
      | (.ok _, s) => s.requireArgs rest

/-- Checks a call and yields the type of its result. -/
def call (s : Session) (sig : Signature) (args : List TypedExpr) (location : Location) :
    Except Fault Ty × Session :=
  if args.length != sig.params.length then
    (.error (.argumentCount sig.name sig.params.length args.length), s)
  else
    match s.instantiate sig location with
    | (.error f, s) => (.error f, s)
    | (.ok (params, returns), s) =>
        match s.requireArgs (params.zip args) with
        | (.error f, s) => (.error f, s)
        | (.ok _, s) => (.ok returns, s)

end Session

end Fallible
