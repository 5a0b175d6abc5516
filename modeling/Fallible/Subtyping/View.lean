import Fallible.Bindings
import Fallible.Payload
import Fallible.Solution

/-!
# Comparing types

`sup` covers `sub` when its value part covers the value part of `sub` and its
errors contain the errors of `sub`. Errors are compared as sets. A flexible
error variable counts with its set once it is solved; while it is not, the
answer may be that the comparison has to wait.

A view is what a comparison may look at: how value constructors relate, the
solved variables, and the value bindings. Looking changes nothing.

Arguments, of constructors and of classifiers, are compared again as types.
One level of the comparison is written over the comparison of arguments, and
the levels are stacked up to a depth. On the way down each side is at first a
part of the type it started from, and gets smaller with each level. Once it is
taken from a bound type or a solved set it stays one of the arguments in view.
So a comparison that goes deeper than the sizes of the two types and the number
of pairs of such arguments has come back to a pair it started from. It would
never end, and is a fault.
-/

namespace Fallible

/-- The answer to a comparison. -/
inductive Verdict where
  | holds
  | fails
  /-- The answer depends on variables that are not solved. -/
  | pending
  deriving DecidableEq

/-- The errors of a type, as far as they are known. -/
structure Interpretation where
  /-- Classifiers, rigid variables, and what solved variables hold. -/
  known : ErrorSet
  /-- Flexible variables that are not solved, in written order. -/
  flexible : List ErrorVar

/-- The reply to one question. -/
def Inquiry.reply (holds : Comparison) (supArgs subArgs : List Ty) (turned : Bool) (i j : Nat) :
    Except Fault Bool :=
  match supArgs[i]?, subArgs[j]? with
  | some a, some b => if turned then holds b a else holds a b
  | _, _ => return false

/-- The answer that an inquiry comes to. -/
def Inquiry.run (holds : Comparison) (supArgs subArgs : List Ty) : Inquiry → Except Fault Bool
  | .answer related => return related
  | .ask turned i j next => do
      (next (← reply holds supArgs subArgs turned i j)).run holds supArgs subArgs

/-- What a comparison may look at. -/
structure View where
  order : ValueOrder
  solution : Solution
  bindings : Bindings

namespace View

/-- A view of the value order alone. -/
def plain (order : ValueOrder) : View := ⟨order, .empty, .empty⟩

/-! ## Values -/

/-- Compares two argument lists of a constructor; arguments are invariant. -/
def argsAgree (holds : Comparison) : List Ty → List Ty → Except Fault Bool
  | a :: as, b :: bs => do
      if ← Payload.coversArg holds .invariant a b then argsAgree holds as bs
      else return false
  | [], [] => return true
  | _, _ => return false

/-- Whether one constructor stands above another by the host's classes. Named
constructors stand above nothing but themselves. -/
def classAbove : Con → Con → Bool
  | .host sup, .host sub => sub.isSubclass sup
  | _, _ => false

/-- Compares two constructors with arguments by the host's classes. Different
constructors are related only if neither has arguments. -/
def classesRelate (holds : Comparison) (sup : Con) (supArgs : List Ty) (sub : Con)
    (subArgs : List Ty) : Except Fault Bool :=
  if sup == sub then
    if supArgs.length != subArgs.length then return false
    else argsAgree holds supArgs subArgs
  else return classAbove sup sub && supArgs.isEmpty && subArgs.isEmpty

/-- Compares two constructors with arguments. -/
def consRelate (order : ValueOrder) (holds : Comparison) (sup : Con) (supArgs : List Ty)
    (sub : Con) (subArgs : List Ty) : Except Fault Bool :=
  match order with
  | .classes => classesRelate holds sup supArgs sub subArgs
  | .custom rule => (rule.inquire sup supArgs sub subArgs).run holds supArgs subArgs

/-- What a comparison of two values comes down to. -/
inductive ValueStep where
  /-- The answer is known. -/
  | decided (answer : Bool)
  /-- A projection is to be bound, which makes the comparison hold. -/
  | bind (name : String) (t : Ty)
  /-- Two constructors are to be compared. -/
  | constructors (sup : Con) (supArgs : List Ty) (sub : Con) (subArgs : List Ty)

/-- The rules for values that are neither equal nor about to be bound. -/
def latticeStep : Ty → Ty → ValueStep
  | _, .nothing => .decided true
  | .value, _ => .decided true
  | .nothing, _ => .decided false
  | _, .value => .decided false
  | .con c as, .con d bs => .constructors c as d bs
  | _, _ => .decided false

/-- The name of a flexible value projection that may be bound. -/
def bindable? (free : String → Bool) : Ty → Option String
  | .valueProj name true => if free name then some name else none
  | _ => none

/-- What a comparison of two values comes down to, where `free` says which
projections may be bound. Binding goes before the rules for `Nothing` and
`Value`: a projection compared with one of them is bound to it. -/
def valueStep (free : String → Bool) (sup sub : Ty) : ValueStep :=
  if sup == sub || sup.isErroneous || sub.isErroneous then .decided true
  else
    match bindable? free sup with
    | some name => .bind name sub
    | none =>
        match bindable? free sub with
        | some name => .bind name sup
        | none => latticeStep sup sub

/-- What a value stands for: a bound projection is written out. -/
def follow (v : View) (t : Ty) : Except Fault Ty :=
  match t with
  | .valueProj .. => v.bindings.apply t
  | _ => .ok t

/-- Compares two values without binding any projection. -/
def compareValues (v : View) (holds : Comparison) (sup sub : Ty) : Except Fault Bool := do
  match valueStep (fun _ => false) (← v.follow sup) (← v.follow sub) with
  | .decided answer => return answer
  | .bind _ _ => return false
  | .constructors c as d bs => consRelate v.order holds c as d bs

/-! ## Errors -/

/-- An interpretation under construction. -/
structure Reading where
  known : Instantiations
  universal : Bool
  flexible : List ErrorVar

/-- Adds an error constituent. A classifier takes the arguments named last; a
solved set only adds atoms that are not there. -/
def Reading.add (s : Solution) (r : Reading) : Ty → Reading
  | .error => { r with universal := true }
  | .errorConst c args => { r with known := r.known.insert (.classifier c) args }
  | .errorVar x =>
      if x.flexible then
        match s.get? x with
        | some set =>
            { r with
              known := set.entries.foldl (fun t e => t.insertNew e.1 e.2) r.known
              universal := r.universal || set.universal }
        | none => { r with flexible := r.flexible ++ [x] }
      else { r with known := r.known.insert (.var x) [] }
  | _ => r

/-- The errors of a type under a solution. -/
def interpretWith (s : Solution) (t : Ty) : Interpretation :=
  let r := t.errorPart.foldl (Reading.add s) ⟨.empty, false, []⟩
  ⟨.ofTable r.known r.universal, r.flexible⟩

/-- The errors of a type, as far as they are known in this view. -/
def interpret (v : View) (t : Ty) : Interpretation := interpretWith v.solution t

/-- Whether a set lists every classifier that an atom can stand for. This is
so only for variables bounded by an alias. -/
def coveredByAlias (known : ErrorSet) : Atom → Bool
  | .var x =>
      match x.bound with
      | .bounded a => a.members.all fun c => known.contains (.classifier c)
      | .unbounded => false
  | .classifier _ => false

/-- What a set leaves uncovered of another. -/
structure Residual where
  /-- Atoms that the set does not have. -/
  missing : ErrorSet
  /-- Atoms that the set has with arguments that do not cover. -/
  mismatched : ErrorSet

/-- Collects what `sup` leaves uncovered of some entries, added to the missing
and the mismatched atoms found before. -/
def uncovered (holds : Comparison) (sup : ErrorSet) : List (Atom × List Ty) →
    Instantiations → Instantiations → Except Fault (Instantiations × Instantiations)
  | [], missing, mismatched => return (missing, mismatched)
  | (atom, args) :: rest, missing, mismatched =>
      match sup.get? atom with
      | some supArgs => do
          if ← Payload.covers holds atom supArgs args then
            uncovered holds sup rest missing mismatched
          else uncovered holds sup rest missing (mismatched.insert atom args)
      | none =>
          if coveredByAlias sup atom then uncovered holds sup rest missing mismatched
          else uncovered holds sup rest (missing.insert atom args) mismatched

/-- What `sup` leaves uncovered of `sub`. -/
def residualWith (holds : Comparison) (sup sub : ErrorSet) : Except Fault Residual := do
  let (missing, mismatched) ← uncovered holds sup sub.entries .empty .empty
  return ⟨.ofTable missing false, .ofTable mismatched false⟩

/-- Whether a known set contains another. -/
def coversWith (holds : Comparison) (sup sub : ErrorSet) : Except Fault Bool :=
  if sup.universal then return true
  else if sub.universal then return false
  else do
    let r ← residualWith holds sup sub
    return r.missing.isEmpty && r.mismatched.isEmpty

/-- Compares two interpretations. `Error` can only go to an unbounded variable
that is not solved, and known atoms only to some variable that is not solved. -/
def compareErrors (holds : Comparison) (sup sub : Interpretation) : Except Fault Verdict :=
  if sup.known.universal then return .holds
  else if sub.known.universal && !sup.flexible.any (fun x => x.bound.isUnbounded) then
    return .fails
  else do
    let r ← residualWith holds sup.known sub.known
    let flowing := sub.flexible.filter fun x => !sup.flexible.contains x
    if !r.mismatched.isEmpty then return .fails
    else if r.missing.isEmpty && flowing.isEmpty && !sub.known.universal then return .holds
    else if !r.missing.isEmpty && sup.flexible.isEmpty then return .fails
    else return .pending

/-! ## Types -/

/-- One level of the comparison, given the comparison of arguments. A type
that failed to check is compatible with everything. -/
def compareWith (v : View) (holds : Comparison) (sup sub : Ty) : Except Fault Verdict :=
  if sup.failed || sub.failed then return .holds
  else do
    if ← v.compareValues holds sup.valuePart sub.valuePart then
      compareErrors holds (v.interpret sup) (v.interpret sub)
    else return .fails

/-- Whether `sup` covers `sub`, compared to a given depth. -/
def holdsWithin (v : View) : Nat → Comparison
  | 0, _, _ => .error .endless
  | n + 1, sup, sub => do
      return (← v.compareWith (v.holdsWithin n) sup sub) == .holds

/-- The number of arguments in the bound types and the solved sets. -/
def width (v : View) : Nat := v.bindings.arguments.length + v.solution.arguments.length

/-- A depth that no comparison exceeds, unless it comes back to itself. -/
def depth (v : View) (sup sub : Ty) : Nat :=
  sup.size + sub.size + v.width * v.width + 1

/-- Whether `sup` covers `sub`. A comparison that has to wait does not hold. -/
def holds (v : View) : Comparison := fun sup sub => v.holdsWithin (v.depth sup sub) sup sub

/-- What `sup` leaves uncovered of `sub`. -/
def residual (v : View) (sup sub : ErrorSet) : Except Fault Residual :=
  residualWith v.holds sup sub

/-- Whether a known set contains another. -/
def covers (v : View) (sup sub : ErrorSet) : Except Fault Bool := coversWith v.holds sup sub

end View

/-- Whether `sup` covers `sub`, for types without flexible variables. -/
def isSubtype (order : ValueOrder) (sup sub : Ty) : Bool :=
  match (View.plain order).compareWith (View.plain order).holds sup sub with
  | .ok .holds => true
  | _ => false

end Fallible
