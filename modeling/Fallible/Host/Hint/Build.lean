import Fallible.Host.Expression
import Fallible.Host.Hint.Equality

/-!
# Building hints

Applying a name of the `typing` module checks the arguments: `None` stands for
its class, a text for the name that it spells, and a name that builds unions
cannot stand alone. Applying a name again to the same arguments gives the hint
made the first time, even if the arguments are spelt differently; this does not
hold for arguments that hold a list.

Unions open up nested unions, drop repetitions, and are no unions at all if one
member is left. A bar between two hints makes a union of the `typing` module if
one of the two is of that module.
-/

namespace Fallible.Hint

/-- A name applied to arguments, and the hint that this gave. -/
structure Application where
  form : TypingForm
  args : List Hint
  result : Hint

/-- What the building of a hint has brought about so far. -/
structure Scope where
  /-- The number of type variables. -/
  typeVars : Nat
  applications : List Application

/-- The scope of a hint that is yet to be built. -/
def Scope.start : Scope := ⟨0, []⟩

/-- Building, which may be refused. -/
abbrev Build := StateT Scope (Except Refusal)

/-- A hint with a type variable of its own. -/
def declare (name : String) : Build Hint := do
  let s ← get
  set { s with typeVars := s.typeVars + 1 }
  return .typeVar name s.typeVars

/-- What an earlier application to the same arguments gave. -/
def earlier? (f : TypingForm) (args : List Hint) :
    List Application → Except Refusal (Option Hint)
  | [] => return Option.none
  | a :: rest => do
      if a.form == f && (← sameAll a.args args) then return some a.result
      else earlier? f args rest

/-- Applies a name, unless it was applied to the same arguments before. -/
def once (f : TypingForm) (args : List Hint) (make : Build Hint) : Build Hint := do
  if areListFree args then
    match ← earlier? f args (← get).applications with
    | some h => return h
    | Option.none =>
        let h ← make
        modify fun s => { s with applications := ⟨f, args, h⟩ :: s.applications }
        return h
  else make

/-- What an argument of the `typing` module stands for. -/
def checkArg : Hint → Except Refusal Hint
  | .none => .ok (.cls .noneType)
  | .text s =>
      if Expression.isExpression s then .ok (.forwardRef s) else .error (.notAnExpression s)
  | .form .union => .error (.plainForm .union)
  | .form .optional => .error (.plainForm .optional)
  | h => .ok h

/-- What several arguments stand for. -/
def checkArgs : List Hint → Except Refusal (List Hint)
  | [] => .ok []
  | h :: hs => do
      let a ← checkArg h
      let as ← checkArgs hs
      return a :: as

/-- The members of a hint as a part of a union. -/
def members : Hint → List Hint
  | .barUnion ms | .typingUnion ms => ms
  | h => [h]

/-- A union of listed members; of one member, it is that member. -/
def ofMembers (union : List Hint → Hint) : List Hint → Hint
  | [m] => m
  | ms => union ms

/-- The union of some hints through the `typing` module. -/
def typingUnionOf (hs : List Hint) : Except Refusal Hint := do
  let checked ← checkArgs hs
  return ofMembers .typingUnion (← addNew (fun new old => same old new) [] (checked.flatMap members))

/-- A union through the `typing` module. -/
def union (args : List Hint) : Build Hint :=
  once .union args <|
    if args.isEmpty then throw .emptyUnion else liftM (typingUnionOf args)

/-- A hint or nothing. -/
def optional (args : List Hint) : Build Hint :=
  once .optional args <|
    match args with
    | [h] => do union [← checkArg h, .cls .noneType]
    | _ => throw (.singleType args)

/-- A name that stands for a class, with arguments. -/
def container (f : TypingForm) (args : List Hint) : Build Hint :=
  once f args do
    let checked ← checkArgs args
    match f.arity? with
    | some n =>
        if args.length == n then return .applied f checked
        else throw (.argumentCount f args.length n)
    | Option.none => return .applied f checked

/-- Applies a name of the `typing` module. -/
def apply : TypingForm → List Hint → Build Hint
  | .union, args => union args
  | .optional, args => optional args
  | f, args => container f args

/-! ## Bars -/

/-- Whether a hint can be a member of a union written with bars. -/
def isBarMember : Hint → Bool
  | .none | .cls _ | .generic .. | .barUnion _ => true
  | _ => false

/-- Whether a member repeats another. -/
def repeats : Hint → Hint → Except Refusal Bool
  | .generic c as, .generic d bs => same (.generic c as) (.generic d bs)
  | .cls c, .cls d => .ok (c == d)
  | _, _ => .ok false

/-- The members of a hint as a part of a union written with bars. -/
def barMembers : Hint → List Hint
  | .none => [.cls .noneType]
  | h => h.members

/-- The bits that one of two numbers has, negative numbers having all but
finitely many. -/
def bitOr : Int → Int → Int
  | .ofNat m, .ofNat n => .ofNat (m ||| n)
  | .ofNat m, .negSucc n => .negSucc (n - (n &&& m))
  | .negSucc m, .ofNat n => .negSucc (m - (m &&& n))
  | .negSucc m, .negSucc n => .negSucc (m &&& n)

/-- Two values with a bar between them, neither of the `typing` module. -/
def plainBar (a b : Hint) : Except Refusal Hint :=
  match a, b with
  | .none, .none => .error (.noBar a b)
  | .bool p, .bool q => .ok (.bool (p || q))
  | _, _ =>
      match a.number?, b.number? with
      | some m, some n => .ok (.int (bitOr m n))
      | _, _ =>
          if a.isBarMember && b.isBarMember then do
            return ofMembers .barUnion (← addNew repeats [] (a.barMembers ++ b.barMembers))
          else .error (.noBar a b)

/-- Two hints with a bar between them. -/
def bar (a b : Hint) : Build Hint :=
  if a.isTyping || b.isTyping then union [a, b] else liftM (plainBar a b)

/-- Hints with bars between them. -/
def bars : List Hint → Build Hint
  | [] => return .none
  | h :: hs => hs.foldlM bar h

end Fallible.Hint
