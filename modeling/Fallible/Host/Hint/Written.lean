import Fallible.Host.Hint.Build
import Fallible.Ty.Canonical

/-!
# Hints as they are written

A hint is written down as an expression and evaluated from the inside out, from
left to right. Each mention of a type variable declares a new one.

The hint that results is a value type if it is a class, with or without
arguments that are value types, a type variable, or `None`. The first part that
is none of these is reported.
-/

namespace Fallible

/-- A hint as it is written. -/
inductive HintExpr where
  | none
  | cls (c : HostClass)
  | typeVar (name : String)
  | generic (c : HostClass) (args : List HintExpr)
  | form (f : TypingForm)
  | apply (f : TypingForm) (args : List HintExpr)
  | bars (operands : List HintExpr)
  | list (items : List HintExpr)
  | ellipsis
  | text (s : String)
  | int (n : Int)
  | bool (b : Bool)

instance : Inhabited HintExpr := ⟨.none⟩

namespace HintExpr

open Hint

mutual

/-- The hint that an expression builds. -/
def build : HintExpr → Build Hint
  | .none => return .none
  | .cls c => return .cls c
  | .typeVar name => declare name
  | .generic c args => return .generic c (← buildAll args)
  | .form f => return .form f
  | .apply f args => do Hint.apply f (← buildAll args)
  | .bars operands => do Hint.bars (← buildAll operands)
  | .list items => return .list (← buildAll items)
  | .ellipsis => return .ellipsis
  | .text s => return .text s
  | .int n => return .int n
  | .bool b => return .bool b

/-- The hints that several expressions build. -/
def buildAll : List HintExpr → Build (List Hint)
  | [] => return []
  | e :: es => do
      let h ← build e
      let hs ← buildAll es
      return h :: hs

end

/-- The hint that an expression stands for. -/
def eval (e : HintExpr) : Except Refusal Hint := e.build.run' .start

end HintExpr

namespace Hint

mutual

/-- The type that a hint describes. -/
def toTy : Hint → Except Refusal Ty
  | .none => .ok .nothing
  | .cls c => if c == .noneType then .ok .nothing else .ok (.con (.host c) [])
  | .typeVar name _ => .ok (.var name false)
  | .generic c args => do return .con (.host c) (← toTyAll args)
  | .form f =>
      match f.toClass? with
      | some c => .ok (.con (.host c) [])
      | Option.none => .error (.notAHint (.form f))
  | .applied f args =>
      match f.toClass? with
      | some c => do return .con (.host c) (← toTyAll args)
      | Option.none => .error (.notAHint (.applied f args))
  | .barUnion ms => .error (.union (.barUnion ms))
  | .typingUnion ms => .error (.union (.typingUnion ms))
  | h => .error (.notAHint h)

/-- The types that hints describe; the first that is refused decides. -/
def toTyAll : List Hint → Except Refusal (List Ty)
  | [] => .ok []
  | h :: hs => do
      let t ← toTy h
      let ts ← toTyAll hs
      return t :: ts

end

end Hint

/-- The type that a written hint describes. -/
def HintExpr.toTy (e : HintExpr) : Except Hint.Refusal Ty := do (← e.eval).toTy

end Fallible
