import Fallible.Host.Expression.Token

/-!
# The grammar of the host's expressions

Each reader takes tokens, reads one phrase from the front and gives what
follows, or nothing if no such phrase stands there. The readers call each other
in at most `n` nested steps. What a chain of operators means plays no part, so
that operators of one layer are read without their precedence.

Contents of texts in quotes are not looked into, also where they hold
expressions of their own. `yield` and `await` are refused everywhere, and so is
`async` outside parentheses. Which names a comprehension may give to values is
not looked at.
-/

namespace Fallible.Expression

/-- What a phrase can be used as. -/
inductive Shape where
  | name
  /-- An attribute or an item of something. -/
  | place
  /-- A value that is given a name where it stands. -/
  | naming
  | starred
  | value
  deriving DecidableEq

/-- Whether a name may be given to something. -/
def isBindable (s : String) : Bool := s != "__debug__"

/-- The parameters of a function read so far. -/
structure Parameters where
  names : List String := []
  hasDefault : Bool := false
  hasSlash : Bool := false
  hasStar : Bool := false
  /-- A bare star still wants a name behind it. -/
  wantsName : Bool := false

/-- Adds a parameter with a name of its own. -/
def Parameters.add (p : Parameters) (s : String) : Option Parameters :=
  if p.names.contains s || !isBindable s then none
  else some { p with names := s :: p.names, wantsName := false }

/-- Reads one given token. -/
def expect (t : Token) : List Token → Option (List Token)
  | u :: ts => if u = t then some ts else none
  | [] => none

/-- The operators between two operands of a calculation. -/
def isCalculation (o : String) : Bool :=
  ["|", "^", "&", "<<", ">>", "+", "-", "*", "/", "//", "%", "@", "**"].contains o

/-- Reads a sign that compares two operands. -/
def comparator : List Token → Option (List Token)
  | .op o :: ts => if ["==", "!=", "<", "<=", ">", ">="].contains o then some ts else none
  | .keyword "not" :: .keyword "in" :: ts => some ts
  | .keyword "in" :: ts => some ts
  | .keyword "is" :: .keyword "not" :: ts => some ts
  | .keyword "is" :: ts => some ts
  | _ => none

/-- Reads the texts in quotes that follow one of the same kind. -/
def moreQuoted (bytes : Bool) : List Token → Option (List Token)
  | .quoted b :: ts => if b = bytes then moreQuoted bytes ts else none
  | ts => some ts

/-- Whether a comprehension goes on here. -/
def startsClause : List Token → Bool
  | .keyword "for" :: _ | .keyword "async" :: _ => true
  | _ => false

mutual

/-- Reads an expression. -/
def expression : Nat → List Token → Option (List Token)
  | 0, _ => none
  | n + 1, .keyword "lambda" :: ts => (parameters n {} ts).bind (expression n)
  | n + 1, ts => do
      let ts ← disjunction n ts
      match ts with
      | .keyword "if" :: ts => do
          let ts ← disjunction n ts
          let ts ← expect (.keyword "else") ts
          expression n ts
      | _ => some ts

/-- Reads comparisons that are denied and joined by `and` and `or`. -/
def disjunction : Nat → List Token → Option (List Token)
  | 0, _ => none
  | n + 1, .keyword "not" :: ts => disjunction n ts
  | n + 1, ts => do
      let ts ← comparison n ts
      match ts with
      | .keyword "and" :: ts | .keyword "or" :: ts => disjunction n ts
      | _ => some ts

/-- Reads a chain of comparisons. -/
def comparison : Nat → List Token → Option (List Token)
  | 0, _ => none
  | n + 1, ts => do
      let ts ← calculation n ts
      match comparator ts with
      | some ts => comparison n ts
      | none => some ts

/-- Reads a calculation. -/
def calculation : Nat → List Token → Option (List Token)
  | 0, _ => none
  | n + 1, .op "+" :: ts | n + 1, .op "-" :: ts | n + 1, .op "~" :: ts => calculation n ts
  | n + 1, ts => do
      let (_, ts) ← primary n ts
      match ts with
      | .op o :: more => if isCalculation o then calculation n more else some ts
      | _ => some ts

/-- Reads an atom with its attributes, calls and items. -/
def primary : Nat → List Token → Option (Shape × List Token)
  | 0, _ => none
  | n + 1, ts => (atom n ts).bind fun r => trailers n r.1 r.2

/-- Reads attributes, calls and items. -/
def trailers : Nat → Shape → List Token → Option (Shape × List Token)
  | 0, _, _ => none
  | n + 1, _, .op "." :: .name _ :: ts => trailers n .place ts
  | n + 1, _, .op "(" :: ts => (arguments n true 0 [] ts).bind (trailers n .value)
  | n + 1, _, .op "[" :: ts => (slices n ts).bind (trailers n .place)
  | _ + 1, s, ts => some (s, ts)

/-- Reads a name, a constant or a display in brackets. -/
def atom : Nat → List Token → Option (Shape × List Token)
  | 0, _ => none
  | _ + 1, .name _ :: ts => some (.name, ts)
  | _ + 1, .number :: ts | _ + 1, .op "..." :: ts | _ + 1, .keyword "None" :: ts
  | _ + 1, .keyword "True" :: ts | _ + 1, .keyword "False" :: ts => some (.value, ts)
  | _ + 1, .quoted b :: ts => (moreQuoted b ts).map (.value, ·)
  | _ + 1, .op "(" :: .op ")" :: ts | _ + 1, .op "[" :: .op "]" :: ts
  | _ + 1, .op "\x7b" :: .op "\x7d" :: ts => some (.value, ts)
  | n + 1, .op "(" :: ts => do
      let (s, ts) ← element n ts
      let ts ← if s = .starred then (expect (.op ",") ts).bind (elements n ")")
        else display n true ")" ts
      return (.value, ts)
  | n + 1, .op "[" :: ts => do
      let (s, ts) ← element n ts
      let ts ← if s = .starred ∧ startsClause ts then none else display n false "]" ts
      return (.value, ts)
  | n + 1, .op "\x7b" :: .op "**" :: ts => do
      let ts ← calculation n ts
      let ts ← morePairs n ts
      return (.value, ts)
  | n + 1, .op "\x7b" :: ts => do
      let (s, ts) ← element n ts
      let ts ← match ts with
        | .op ":" :: ts => do
            if s = .starred ∨ s = .naming then none
            let ts ← expression n ts
            if startsClause ts then (clauses n false ts).bind (expect (.op "\x7d"))
            else morePairs n ts
        | _ => if s = .starred ∧ startsClause ts then none else display n false "\x7d" ts
      return (.value, ts)
  | _ + 1, _ => none

/-- Reads an element of a display: an expression, with a star or a name in front
of it if there is one. -/
def element : Nat → List Token → Option (Shape × List Token)
  | 0, _ => none
  | n + 1, .op "*" :: ts => (calculation n ts).map (.starred, ·)
  | n + 1, .name s :: .op ":=" :: ts =>
      if isBindable s then (expression n ts).map (.naming, ·) else none
  | n + 1, ts => (expression n ts).map (.value, ·)

/-- Reads the rest of a display, behind its first element. -/
def display : Nat → Bool → String → List Token → Option (List Token)
  | 0, _, _, _ => none
  | n + 1, mayWait, close, ts =>
      if startsClause ts then (clauses n mayWait ts).bind (expect (.op close))
      else match ts with
        | .op "," :: ts => elements n close ts
        | _ => expect (.op close) ts

/-- Reads the elements of a display up to its end. -/
def elements : Nat → String → List Token → Option (List Token)
  | 0, _, _ => none
  | n + 1, close, ts =>
      match expect (.op close) ts with
      | some ts => some ts
      | none => do
          let (_, ts) ← element n ts
          match ts with
          | .op "," :: ts => elements n close ts
          | _ => expect (.op close) ts

/-- Reads the rest of the pairs of a mapping, behind one of them. -/
def morePairs : Nat → List Token → Option (List Token)
  | 0, _ => none
  | _ + 1, .op "\x7d" :: ts | _ + 1, .op "," :: .op "\x7d" :: ts => some ts
  | n + 1, .op "," :: .op "**" :: ts => (calculation n ts).bind (morePairs n)
  | n + 1, .op "," :: ts => do
      let ts ← expression n ts
      let ts ← expect (.op ":") ts
      let ts ← expression n ts
      morePairs n ts
  | _ + 1, _ => none

/-- Reads the clauses of a comprehension. -/
def clauses : Nat → Bool → List Token → Option (List Token)
  | 0, _, _ => none
  | n + 1, mayWait, .keyword "async" :: ts =>
      if mayWait && !(ts matches .keyword "async" :: _) then clauses n mayWait ts else none
  | n + 1, mayWait, .keyword "for" :: ts => do
      let ts ← targets n (.keyword "in") false false ts
      let ts ← disjunction n ts
      conditions n mayWait ts
  | _ + 1, _, _ => none

/-- Reads the conditions of a clause, and the clauses behind it. -/
def conditions : Nat → Bool → List Token → Option (List Token)
  | 0, _, _ => none
  | n + 1, mayWait, .keyword "if" :: ts => (disjunction n ts).bind (conditions n mayWait)
  | n + 1, mayWait, ts => if startsClause ts then clauses n mayWait ts else some ts

/-- Reads targets up to a given end, at most one of them with a star. A single
one may have a star only in brackets or with a comma behind it. -/
def targets : Nat → Token → Bool → Bool → List Token → Option (List Token)
  | 0, _, _, _, _ => none
  | n + 1, close, isGroup, hasStar, ts => do
      let star := ts matches .op "*" :: _
      if star && hasStar then none
      let ts ← target n (if star then ts.tail else ts)
      match ts with
      | .op "," :: ts =>
          match expect close ts with
          | some ts => some ts
          | none => targets n close true (hasStar || star) ts
      | _ => if star && !isGroup then none else expect close ts

/-- Reads a name, an attribute, an item, or targets in brackets. -/
def target : Nat → List Token → Option (List Token)
  | 0, _ => none
  | n + 1, ts =>
      match primary n ts with
      | some (.name, ts) | some (.place, ts) => some ts
      | _ => match ts with
        | .op "(" :: .op ")" :: ts | .op "[" :: .op "]" :: ts => some ts
        | .op "(" :: ts => targets n (.op ")") false false ts
        | .op "[" :: ts => targets n (.op "]") true false ts
        | _ => none

/-- Reads the arguments of a call up to its end: first those without a name,
from the first name on only names and stars, and from the first double star on
no more stars. A comprehension stands alone. -/
def arguments : Nat → Bool → Nat → List String → List Token → Option (List Token)
  | 0, _, _, _, _ => none
  | _ + 1, _, _, _, .op ")" :: ts => some ts
  | n + 1, _, stage, names, .op "*" :: ts =>
      if stage < 2 then (expression n ts).bind (moreArguments n stage names) else none
  | n + 1, _, _, names, .op "**" :: ts => (expression n ts).bind (moreArguments n 2 names)
  | n + 1, _, stage, names, .name s :: .op "=" :: ts =>
      if names.contains s || !isBindable s then none
      else (expression n ts).bind (moreArguments n (max stage 1) (s :: names))
  | n + 1, isFirst, stage, names, ts => do
      if stage ≠ 0 then none
      let (_, ts) ← element n ts
      if startsClause ts then
        if isFirst then (clauses n true ts).bind (expect (.op ")")) else none
      else moreArguments n stage names ts

/-- Reads the rest of the arguments, behind one of them. -/
def moreArguments : Nat → Nat → List String → List Token → Option (List Token)
  | 0, _, _, _ => none
  | n + 1, stage, names, .op "," :: ts => arguments n false stage names ts
  | _ + 1, _, _, ts => expect (.op ")") ts

/-- Reads the items and ranges between square brackets, up to their end. -/
def slices : Nat → List Token → Option (List Token)
  | 0, _ => none
  | n + 1, ts => do
      let ts ← slice n ts
      match ts with
      | .op "," :: .op "]" :: ts => some ts
      | .op "," :: ts => slices n ts
      | _ => expect (.op "]") ts

/-- Reads an item or a range. -/
def slice : Nat → List Token → Option (List Token)
  | 0, _ => none
  | n + 1, .op "*" :: ts => expression n ts
  | n + 1, .op ":" :: ts => range n ts
  | n + 1, ts => do
      let (s, ts) ← element n ts
      match s, ts with
      | .value, .op ":" :: ts => range n ts
      | _, _ => some ts

/-- Reads the rest of a range, behind its first colon. -/
def range : Nat → List Token → Option (List Token)
  | 0, _ => none
  | n + 1, ts => do
      let ts ← bound n ts
      match ts with
      | .op ":" :: ts => bound n ts
      | _ => some ts

/-- Reads the bound of a range, which may be left out. -/
def bound : Nat → List Token → Option (List Token)
  | 0, _ => none
  | _ + 1, .op ":" :: ts => some (.op ":" :: ts)
  | _ + 1, .op "," :: ts => some (.op "," :: ts)
  | _ + 1, .op "]" :: ts => some (.op "]" :: ts)
  | n + 1, ts => expression n ts

/-- Reads the parameters of a function and the colon behind them. -/
def parameters : Nat → Parameters → List Token → Option (List Token)
  | 0, _, _ => none
  | _ + 1, p, .op ":" :: ts => if p.wantsName then none else some ts
  | n + 1, p, .op "/" :: ts =>
      if p.names.isEmpty || p.hasSlash || p.hasStar then none
      else moreParameters n { p with hasSlash := true } ts
  | n + 1, p, .op "*" :: .op "," :: ts =>
      if p.hasStar then none else parameters n { p with hasStar := true, wantsName := true } ts
  | n + 1, p, .op "*" :: .name s :: ts =>
      if p.hasStar then none
      else (p.add s).bind fun p => moreParameters n { p with hasStar := true } ts
  | _ + 1, p, .op "**" :: .name s :: ts =>
      if p.wantsName then none
      else (p.add s).bind fun _ => match ts with
        | .op "," :: ts => expect (.op ":") ts
        | _ => expect (.op ":") ts
  | n + 1, p, .name s :: .op "=" :: ts => do
      let p ← p.add s
      let ts ← expression n ts
      moreParameters n { p with hasDefault := true } ts
  | n + 1, p, .name s :: ts => do
      if p.hasDefault && !p.hasStar then none
      let p ← p.add s
      moreParameters n p ts
  | _ + 1, _, _ => none

/-- Reads the rest of the parameters, behind one of them. -/
def moreParameters : Nat → Parameters → List Token → Option (List Token)
  | 0, _, _ => none
  | n + 1, p, .op "," :: ts => parameters n p ts
  | _ + 1, _, ts => expect (.op ":") ts

end

/-- Reads expressions with commas between them, and the ends of lines behind
them. -/
def expressions : Nat → List Token → Bool
  | 0, _ => false
  | n + 1, ts =>
      match expression n ts with
      | some (.op "," :: ts) => ts.all (· = .newline) || expressions n ts
      | some ts => ts.all (· = .newline)
      | none => false

/-- Whether some tokens are an expression. No phrase needs more nested steps
than sixteen for each token. -/
def areExpression (ts : List Token) : Bool := expressions (16 * (ts.length + 2)) ts

end Fallible.Expression
