import Fallible.Host.Expression.Grammar

/-!
# Texts that are expressions

A type can be named in a hint by a text, if the text is an expression.
-/

namespace Fallible.Expression

/-- Whether a text is an expression. One that starts with a star is looked at
as the only element of a tuple. -/
def isExpression (s : String) : Bool :=
  let text := if s.startsWith "*" then "(" ++ s ++ ",)[0]" else s
  (tokens text).any areExpression

end Fallible.Expression
