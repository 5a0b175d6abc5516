import Fallible.Text.Glyph

/-!
# Quoted text

Messages show a piece of text between quotes. Single quotes are used unless
the text holds a single quote and no double one. The backslash and the
enclosing quote are written with a backslash in front, and so are line feed,
carriage return and tab by their usual letters. Every other character that has
no glyph of its own is written by its number in hexadecimal, with as many
digits as the shortest of the forms `\xhh`, `\uhhhh` and `\Uhhhhhhhh` that
takes it. All else stands for itself.
-/

namespace Fallible.Text

/-- The character that announces an escape. -/
def backslash : Char := '\x5c'

/-- The quote of choice. -/
def singleQuote : Char := '\x27'

/-- The quote for texts that hold a single one. -/
def doubleQuote : Char := '\x22'

/-- The last `width` hexadecimal digits of a number. -/
def hexDigits : Nat → Nat → List Char
  | 0, _ => []
  | width + 1, n => hexDigits width (n / 16) ++ [Nat.digitChar (n % 16)]

/-- A character by its number. -/
def byNumber (c : Char) : List Char :=
  let n := c.toNat
  if n < 0x100 then backslash :: 'x' :: hexDigits 2 n
  else if n < 0x10000 then backslash :: 'u' :: hexDigits 4 n
  else backslash :: 'U' :: hexDigits 8 n

/-- One character inside quotes. -/
def escapeChar (quote c : Char) : List Char :=
  if c == backslash then [backslash, backslash]
  else if c == quote then [backslash, quote]
  else if c == '\n' then [backslash, 'n']
  else if c == '\r' then [backslash, 'r']
  else if c == '\t' then [backslash, 't']
  else if isHidden c then byNumber c
  else [c]

/-- The quote that encloses a text. -/
def quoteFor (cs : List Char) : Char :=
  if cs.contains singleQuote && !cs.contains doubleQuote then doubleQuote else singleQuote

/-- A text between quotes. -/
def quoted (s : String) : String :=
  let cs := s.toList
  let q := quoteFor cs
  String.ofList (q :: (cs.flatMap (escapeChar q) ++ [q]))

end Fallible.Text
