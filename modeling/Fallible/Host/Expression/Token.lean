import Fallible.Text.Identifier

/-!
# Tokens of the host's expressions

A text is cut into names, keywords, numbers, texts in quotes and operators. The
end of a line is a token of its own, except inside brackets. A number may be
written in one of four bases, with single underscores between its digits; a word
may follow it directly only if it is a keyword that can stand there.
-/

namespace Fallible.Expression

/-- A token of an expression. -/
inductive Token where
  | name (s : String)
  | keyword (s : String)
  | number
  /-- A text in quotes, of characters or of bytes. -/
  | quoted (bytes : Bool)
  | op (s : String)
  | newline
  deriving DecidableEq

/-- The words that are no names. -/
def keywords : List String :=
  ["False", "None", "True", "and", "as", "assert", "async", "await", "break", "class",
   "continue", "def", "del", "elif", "else", "except", "finally", "for", "from", "global",
   "if", "import", "in", "is", "lambda", "nonlocal", "not", "or", "pass", "raise", "return",
   "try", "while", "with", "yield"]

/-- Whether a character can belong to a word. -/
def isWordChar (c : Char) : Bool := c.isAlphanum || c == '_' || 128 ≤ c.toNat

/-! ## Numbers -/

/-- What follows the digits of a number of which one has been read. An
underscore must have a digit behind it. -/
def afterDigits (isDigit : Char → Bool) : List Char → Option (List Char)
  | '_' :: c :: cs => if isDigit c then afterDigits isDigit cs else none
  | ['_'] => none
  | c :: cs => if isDigit c then afterDigits isDigit cs else some (c :: cs)
  | [] => some []

/-- Whether a text starts with a word. -/
def startsWithWord (w : String) (cs : List Char) : Bool :=
  w.toList.isPrefixOf cs && !((cs.drop w.length).head?.any isWordChar)

/-- Whether a number may end in front of a text. -/
def endsNumber (cs : List Char) : Bool :=
  ["and", "else", "for", "or", "not"].any (startsWithWord · cs) ||
    match cs with
    | 'i' :: c :: _ => c == 'f' || c == 'n' || c == 's'
    | c :: _ => !isWordChar c
    | [] => true

/-- What follows a number, in front of which it may end. -/
def endNumber (cs : List Char) : Option (List Char) := if endsNumber cs then some cs else none

/-- What follows the mark of an imaginary number, if there is one. -/
def afterMark : List Char → Option (List Char)
  | 'j' :: cs | 'J' :: cs => endNumber cs
  | cs => endNumber cs

/-- What follows an exponent, if there is one. -/
def afterExponent (cs : List Char) : Option (List Char) :=
  match cs with
  | e :: rest =>
      if e == 'e' || e == 'E' then
        match rest with
        | '+' :: d :: more | '-' :: d :: more =>
            if d.isDigit then (afterDigits Char.isDigit more).bind afterMark else none
        | d :: more =>
            if d.isDigit then (afterDigits Char.isDigit more).bind afterMark else endNumber cs
        | [] => endNumber cs
      else afterMark cs
  | [] => some []

/-- What follows a fraction, of which the point has been read. -/
def afterPoint : List Char → Option (List Char)
  | c :: cs =>
      if c.isDigit then (afterDigits Char.isDigit cs).bind afterExponent
      else afterExponent (c :: cs)
  | [] => some []

/-- What follows a number in another base, of which the letter has been read. -/
def afterBase (isDigit : Char → Bool) (cs : List Char) : Option (List Char) :=
  let digits := match cs with
    | '_' :: rest => rest
    | _ => cs
  match digits with
  | c :: rest => if isDigit c then (afterDigits isDigit rest).bind endNumber else none
  | [] => none

/-- Whether a character is a digit in base sixteen. -/
def isHexDigit (c : Char) : Bool :=
  c.isDigit || ('a' ≤ c && c ≤ 'f') || ('A' ≤ c && c ≤ 'F')

/-- Whether a digit and what stands behind it can be a whole number: it does not
start with zero, unless it is zero, and it has at most 4300 digits. -/
def isWhole (c : Char) (digits : List Char) : Bool :=
  if c == '0' then digits.all fun d => d == '0' || d == '_'
  else (digits.filter Char.isDigit).length < 4300

/-- What follows the digits of a decimal number, given whether they can be a
whole number. -/
def afterDecimal (whole : Bool) (rest : List Char) : Option (List Char) :=
  match rest with
  | '.' :: cs => afterPoint cs
  | c :: _ =>
      if whole || c == 'e' || c == 'E' || c == 'j' || c == 'J' then afterExponent rest else none
  | [] => if whole then some [] else none

/-- What follows a number that starts with a digit. -/
def afterNumber : List Char → Option (List Char)
  | '0' :: 'x' :: cs | '0' :: 'X' :: cs => afterBase isHexDigit cs
  | '0' :: 'o' :: cs | '0' :: 'O' :: cs => afterBase (fun c => '0' ≤ c && c ≤ '7') cs
  | '0' :: 'b' :: cs | '0' :: 'B' :: cs => afterBase (fun c => c == '0' || c == '1') cs
  | c :: cs => do
      let rest ← afterDigits Char.isDigit cs
      afterDecimal (isWhole c (cs.take (cs.length - rest.length))) rest
  | [] => none

/-! ## Texts in quotes -/

/-- The contents of a text that ends at a quote on the same line, and what
follows. -/
def untilQuote (q : Char) : List Char → Option (List Char × List Char)
  | '\x5c' :: c :: cs => (untilQuote q cs).map fun r => ('\x5c' :: c :: r.1, r.2)
  | c :: cs =>
      if c == q then some ([], cs)
      else if c == '\n' then none
      else (untilQuote q cs).map fun r => (c :: r.1, r.2)
  | [] => none

/-- The contents of a text that ends at three quotes, and what follows. -/
def untilQuotes (q : Char) : List Char → Option (List Char × List Char)
  | '\x5c' :: c :: cs => (untilQuotes q cs).map fun r => ('\x5c' :: c :: r.1, r.2)
  | c :: cs =>
      if c == q && [q, q].isPrefixOf cs then some ([], cs.drop 2)
      else (untilQuotes q cs).map fun r => (c :: r.1, r.2)
  | [] => none

/-- The contents of a text, of which the first quote has been read, and what
follows. -/
def quotedText (q : Char) (cs : List Char) : Option (List Char × List Char) :=
  if [q, q].isPrefixOf cs then untilQuotes q (cs.drop 2) else untilQuote q cs

/-- The number that digits in base sixteen spell. -/
def hexValue (ds : List Char) : Nat :=
  ds.foldl (fun n d => 16 * n + (if d.isDigit then d.toNat - 48 else d.toLower.toNat - 87)) 0

/-- Whether a text starts with so many digits in base sixteen, of a number up
to a limit. -/
def startsWithHex (n limit : Nat) (cs : List Char) : Bool :=
  let ds := cs.take n
  ds.length == n && ds.all isHexDigit && hexValue ds ≤ limit

/-- Whether every escape in a text is complete. Characters, unlike bytes, can
also be written by their number or their name. -/
def escapesComplete (bytes : Bool) : List Char → Bool
  | '\x5c' :: c :: cs =>
      (match c with
        | 'x' => startsWithHex 2 0xff cs
        | 'u' => bytes || startsWithHex 4 0xffff cs
        | 'U' => bytes || startsWithHex 8 0x10ffff cs
        | 'N' => bytes || (cs.head? == some '\x7b' && cs.contains '\x7d')
        | _ => true) && escapesComplete bytes cs
  | _ :: cs => escapesComplete bytes cs
  | [] => true

/-- The letters that can stand in front of a text in quotes: whether they make
it a text of bytes, and whether they keep its backslashes. -/
def quoteMarks? (w : String) : Option (Bool × Bool) :=
  match w.toLower with
  | "" | "u" | "f" => some (false, false)
  | "r" | "fr" | "rf" => some (false, true)
  | "b" => some (true, false)
  | "br" | "rb" => some (true, true)
  | _ => none

/-- Whether the contents of a text in quotes are in order. -/
def contentsOk (bytes keeps : Bool) (contents : List Char) : Bool :=
  (keeps || escapesComplete bytes contents) && (!bytes || contents.all fun c => c.toNat < 128)

/-! ## Cutting a text -/

/-- The operators, longest first. -/
def operators : List String :=
  ["**=", "...", "//=", "<<=", ">>=",
   "!=", "%=", "&=", "**", "*=", "+=", "-=", "->", "//", "/=", ":=", "<<", "<=", "==", ">=",
   ">>", "@=", "^=", "|=",
   "(", ")", "[", "]", "\x7b", "\x7d", ",", ".", ":", ";", "+", "-", "*", "/", "%", "&", "|",
   "^", "~", "<", ">", "=", "@"]

/-- The operator that a text starts with. -/
def operator? (cs : List Char) : Option String :=
  operators.find? fun o => o.toList.isPrefixOf cs

/-- The number of open brackets behind an operator, unless there are too many. -/
def levelAfter (level : Nat) (o : String) : Option Nat :=
  if o == "(" || o == "[" || o == "\x7b" then
    if level < 200 then some (level + 1) else none
  else if o == ")" || o == "]" || o == "\x7d" then some (level - 1)
  else some level

/-- The token that a text starts with, and what follows. -/
def wordOrNumber (cs : List Char) : Option (Token × List Char) :=
  let w := cs.takeWhile isWordChar
  let rest := cs.dropWhile isWordChar
  let word := String.ofList w
  match rest, quoteMarks? word with
  | q :: more, some (bytes, keeps) =>
      if q == '\x22' || q == '\x27' then
        match quotedText q more with
        | some (contents, after) =>
            if contentsOk bytes keeps contents then some (.quoted bytes, after) else none
        | none => none
      else if Text.isIdentifier w then some (.name word, rest)
      else none
  | _, _ =>
      if Text.isIdentifier w then
        some (if keywords.contains word then .keyword word else .name word, rest)
      else none

/-- Whether a text is an indentation and nothing else. The column counts from
the last form feed. -/
def isIndentation (cs : List Char) : Bool :=
  cs.all (fun c => c == ' ' || c == '\t' || c == '\x0c') && cs.getLast?.any (· != '\x0c')

/-- Cuts a text, given the number of open brackets, in at most `n` steps. -/
def cut : Nat → Nat → List Char → Option (List Token)
  | 0, _, _ => none
  | _ + 1, _, [] => some []
  | n + 1, level, c :: cs =>
      if c == ' ' || c == '\t' || c == '\x0c' then cut n level cs
      else if c == '\n' then
        if level != 0 then cut n level cs
        else if isIndentation cs then none
        else (cut n level cs).map (.newline :: ·)
      else if c == '#' then cut n level (cs.dropWhile (· != '\n'))
      else if c == '\x5c' then
        match cs with
        | '\n' :: d :: more => cut n level (d :: more)
        | _ => none
      else if c.isDigit then
        (afterNumber (c :: cs)).bind fun rest => (cut n level rest).map (.number :: ·)
      else if c == '.' && cs.head?.any Char.isDigit then
        (afterPoint cs).bind fun rest => (cut n level rest).map (.number :: ·)
      else if isWordChar c || c == '\x22' || c == '\x27' then
        (wordOrNumber (c :: cs)).bind fun r => (cut n level r.2).map (r.1 :: ·)
      else do
        let o ← operator? (c :: cs)
        let level ← levelAfter level o
        let ts ← cut n level ((c :: cs).drop o.length)
        return .op o :: ts

/-- A text with one kind of line end. -/
def normalizeLines : List Char → List Char
  | '\r' :: '\n' :: cs | '\r' :: cs => '\n' :: normalizeLines cs
  | c :: cs => c :: normalizeLines cs
  | [] => []

/-- The text from the first line on that is not blank, unless that line is
indented. The column counts from the last form feed; an indentation in front of
a line that is continued counts for the next. -/
def firstLine : Nat → Bool → List Char → Option (List Char)
  | 0, _, _ => none
  | _ + 1, _, [] => none
  | n + 1, indented, c :: cs =>
      if c == ' ' || c == '\t' then firstLine n true cs
      else if c == '\x0c' then firstLine n false cs
      else if c == '\n' then firstLine n false cs
      else if c == '#' then firstLine n indented (cs.dropWhile (· != '\n'))
      else if c == '\x5c' then
        match cs with
        | '\n' :: d :: more => firstLine n indented (d :: more)
        | _ => none
      else if indented then none
      else some (c :: cs)

/-- The tokens of a text. -/
def tokens (s : String) : Option (List Token) :=
  let cs := normalizeLines s.toList
  if cs.contains '\x00' then none
  else (firstLine (cs.length + 1) false cs).bind fun cs => cut (cs.length + 1) 0 cs

end Fallible.Expression
