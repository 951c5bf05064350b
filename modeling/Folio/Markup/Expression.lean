import Folio.Markup.Error

/-!
# Braced expressions

An expression runs from a `{` to the `}` that balances it. Strings in it, quoted by `"`, `'` or a
backtick with backslash escapes, are passed over, so braces in them do not count.
-/

namespace Folio.Expression

/-- The characters that quote a string inside an expression. -/
def isQuote (c : Char) : Bool := c == '"' || c == '\'' || c == '\x60'

/-- Where a scan stands: outside strings, or inside one with the given quote that started at the
given offset, perhaps just after a backslash. -/
inductive Mode
  | outside
  | inside (quote : Char) (start : Nat)
  | escaped (quote : Char) (start : Nat)
  deriving DecidableEq, Repr

/-- Why no balancing brace is found. -/
inductive Fault
  | unclosed
  | unterminated (start : Nat)
  deriving DecidableEq, Repr

/-- Reads on from offset `at_` with `depth` more opening than closing braces behind it; the result
is the text up to the brace that brings the balance to zero. -/
def scan : Mode → Int → Nat → Text → Except Fault Text
  | .outside, _, _, [] => .error .unclosed
  | .inside _ start, _, _, [] => .error (.unterminated start)
  | .escaped _ start, _, _, [] => .error (.unterminated start)
  | .outside, depth, at_, c :: s =>
    let next := at_ + c.utf8Size
    if c == '{' then (scan .outside (depth + 1) next s).map (c :: ·)
    else if c == '}' then
      if depth - 1 == 0 then .ok [c] else (scan .outside (depth - 1) next s).map (c :: ·)
    else if isQuote c then (scan (.inside c at_) depth next s).map (c :: ·)
    else (scan .outside depth next s).map (c :: ·)
  | .inside quote start, depth, at_, c :: s =>
    let next := at_ + c.utf8Size
    if c == '\\' then (scan (.escaped quote start) depth next s).map (c :: ·)
    else if c == quote then (scan .outside depth next s).map (c :: ·)
    else (scan (.inside quote start) depth next s).map (c :: ·)
  | .escaped quote start, depth, at_, c :: s =>
    (scan (.inside quote start) depth (at_ + c.utf8Size) s).map (c :: ·)

/-- The expression that starts at offset `at_` with the text `s`, its braces included. -/
def read (at_ : Nat) (s : Text) : Except SyntaxError Text :=
  match scan .outside 0 at_ s with
  | .ok e => .ok e
  | .error .unclosed => .error { pos := at_, fault := .unclosedDelimiter '{' }
  | .error (.unterminated start) => .error { pos := start, fault := .unterminatedString }

/-- What an expression says: its text without the braces and the white space next to them. -/
def source (e : Text) : String := String.ofList (Text.trim (e.drop 1).dropLast)

end Folio.Expression
