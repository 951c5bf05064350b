import Folio.Markup.LineKind

/-!
# Inline tokens

The marks and the plain text that prose is made of. At each place the longest token is taken, and
every character belongs to one, so the tokens of a text make up the text.
-/

namespace Folio

/-- A kind of inline token. -/
inductive Token
  | doubleStar
  | doubleUnderscore
  | doubleTilde
  | star
  | underscore
  | backticks (count : Nat)
  | imageOpen
  | bracket
  | linkTarget
  | closeBracket
  | closeParen
  | brace
  | closeBrace
  | widgetOpen
  | hardBreak
  | escape
  | newline
  | text
  | punct
  deriving DecidableEq, Repr

namespace Token

/-- The characters that plain text does not hold. -/
def isSpecial (c : Char) : Bool :=
  c == '*' || c == '_' || c == '~' || c == '\x60' || c == '!' || c == '[' || c == ']' ||
    c == '(' || c == ')' || c == '<' || c == '{' || c == '}' || c == '\\' || c == '\r' ||
    c == '\n'

/-- The token that a text starts with, and the number of its characters after the first. -/
def read (c : Char) (s : Text) : Token × Nat :=
  match c with
  | '*' => if s.head? == some '*' then (.doubleStar, 1) else (.star, 0)
  | '_' => if s.head? == some '_' then (.doubleUnderscore, 1) else (.underscore, 0)
  | '~' => if s.head? == some '~' then (.doubleTilde, 1) else (.punct, 0)
  | '\x60' =>
    let n := (s.takeWhile (· == '\x60')).length
    (.backticks (n + 1), n)
  | '!' => if s.head? == some '[' then (.imageOpen, 1) else (.punct, 0)
  | '[' => (.bracket, 0)
  | ']' => if s.head? == some '(' then (.linkTarget, 1) else (.closeBracket, 0)
  | ')' => (.closeParen, 0)
  | '{' => (.brace, 0)
  | '}' => (.closeBrace, 0)
  | '<' => if s.head?.any isUpper then (.widgetOpen, 1) else (.punct, 0)
  | '(' => (.punct, 0)
  | '\\' =>
    match s with
    | '\n' :: _ => (.hardBreak, 1)
    | '\r' :: '\n' :: _ => (.hardBreak, 2)
    | '\r' :: _ => (.punct, 0)
    | _ :: _ => (.escape, 1)
    | [] => (.punct, 0)
  | '\n' => (.newline, 0)
  | '\r' => if s.head? == some '\n' then (.newline, 1) else (.punct, 0)
  | _ => (.text, (s.takeWhile fun c => !isSpecial c).length)

end Token

/-- A token in a text: its offset, its characters, and the characters next to it. -/
structure Lexeme where
  token : Token
  start : Nat
  text : Text
  before : Option Char
  after : Option Char
  deriving DecidableEq, Repr

namespace Lexeme

/-- The offset just past a token. -/
def stop (t : Lexeme) : Nat := t.start + Text.bytes t.text

/-- What a token stands for when it is no mark. At most eighteen backticks are kept. -/
def literal (t : Lexeme) : Text :=
  match t.token with
  | .backticks n => List.replicate (min n 18) '\x60'
  | .widgetOpen => ['<']
  | .hardBreak => ['\n']
  | .newline => ['\n']
  | .escape => t.text.drop 1
  | _ => t.text

/-- How a token is named. -/
def describe (t : Lexeme) : String :=
  let literal := String.ofList t.literal
  match t.token with
  | .backticks n => s!"{n} backtick(s)"
  | .widgetOpen => "widget tag"
  | .hardBreak => "hard line break"
  | .escape => s!"escaped '{literal}'"
  | .newline => "newline"
  | .text => s!"text '{literal}'"
  | _ => s!"'{literal}'"

/-- The tokens of the text `s` at offset `at_`, where `before` is the character before it.
Characters before `resume` belong to the token before. -/
def readFrom (resume : Nat) (before : Option Char) (at_ : Nat) : Text → List Lexeme
  | [] => []
  | c :: s =>
    let next := at_ + c.utf8Size
    if at_ < resume then readFrom resume (some c) next s
    else
      let (token, n) := Token.read c s
      let text := c :: s.take n
      { token, start := at_, text, before, after := (s.drop n).head? } ::
        readFrom (at_ + Text.bytes text) (some c) next s

/-- The tokens of a text. -/
def readAll (s : Text) : List Lexeme := readFrom 0 none 0 s

/-- The text that some tokens make up. -/
def join (ts : List Lexeme) : Text := ts.flatMap text

end Lexeme
end Folio
