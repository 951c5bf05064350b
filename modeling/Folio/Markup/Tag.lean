import Folio.Markup.Expression
import Folio.Markup.LineKind
import Folio.Markup.Span

/-!
# Widget tags

A widget is written as a tag: `<Name prop="text" flag value={1} />`, or an opening tag, a body and
`</Name>`. A tag is read as tokens with white space between; a prop's value is a quoted string, a
braced expression, or missing.

* `TagToken.read?` is the token at the start of a text;
* `OpenTag.read` reads an opening tag;
* `ClosingTag.find?` looks for the closing tag of a body.
-/

namespace Folio

/-- The value of a prop as it is written. -/
inductive PropValue
  | string (value : String)
  | expression (source : String)
  | flag
  deriving DecidableEq, Repr

/-- A prop in a widget tag. -/
structure WidgetProp where
  name : String
  value : PropValue
  span : Span
  deriving DecidableEq, Repr

/-- A token of a widget tag. -/
inductive TagToken
  | open
  | openClosing
  | selfClose
  | close
  | equals
  | brace
  | name (text : Text)
  | quoted (literal : Text)
  deriving DecidableEq, Repr

namespace TagToken

/-- The characters of a token. -/
def text : TagToken → Text
  | .open => ['<']
  | .openClosing => ['<', '/']
  | .selfClose => ['/', '>']
  | .close => ['>']
  | .equals => ['=']
  | .brace => ['{']
  | .name text => text
  | .quoted literal => literal

/-- How a token is named in a message. -/
def describe : TagToken → String
  | .name text => s!"identifier '{String.ofList text}'"
  | .quoted literal => s!"string {String.ofList literal}"
  | t => String.ofList t.text

/-- The white space between tokens. -/
def isSkipped (c : Char) : Bool := c == ' ' || c == '\t' || c == '\r' || c == '\n'

/-- The characters that a name starts with. -/
def isNameStart (c : Char) : Bool := c.isAlpha || c == '_'

/-- The characters of a quoted string after its opening quote, its closing quote included. A
backslash takes the next character with it, which must not be a line feed. -/
def quotedRest? (quote : Char) : Text → Option Text
  | [] => none
  | '\\' :: c :: s => if c == '\n' then none else (quotedRest? quote s).map ('\\' :: c :: ·)
  | c :: s =>
    if c == quote then some [c]
    else if c == '\\' then none
    else (quotedRest? quote s).map (c :: ·)

/-- The token at the start of a text. -/
def read? : Text → Option TagToken
  | [] => none
  | '<' :: s => if s.head? == some '/' then some .openClosing else some .open
  | '>' :: _ => some .close
  | '=' :: _ => some .equals
  | '{' :: _ => some .brace
  | '/' :: s => if s.head? == some '>' then some .selfClose else none
  | c :: s =>
    if isNameStart c then some (.name (c :: s.takeWhile isNameChar))
    else if c == '"' || c == '\'' then (quotedRest? c s).map fun rest => .quoted (c :: rest)
    else none

/-- The tokens of a text with their offsets, up to the first character that starts none; that
character's offset, if there is one. Characters before `resume` are passed over. -/
def readAll (resume : Nat) : Nat → Text → List (TagToken × Nat) × Option Nat
  | _, [] => ([], none)
  | at_, c :: s =>
    if at_ < resume || isSkipped c then readAll resume (at_ + c.utf8Size) s
    else
      match read? (c :: s) with
      | none => ([], some at_)
      | some t =>
        let (ts, junk) := readAll (at_ + Text.bytes t.text) (at_ + c.utf8Size) s
        ((t, at_) :: ts, junk)

/-- Resolves backslash escapes: `n` makes a line feed, `t` a tab, any other character itself. -/
def unescape : Text → Text
  | [] => []
  | '\\' :: c :: s =>
    (if c == 'n' then '\n' else if c == 't' then '\t' else c) :: unescape s
  | c :: s => c :: unescape s

/-- The text that a quoted string stands for: what is between its first and its last character,
with the escapes resolved. -/
def unquote (literal : Text) : Text := unescape (literal.drop 1).dropLast

end TagToken

/-- An opening tag: its name, its props, whether it closes itself, and the offset just past it. -/
structure OpenTag where
  name : String
  props : List WidgetProp
  selfClosing : Bool
  stop : Nat
  deriving DecidableEq, Repr

namespace OpenTag

/-- What the reading of a tag waits for: the widget's name, a prop or the end, what follows a prop's
name, or the value after an equals sign. The latest prop comes first in `props`. -/
inductive State
  | opened
  | ready (name : String) (props : List WidgetProp)
  | named (name : String) (props : List WidgetProp) (prop : String) (span : Span)
  | valued (name : String) (props : List WidgetProp) (prop : String) (start : Nat)
  deriving DecidableEq, Repr

/-- How a character is named in a message. -/
def describeChar (c : Char) : String := s!"'{c}'"

/-- How the start of a text is named in a message. -/
def describeStart (s : Text) : String := (s.head?.map describeChar).getD "end of input"

/-- What comes of a token: the reading goes on from an offset, or the tag is complete. -/
inductive Step
  | more (state : State) (resume : Nat)
  | done (tag : OpenTag)

/-- A failed reading. -/
def fail {α : Type} (pos : Nat) (fault : SyntaxFault) : Except SyntaxError α :=
  .error { pos, fault }

/-- What comes of the token, if there is one, that starts with `c` at offset `at_`, when a prop or
the end of the tag is due. -/
def readyStep (name : String) (props : List WidgetProp) (at_ : Nat) (c : Char)
    (token : Option TagToken) : Except SyntaxError Step :=
  match token with
  | some .selfClose =>
    .ok (.done { name, props := props.reverse, selfClosing := true, stop := at_ + 2 })
  | some .close =>
    .ok (.done { name, props := props.reverse, selfClosing := false, stop := at_ + 1 })
  | some (.name prop) =>
    let stop := at_ + Text.bytes prop
    .ok (.more (.named name props (String.ofList prop) ⟨at_, stop⟩) stop)
  | some other => fail at_ (.unexpectedToken "prop, '>' or '/>'" other.describe)
  | none =>
    if c == '"' || c == '\'' then fail at_ .unterminatedString
    else fail at_ (.unexpectedToken "prop, '>' or '/>'" (describeChar c))

/-- What comes of the token, if there is one, at offset `at_` before the text `c :: s`, when the
value of a prop is due. -/
def valueStep (name : String) (props : List WidgetProp) (prop : String) (start at_ : Nat) (c : Char)
    (s : Text) (token : Option TagToken) : Except SyntaxError Step :=
  let given (value : PropValue) (stop : Nat) : Except SyntaxError Step :=
    .ok (.more (.ready name ({ name := prop, value, span := ⟨start, stop⟩ } :: props)) stop)
  match token with
  | some (.quoted literal) =>
    given (.string (String.ofList (TagToken.unquote literal))) (at_ + Text.bytes literal)
  | some .brace =>
    match Expression.read at_ (c :: s) with
    | .error e => .error e
    | .ok e => given (.expression (Expression.source e)) (at_ + Text.bytes e)
  | none =>
    if c == '"' || c == '\'' then fail at_ .unterminatedString
    else fail at_ (.unexpectedToken "string or \x7bexpression\x7d" (describeChar c))
  | some _ => fail at_ (.unexpectedToken "string or \x7bexpression\x7d" (describeChar c))

/-- What comes of the token at offset `at_` before the text `c :: s`. -/
def step (state : State) (at_ : Nat) (c : Char) (s : Text) : Except SyntaxError Step :=
  let token := TagToken.read? (c :: s)
  match state with
  | .opened =>
    match token with
    | some (.name name) => .ok (.more (.ready (String.ofList name) []) (at_ + Text.bytes name))
    | _ => fail at_ (.unexpectedToken "widget name" (describeChar c))
  | .ready name props => readyStep name props at_ c token
  | .named name props prop span =>
    match token with
    | some .equals => .ok (.more (.valued name props prop span.start) (at_ + 1))
    | _ => readyStep name ({ name := prop, value := .flag, span } :: props) at_ c token
  | .valued name props prop start => valueStep name props prop start at_ c s token

/-- The error of a text that ends at offset `at_` before the tag that starts at `tag` does. -/
def unfinished (tag at_ : Nat) : State → SyntaxError
  | .opened => { pos := at_, fault := .unexpectedEnd }
  | .ready name _ => { pos := tag, fault := .unclosedWidget name }
  | .named name _ _ _ => { pos := tag, fault := .unclosedWidget name }
  | .valued name _ _ _ => { pos := tag, fault := .unclosedWidget name }

/-- Reads on in the tag that starts at offset `tag`. Characters before `resume` are passed over. -/
def readFrom (tag : Nat) : State → Nat → Nat → Text → Except SyntaxError OpenTag
  | state, _, at_, [] => .error (unfinished tag at_ state)
  | state, resume, at_, c :: s =>
    if at_ < resume || TagToken.isSkipped c then readFrom tag state resume (at_ + c.utf8Size) s
    else
      match step state at_ c s with
      | .error e => .error e
      | .ok (.done t) => .ok t
      | .ok (.more state resume) => readFrom tag state resume (at_ + c.utf8Size) s

/-- The opening tag that starts at offset `at_` with the text `s`. -/
def read (at_ : Nat) (s : Text) : Except SyntaxError OpenTag :=
  let blanks := s.takeWhile TagToken.isSkipped
  match TagToken.read? (s.drop blanks.length) with
  | some .open => readFrom at_ .opened (at_ + Text.bytes blanks + 1) at_ s
  | _ => fail at_ (.unexpectedToken "'<'" (describeStart s))

end OpenTag

namespace Fence

/-- The number of bytes from the line after an opening fence to the end of the line that closes
it, or of the text. -/
def extent (f : Fence) : List (Text × LineEnding) → Nat
  | [] => 0
  | (text, ending) :: ls =>
    let n := Text.bytes text + Text.bytes ending.text
    if f.closes text then n else n + extent f ls

/-- The offset just past a fenced block, given the offset and the text after its opening line. -/
def skip (f : Fence) (at_ : Nat) (s : Text) : Nat := at_ + f.extent (Line.divide s)

end Fence

/-- A closing tag `</Name>`. -/
structure ClosingTag where
  start : Nat
  stop : Nat
  deriving DecidableEq, Repr

namespace ClosingTag

/-- The text after `lead` when it starts with `lead` and a widget's name ends there. -/
def after? (lead s : Text) : Option Text :=
  if lead.isPrefixOf s && !((s.drop lead.length).head?.any isNameChar) then
    some (s.drop lead.length)
  else none

/-- The size of the closing tag at the start of a text. -/
def size? (name s : Text) : Option Nat := do
  let lead := '<' :: '/' :: name
  let rest ← after? lead s
  let blanks := rest.takeWhile Text.isBlankChar
  if (rest.drop blanks.length).head? == some '>' then
    some (Text.bytes lead + Text.bytes blanks + 1)
  else none

/-- The opening tag of the same widget at offset `at_`, at the start of a text. -/
def reopening? (name : Text) (at_ : Nat) (s : Text) : Option OpenTag := do
  let _ ← after? ('<' :: name) s
  (OpenTag.read at_ s).toOption

/-- The offset past a code span at offset `at_`, or past its opening run if nothing closes it. -/
def pastCode (at_ : Nat) (s : Text) : Nat :=
  let run := s.takeWhile (· == '\x60')
  match Text.find? run (s.drop run.length) with
  | some n => at_ + 2 * run.length + Text.bytes ((s.drop run.length).take n)
  | none => at_ + run.length

/-- The offset past a fenced block whose opening line starts at offset `at_`. -/
def pastFence? (at_ : Nat) (s : Text) : Option Nat := do
  let line := s.takeWhile (· != '\n')
  let fence ← Fence.open? line
  return fence.skip (at_ + Text.bytes line + 1) (s.drop (line.length + 1))

/-- Reads on with `depth` bodies of the same widget open. Characters before `resume` are passed
over; `lineStart` tells whether a line starts where reading goes on. -/
def findFrom (name : Text) : Nat → Bool → Nat → Nat → Text → Option ClosingTag
  | _, _, _, _, [] => none
  | depth, lineStart, resume, at_, c :: s =>
    let next := at_ + c.utf8Size
    if at_ < resume then findFrom name depth lineStart resume next s
    else
      match if lineStart then pastFence? at_ (c :: s) else none with
      | some stop => findFrom name depth true stop next s
      | none =>
        if c == '\n' then findFrom name depth true next next s
        else if c == '\x60' then findFrom name depth false (pastCode at_ (c :: s)) next s
        else
          match size? name (c :: s), reopening? name at_ (c :: s) with
          | some n, _ =>
            match depth with
            | 0 => some { start := at_, stop := at_ + n }
            | depth + 1 => findFrom name depth false (at_ + n) next s
          | none, some tag =>
            findFrom name (if tag.selfClosing then depth else depth + 1) false tag.stop next s
          | none, none => findFrom name depth false next next s

/-- The closing tag of a widget whose body starts at offset `at_` with the text `s`. Bodies of
widgets of the same name are balanced; fenced code and code spans are passed over. -/
def find? (name : Text) (lineStart : Bool) (at_ : Nat) (s : Text) : Option ClosingTag :=
  findFrom name 0 lineStart at_ at_ s

end ClosingTag
end Folio
