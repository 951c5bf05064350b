import Folio.Text.Blank
import Folio.Text.Line

/-!
# Kinds of lines

What a single line can begin: a fenced code block, a heading, a thematic break, a block quote, a
list item, a widget. Nothing here looks at more than one line; offsets are bytes from the line's
start. A mark may be indented by at most three spaces or tabs.
-/

namespace Folio

/-- Spaces and tabs, the characters that indent a line. -/
def isIndent (c : Char) : Bool := c == ' ' || c == '\t'

/-- The number of spaces and tabs at the start of a line. -/
def indentation (line : Text) : Nat := (line.takeWhile isIndent).length

/-- The line after its indentation, when that is small enough for a mark to follow. -/
def unindent? (line : Text) : Option Text :=
  if 3 < indentation line then none else some (line.dropWhile isIndent)

/-- The opening line of a fenced code block. -/
structure Fence where
  marker : Char
  length : Nat
  indent : Nat
  info : Option String
  deriving DecidableEq, Repr

namespace Fence

/-- A fence opens with three or more backticks or tildes. What follows is its info string, which
must not hold a backtick after backticks. -/
def open? (line : Text) : Option Fence := do
  let rest ← unindent? line
  let marker ← rest.head?
  if marker != '\x60' && marker != '~' then none
  let run := rest.takeWhile (· == marker)
  if run.length < 3 then none
  let info := Text.trim (rest.drop run.length)
  if marker == '\x60' && info.contains '\x60' then none
  return {
    marker
    length := run.length
    indent := indentation line
    info := if info.isEmpty then none else some (String.ofList info) }

/-- A fence is closed by a line of at least as many of its marks and nothing else. -/
def closes (f : Fence) (line : Text) : Bool :=
  let rest := Text.trimStart line
  let run := rest.takeWhile (· == f.marker)
  indentation line ≤ 3 && f.length ≤ run.length && Text.isBlank (rest.drop run.length)

end Fence

/-- A heading's level and the range of its content. -/
structure HeadingMark where
  level : Nat
  start : Nat
  stop : Nat
  deriving DecidableEq, Repr

/-- A heading begins with one to six hashes and a space or tab. Closing hashes after a space are
no part of its content. -/
def HeadingMark.ofLine? (line : Text) : Option HeadingMark := do
  let rest ← unindent? line
  let level := (rest.takeWhile (· == '#')).length
  if level == 0 || 6 < level then none
  let after := rest.drop level
  if !(after.head?.all isIndent) then none
  let inner := Text.trim after
  let unclosed := Text.trimEndOf (· == '#') inner
  let content :=
    if unclosed.isEmpty || Text.endsWith unclosed ' ' then Text.trimEnd unclosed else inner
  let start :=
    if content.isEmpty then Text.bytes line
    else indentation line + level + Text.bytes (after.takeWhile Text.isBlankChar)
  return { level, start, stop := start + Text.bytes content }

/-- A thematic break is three or more of one of `-`, `*` and `_`, with white space between. -/
def isThematicBreak (line : Text) : Bool :=
  let marks := line.filter fun c => !Text.isBlankChar c
  indentation line ≤ 3 &&
    match marks with
    | [] => false
    | c :: _ => (c == '-' || c == '*' || c == '_') && 3 ≤ marks.length && marks.all (· == c)

/-- The size of a quote mark with its indentation: `>` and at most one space. -/
def quoteMark? (line : Text) : Option Nat := do
  match ← unindent? line with
  | '>' :: ' ' :: _ => return indentation line + 2
  | '>' :: _ => return indentation line + 1
  | _ => none

/-- A list item's mark: its number if it is ordered, and the column where its content starts. -/
structure ListMark where
  ordered : Bool
  number : Option Nat
  content : Nat
  deriving DecidableEq, Repr

namespace ListMark

/-- The number that decimal digits stand for. -/
def readDigits (digits : Text) : Nat :=
  digits.foldl (fun n c => 10 * n + (c.toNat - '0'.toNat)) 0

/-- The bullet or the number at the start of a line, and the number of its characters. -/
def bullet? (rest : Text) : Option (Option Nat × Nat) :=
  match rest with
  | '-' :: _ | '*' :: _ | '+' :: _ => some (none, 1)
  | _ =>
    let digits := rest.takeWhile Char.isDigit
    if digits.isEmpty || 9 < digits.length then none
    else
      match rest.drop digits.length with
      | '.' :: _ | ')' :: _ => some (some (readDigits digits), digits.length + 1)
      | _ => none

/-- A list item begins with `-`, `*`, `+` or up to nine digits and `.` or `)`. Its content starts
after one to four spaces, or the item is empty. -/
def ofLine? (line : Text) : Option ListMark := do
  let rest ← unindent? line
  let (number, width) ← bullet? rest
  match rest.drop width with
  | [] => return { ordered := number.isSome, number, content := Text.bytes line }
  | after =>
    if 0 < indentation after then
      return {
        ordered := number.isSome
        number
        content := indentation line + width + min 4 (indentation after) }
    else none

end ListMark

/-- The upper-case letters that a widget's name starts with. -/
def isUpper (c : Char) : Bool := 'A' ≤ c && c ≤ 'Z'

/-- The characters that continue a widget's name. -/
def isNameChar (c : Char) : Bool :=
  c.isAlphanum || c == '_' || c == '.' || c == ':' || c == '-'

/-- Whether a line begins with `<` and an upper-case letter. -/
def isWidgetStart (line : Text) : Bool :=
  match unindent? line with
  | some ('<' :: c :: _) => isUpper c
  | _ => false

/-- The name in a closing tag at the start of a line, after any white space. -/
def closingTagName? (line : Text) : Option String :=
  match Text.trimStart line with
  | '<' :: '/' :: c :: rest =>
    if isUpper c then some (String.ofList ((c :: rest).takeWhile isNameChar)) else none
  | _ => none

/-- Whether a line begins a block even directly after a paragraph's line. -/
def startsBlock (line : Text) : Bool :=
  (Fence.open? line).isSome || (HeadingMark.ofLine? line).isSome || isThematicBreak line ||
    (quoteMark? line).isSome ||
    (ListMark.ofLine? line).any (fun m => m.content < Text.bytes line) ||
    isWidgetStart line || (closingTagName? line).isSome

end Folio
