import Folio.Markup.Tag

/-!
# Declarations

A document may start with metadata, between lines of dashes or as an exported constant, and there
may be import statements at its top level. These declarations cover whole lines and are no content.
They are looked for line by line; fenced code and widgets are passed over, so text in them that
looks like a declaration is left alone.
-/

namespace Folio

/-- What a declaration declares. -/
inductive DeclarationKind
  | frontMatter
  | exportedMetadata
  | importStatement
  deriving DecidableEq, Repr

/-- A declaration and its span, from the start of its first line to the end of its last. -/
structure Declaration where
  kind : DeclarationKind
  span : Span
  deriving DecidableEq, Repr

namespace Declaration

/-- Whether a line that starts at an offset touches a declaration. -/
def covers (d : Declaration) (lineStart : Nat) : Bool :=
  d.span.start ≤ lineStart && lineStart ≤ d.span.stop

/-- Whether a line exports the constant `meta`. -/
def isExport (line : Text) : Bool :=
  match Text.words line with
  | e :: c :: m :: _ =>
    e == "export".toList && c == "const".toList &&
      (m == "meta".toList || "meta=".toList.isPrefixOf m)
  | _ => false

/-- Whether a line may start an import. -/
def isImport (line : Text) : Bool :=
  "import ".toList.isPrefixOf line || "import\x7b".toList.isPrefixOf line

/-- Whether a line ends an import: its last character, but for one semicolon, is a quote. -/
def endsImport (line : Text) : Bool :=
  let s := Text.trimEnd line
  let s := if Text.endsWith s ';' then Text.trimEnd s.dropLast else s
  Text.endsWith s '"' || Text.endsWith s '\''

/-- The last line of an import among the lines from its first. Prose that starts like an import
meets a blank line before one that ends it. -/
def importEnd? : List Line → Option Line
  | [] => none
  | l :: ls =>
    if Text.isBlank l.text then none
    else if endsImport l.text then some l
    else importEnd? ls

/-- The first line that reaches past an offset, or has no line ending. -/
def lineAt? (offset : Nat) : List Line → Option Line
  | [] => none
  | l :: ls => if offset < l.next || l.ending == .none then some l else lineAt? offset ls

/-- Whether a line closes front matter. -/
def closesFrontMatter (line : Text) : Bool :=
  let s := Text.trimEnd line
  s == "---".toList || s == "...".toList

/-- The front matter at the start of a text, and the offset after it. The line after the opening
dashes must not be blank. -/
def frontMatter? : List Line → Option (Declaration × Nat)
  | first :: second :: rest =>
    if Text.trimEnd first.text == "---".toList && !Text.isBlank second.text then
      ((second :: rest).find? fun l => closesFrontMatter l.text).map fun close =>
        ({ kind := .frontMatter, span := ⟨first.start, close.stop⟩ }, close.next)
    else none
  | _ => none

/-- The last line of the constant that is exported from the first of some lines on. -/
def exportEnd? (lines : List Line) : Option Line := do
  let first ← lines.head?
  let source := Line.join lines
  let before := source.takeWhile (· != '{')
  if before.length == source.length then none
  let at_ := first.start + Text.bytes before
  match Expression.read at_ (source.drop before.length) with
  | .ok e => lineAt? (at_ + Text.bytes e - 1) lines
  | .error _ => none

/-- The offset of the line after the widget that the first of some lines starts with. A widget
that is never closed takes the rest of the text. -/
def pastWidget? (lines : List Line) : Option Nat := do
  let first ← lines.head?
  let source := Line.join lines
  let indent := source.takeWhile isIndent
  let at_ := first.start + indent.length
  match OpenTag.read at_ (source.drop indent.length) with
  | .error _ => none
  | .ok tag =>
    let stop :=
      if tag.selfClosing then tag.stop
      else
        match ClosingTag.find? tag.name.toList false tag.stop
            (Text.dropBytes (source.drop indent.length) (tag.stop - at_)) with
        | some close => close.stop
        | none => first.start + Text.bytes source
    return ((lineAt? (stop - 1) lines).map Line.next).getD (first.start + Text.bytes source)

/-- The declarations among some lines. Lines that start before `resume` are passed over;
`metadata` tells whether an exported constant may still come. -/
def scanFrom : Bool → Nat → List Line → List Declaration
  | _, _, [] => []
  | metadata, resume, l :: ls =>
    if l.start < resume || Text.isBlank l.text then scanFrom metadata resume ls
    else
      match Fence.open? l.text with
      | some fence => scanFrom false (fence.skip l.next (Line.join ls)) ls
      | none =>
        match if isImport l.text then importEnd? (l :: ls) else none with
        | some last =>
          { kind := .importStatement, span := ⟨l.start, last.stop⟩ } ::
            scanFrom metadata last.next ls
        | none =>
          if metadata && isExport l.text then
            match exportEnd? (l :: ls) with
            | some last =>
              { kind := .exportedMetadata, span := ⟨l.start, last.stop⟩ } ::
                scanFrom false last.next ls
            | none => scanFrom false l.next ls
          else
            match if isWidgetStart l.text then pastWidget? (l :: ls) else none with
            | some resume => scanFrom false resume ls
            | none => scanFrom false l.next ls

/-- The declarations of a source text, in order. -/
def scan (source : Text) : List Declaration :=
  let lines := Line.split source
  match frontMatter? lines with
  | some (d, resume) => d :: scanFrom false resume lines
  | none => scanFrom true 0 lines

end Declaration

/-- The text with its declarations blanked out. Line endings stay, and every other character
becomes as many spaces as it has bytes, so offsets stay the same. -/
def blankOut (s : Text) : Text :=
  s.flatMap fun c => if c == '\n' || c == '\r' then [c] else List.replicate c.utf8Size ' '

/-- Blanks out what lies in some spans, which come in order, in the text from an offset on. -/
def stripSpans (spans : List Span) (at_ : Nat) : Text → Text
  | [] => []
  | c :: s =>
    let covered := spans.any fun d => d.start ≤ at_ && at_ < d.stop
    (if covered then blankOut [c] else [c]) ++ stripSpans spans (at_ + c.utf8Size) s

/-- A source text with its declarations blanked out. -/
def strip (source : Text) : Text := stripSpans ((Declaration.scan source).map (·.span)) 0 source

end Folio
