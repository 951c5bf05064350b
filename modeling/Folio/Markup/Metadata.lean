import Folio.Markup.Declaration
import Folio.Markup.Document

/-!
# Metadata

The fields of a document's metadata are read from YAML between lines of dashes, and from the
literal of an exported constant, which is JSON or else YAML. How the two formats are read is a
parameter.
-/

namespace Folio

/-- Readers for the formats that values are written in: the value of a text, or why it has none. -/
structure Formats where
  json : Text → Except String Json
  yaml : Text → Except String Json

namespace Json

/-- How a value is named in a message. -/
def kindName : Json → String
  | null => "null"
  | bool _ => "a boolean"
  | integer _ => "a number"
  | float _ => "a number"
  | string _ => "a string"
  | array _ => "a list"
  | object _ => "an object"

end Json

namespace Metadata

/-- The lines between the first and the last line of front matter. -/
def body (text : Text) : Text :=
  let afterOpen := (text.dropWhile (· != '\n')).drop 1
  if afterOpen.contains '\n' then
    ((afterOpen.reverse.dropWhile (· != '\n')).drop 1).reverse
  else []

/-- The literal of an exported constant. -/
def literal (text : Text) : Text :=
  Text.trimEndOf (· == ';') (Text.trimEnd (text.dropWhile (· != '{')))

/-- The value in the text of a declaration. -/
def value (formats : Formats) (kind : DeclarationKind) (text : Text) : Except String Json :=
  match kind with
  | .frontMatter => if Text.isBlank (body text) then .ok .null else formats.yaml (body text)
  | .exportedMetadata =>
    match formats.json (literal text) with
    | .ok v => .ok v
    | .error _ => formats.yaml (literal text)
  | .importStatement => .error "import is not metadata"

/-- How the text of a declaration is written. -/
def formatOf (kind : DeclarationKind) : MetadataFormat :=
  if kind == .frontMatter then .frontMatter else .exported

/-- The metadata of a declaration in a source text: named fields, or nothing for null. -/
def read (formats : Formats) (source : Text) (d : Declaration) : Except SyntaxError Metadata :=
  let fail (message : String) : Except SyntaxError Metadata :=
    .error { pos := d.span.start, fault := .invalidMetadata message }
  let text := (Text.cut? source d.span.start d.span.stop).getD []
  match value formats d.kind text with
  | .error message => fail message
  | .ok .null => .ok { format := formatOf d.kind, fields := [], span := d.span }
  | .ok (.object fields) => .ok { format := formatOf d.kind, fields, span := d.span }
  | .ok other => fail s!"expected key/value pairs, found {other.kindName}"

/-- Whether a declaration holds metadata. -/
def isDeclaredBy (d : Declaration) : Bool := d.kind != .importStatement

/-- The metadata of a source text, if it declares any. -/
def extract (formats : Formats) (source : Text) : Except SyntaxError (Option Metadata) :=
  match (Declaration.scan source).find? isDeclaredBy with
  | none => .ok none
  | some d => (read formats source d).map some

end Metadata
end Folio
