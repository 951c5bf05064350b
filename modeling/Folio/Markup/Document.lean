import Folio.Json.Value
import Folio.Markup.Tag

/-!
# Documents

What a source text says: metadata, imports, and a tree of blocks whose leaves hold inline content.
Every block, list item, widget, prop and expression carries its span in the source.

A widget stands as a block or between words, and has a body of blocks in both places. What is read
between words is always a tag that closes itself, with nothing in its body.
-/

namespace Folio

/-- The tag of a widget in a document. -/
structure WidgetTag where
  name : String
  props : List WidgetProp
  span : Span
  deriving DecidableEq, Repr

mutual

/-- Content within a paragraph or heading. -/
inductive Inline
  | text (value : String)
  | strong (children : List Inline)
  | emphasis (children : List Inline)
  | strikethrough (children : List Inline)
  | code (value : String)
  | link (href : String) (children : List Inline)
  | image (src alt : String)
  | softBreak
  | lineBreak
  | widget (element : WidgetElement)
  | expression (source : String) (span : Span)
  deriving Repr

/-- A block of a document. A list that is *tight* has no blank line inside. -/
inductive Block
  | heading (level : Nat) (children : List Inline) (span : Span)
  | paragraph (children : List Inline) (span : Span)
  | quote (children : List Block) (span : Span)
  | list (ordered : Bool) (start : Option Nat) (tight : Bool) (items : List ListItem) (span : Span)
  | code (info : Option String) (code : String) (span : Span)
  | thematicBreak (span : Span)
  | widget (tag : WidgetTag) (selfClosing : Bool) (children : List Block)
  deriving Repr

/-- An item of a list. -/
inductive ListItem
  | mk (children : List Block) (span : Span)
  deriving Repr

/-- A widget between words. -/
inductive WidgetElement
  | mk (tag : WidgetTag) (selfClosing : Bool) (children : List Block)
  deriving Repr

end

namespace WidgetElement

/-- The tag of a widget. -/
def tag : WidgetElement → WidgetTag
  | mk tag _ _ => tag

/-- A widget stands for its tag where the body does not matter. -/
instance : Coe WidgetElement WidgetTag := ⟨tag⟩

end WidgetElement

namespace ListItem

/-- The blocks of an item. -/
def children : ListItem → List Block
  | mk children _ => children

/-- The span of an item. -/
def span : ListItem → Span
  | mk _ span => span

end ListItem

/-- The span of a block. -/
def Block.span : Block → Span
  | .heading _ _ span => span
  | .paragraph _ span => span
  | .quote _ span => span
  | .list _ _ _ _ span => span
  | .code _ _ span => span
  | .thematicBreak span => span
  | .widget tag _ _ => tag.span

/-- How metadata is written: between lines of dashes, or as an exported constant. -/
inductive MetadataFormat
  | frontMatter
  | exported
  deriving DecidableEq, Repr

/-- The fields that describe a document, in the order of their keys. -/
structure Metadata where
  format : MetadataFormat
  fields : List (String × Json)
  span : Span
  deriving Repr

/-- The title of a document, when its metadata has a text for it. -/
def Metadata.title? (m : Metadata) : Option String :=
  match m.fields.lookup "title" with
  | some (.string title) => some title
  | _ => none

/-- An import statement. Widgets are known to every document, so it has no effect. -/
structure Import where
  statement : String
  span : Span
  deriving DecidableEq, Repr

/-- A document. -/
structure Document where
  metadata : Option Metadata
  imports : List Import
  blocks : List Block
  deriving Repr

end Folio
