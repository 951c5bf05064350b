import Folio.Editor.Selection
import Folio.Render.Widget

/-!
# Toolbar commands

A command takes a text with a selection to another text with a selection. Commands only insert: they
put markers around the selection, a marker at the start of its line, or a snippet after it.

* `Edit.wrap`, `Edit.markLine` and `Edit.insert` are the three ways to insert;
* `Command.apply` is what a command does, and `Command.toolbar` lists those on offer.
-/

namespace Folio

/-- A text and the selection to show in it. -/
structure Edit where
  text : Text
  selection : Selection
  deriving DecidableEq, Repr

namespace Edit

/-- A text with a piece put in at an offset. -/
def put (text : Text) (offset : Nat) (piece : Text) : Text :=
  Text.takeBytes text offset ++ piece ++ Text.dropBytes text offset

/-- Puts markers around the selection, which stays on the same characters. -/
def wrap (before after : Text) (text : Text) (selection : Selection) : Edit :=
  let s := selection.clamp text
  { text := put (put text s.stop after) s.start before
    selection := s.shift (Text.bytes before) }

/-- Puts a piece in after the selection; the cursor goes behind it. -/
def insert (piece : Text) (text : Text) (selection : Selection) : Edit :=
  let s := selection.clamp text
  { text := put text s.stop piece
    selection := .cursor (s.stop + Text.bytes piece) }

/-- The offset of the start of the line that an offset lies in. -/
def lineStart (text : Text) (offset : Nat) : Nat :=
  Text.bytes ((Text.takeBytes text offset).reverse.dropWhile (· != '\n'))

/-- Puts a marker at the start of the line in which the selection starts. -/
def markLine (marker : Text) (text : Text) (selection : Selection) : Edit :=
  let s := selection.clamp text
  { text := put text (lineStart text s.start) marker
    selection := s.shift (Text.bytes marker) }

/-- A piece that has to start a line, to be put in after the selection: an empty line comes before
it unless it stands at the start of a line already. -/
def ownLine (piece : Text) (text : Text) (selection : Selection) : Text :=
  let before := Text.takeBytes text (selection.clamp text).stop
  if before.isEmpty || Text.endsWith before '\n' then piece else '\n' :: '\n' :: piece

end Edit

/-- Why a command is refused. -/
inductive CommandError
  | unknownWidget (name : String)
  | invalidHeadingLevel (level : Nat)
  deriving DecidableEq, Repr

/-- The error's message. -/
def CommandError.message : CommandError → String
  | unknownWidget name => s!"No widget named '{name}' is registered"
  | invalidHeadingLevel level => s!"Heading level must be between 1 and 6, got {level}"

/-- What a button of the toolbar does. -/
inductive Command
  | bold
  | italic
  | strikethrough
  | inlineCode
  | heading (level : Nat)
  | quote
  | bulletList
  | numberedList
  | link
  | image
  | horizontalRule
  | codeBlock
  | widget (name : String)
  deriving DecidableEq, Repr

/-- The markup of an uploaded image. Quotes in its address are written as escapes. -/
def uploadedImage (url : Text) : Text :=
  "<Figure src=\"".toList ++ url.flatMap (fun c => if c == '"' then ['%', '2', '2'] else [c]) ++
    "\" />\n".toList

/-- Puts the template of a widget in after the selection, on a line of its own. -/
def Edit.insertTemplate (caps : CapabilitySet) (name : String) (text : Text)
    (selection : Selection) : Except CommandError Edit :=
  match caps.get? name with
  | none => .error (.unknownWidget name)
  | some w => .ok (Edit.insert (ownLine w.template.toList text selection) text selection)

namespace Command

/-- What the command does to a text with a selection. -/
def apply (caps : CapabilitySet) (command : Command) (text : Text) (selection : Selection) :
    Except CommandError Edit :=
  let wrap (before after : String) : Except CommandError Edit :=
    .ok (Edit.wrap before.toList after.toList text selection)
  let markLine (marker : String) : Except CommandError Edit :=
    .ok (Edit.markLine marker.toList text selection)
  let insert (piece : Text) : Except CommandError Edit := .ok (Edit.insert piece text selection)
  match command with
  | bold => wrap "**" "**"
  | italic => wrap "*" "*"
  | strikethrough => wrap "~~" "~~"
  | inlineCode => wrap "`" "`"
  | codeBlock => wrap "```\n" "\n```\n"
  | heading level =>
    if 1 ≤ level && level ≤ 6 then
      .ok (Edit.markLine (List.replicate level '#' ++ [' ']) text selection)
    else .error (.invalidHeadingLevel level)
  | quote => markLine "> "
  | bulletList => markLine "- "
  | numberedList => markLine "1. "
  | link => insert "[link text](https://example.com)".toList
  | image => insert "![alt text](/images/example.png)".toList
  | horizontalRule => insert (Edit.ownLine "---\n".toList text selection)
  | widget name => Edit.insertTemplate caps name text selection

/-- The name of the command for the author. -/
def label : Command → String
  | bold => "Bold"
  | italic => "Italic"
  | strikethrough => "Strikethrough"
  | inlineCode => "Inline code"
  | heading level => s!"Heading {level}"
  | quote => "Quote"
  | bulletList => "Bulleted list"
  | numberedList => "Numbered list"
  | link => "Link"
  | image => "Image"
  | horizontalRule => "Horizontal rule"
  | codeBlock => "Code block"
  | widget name => s!"Insert {name}"

/-- The commands on offer with some capabilities, in the order in which they are shown. -/
def toolbar (caps : CapabilitySet) : List Command :=
  [bold, italic, strikethrough, inlineCode] ++
    [1, 2, 3, 4, 5, 6].map heading ++
    [quote, bulletList, numberedList, link, image, horizontalRule, codeBlock] ++
    caps.names.map widget

end Command
end Folio
