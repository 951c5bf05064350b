import Folio.Editor.Selection

/-!
# Buffers

The text that is being edited, with the selection in it and the text that was last saved.
-/

namespace Folio

/-- An edited text. The version counts the changes of the text; the baseline is what was saved. -/
structure Buffer where
  text : Text
  selection : Selection := .cursor 0
  baseline : Text
  version : Nat := 0
  deriving DecidableEq, Repr

namespace Buffer

/-- A text that has just been loaded. -/
def loaded (text : Text) : Buffer := { text, baseline := text }

/-- A text that has never been saved. -/
def unsaved (text : Text) : Buffer := { text, baseline := [] }

/-- Whether there is something to save. -/
def isDirty (b : Buffer) : Bool := b.text != b.baseline

/-- The buffer after its text was saved. -/
def markSaved (b : Buffer) : Buffer := { b with baseline := b.text }

/-- The buffer with another selection. -/
def select (b : Buffer) (s : Selection) : Buffer := { b with selection := s.clamp b.text }

/-- Whether a text would be a change. -/
def differs (b : Buffer) (text : Text) : Bool := text != b.text

/-- The buffer with another text and selection. -/
def replace (b : Buffer) (text : Text) (s : Selection) : Buffer :=
  let version := if b.differs text then b.version + 1 else b.version
  { b with text, version, selection := s.clamp text }

/-- The selected part of the text. -/
def selected (b : Buffer) : Text := b.selection.text b.text

end Buffer
end Folio
