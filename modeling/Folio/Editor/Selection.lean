import Folio.Text.Basic

/-!
# Selections

The part of a text that an author has selected, from one byte offset to another. A selection that
starts where it stops is a cursor. Selections that come from outside may reach past the text or into
a character; `Selection.clamp` pulls them onto boundaries.
-/

namespace Folio

/-- A range of byte offsets. -/
structure Selection where
  start : Nat
  stop : Nat
  deriving DecidableEq, Repr

namespace Selection

/-- The range between two offsets, in either order. -/
def between (a b : Nat) : Selection :=
  if a ≤ b then { start := a, stop := b } else { start := b, stop := a }

/-- A cursor. -/
def cursor (offset : Nat) : Selection := { start := offset, stop := offset }

/-- Whether nothing is selected. -/
def isEmpty (s : Selection) : Bool := s.start == s.stop

/-- The number of selected bytes. -/
def length (s : Selection) : Nat := s.stop - s.start

/-- The selection with both ends moved back onto boundaries of a text. -/
def clamp (s : Selection) (text : Text) : Selection :=
  between (Text.floor text s.start) (Text.floor text s.stop)

/-- The selection moved towards the end of the text. -/
def shift (n : Nat) (s : Selection) : Selection := { start := s.start + n, stop := s.stop + n }

/-- The selected part of a text. -/
def text (s : Selection) (t : Text) : Text :=
  Text.dropBytes (Text.takeBytes t s.stop) s.start

end Selection
end Folio
