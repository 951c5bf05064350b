import Folio.Text.Basic

/-!
# Locations

A place in a text as an author counts it: lines and columns from one, columns in characters.
-/

namespace Folio

/-- A line and column, and the byte offset that they stand for. -/
structure Location where
  line : Nat
  column : Nat
  offset : Nat
  deriving DecidableEq, Repr

namespace Location

/-- The line and column reached after reading some text from a given line and column. -/
def advance : Nat × Nat → Text → Nat × Nat
  | at_, [] => at_
  | (line, _), '\n' :: s => advance (line + 1, 1) s
  | (line, column), _ :: s => advance (line, column + 1) s

/-- The location of an offset; one inside a character counts as the character's start, and one
past the end as the end. -/
def ofOffset (source : Text) (offset : Nat) : Location :=
  let offset := Text.floor source offset
  let before := ((Text.split? source offset).map Prod.fst).getD []
  let (line, column) := advance (1, 1) before
  { line, column, offset }

/-- The form `line:column`. -/
def toString (l : Location) : String := s!"{l.line}:{l.column}"

end Location
end Folio
