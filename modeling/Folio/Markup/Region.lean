import Folio.Text.Line
import Folio.Markup.Span

/-!
# Regions

Quotes, list items and widget bodies are read without the marks and the indentation that contain
them. A region is such a reduced text, each character of which is placed at an offset of the
author's source, so that spans and errors found in it point into the source.

* `Region.root` is a whole source;
* `Region.slice?` is a contiguous part of a region;
* `Region.fromPieces?` joins parts of a region with line feeds.

Both refuse parts that do not lie between two boundaries of the region's text.
-/

namespace Folio

/-- A character and the source offset where it is placed. -/
structure Placed where
  char : Char
  pos : Nat
  deriving DecidableEq, Repr

namespace Placed

/-- Places the characters of a text one after another. -/
def along (pos : Nat) : Text → List Placed
  | [] => []
  | c :: s => ⟨c, pos⟩ :: along (pos + c.utf8Size) s

@[simp] theorem map_char_along (pos : Nat) (s : Text) : (along pos s).map char = s := by
  induction s generalizing pos with
  | nil => rfl
  | cons c s ih => simp [along, ih]

end Placed

/-- A text with a place in the source for each character and for its end. -/
structure Region where
  cells : List Placed
  stop : Nat
  deriving DecidableEq, Repr

namespace Region

/-- The characters of a region. -/
def text (r : Region) : Text := r.cells.map Placed.char

/-- A whole source, every character at its own offset. -/
def root (source : Text) : Region :=
  { cells := Placed.along 0 source, stop := Text.bytes source }

@[simp] theorem text_root (source : Text) : (root source).text = source := by
  simp [root, text]

/-- The lines of a region's text. -/
def lines (r : Region) : List Line := Line.split r.text

/-- The source offset of an offset among placed characters that end at `stop`. An offset inside a
character stays inside it. -/
def locate (stop : Nat) : List Placed → Nat → Nat
  | [], _ => stop
  | p :: ps, n => if n < p.char.utf8Size then p.pos + n else locate stop ps (n - p.char.utf8Size)

/-- The source offset of an offset in the region. -/
def toSource (r : Region) (offset : Nat) : Nat := locate r.stop r.cells offset

/-- The size of the character that covers an offset, and one at the end. -/
def sizeAt : Text → Nat → Nat
  | [], _ => 1
  | c :: s, n => if n < c.utf8Size then c.utf8Size else sizeAt s (n - c.utf8Size)

/-- The source span of a range in the region: from the place of its first byte to that of its last
byte and the size of the character there. -/
def span (r : Region) (start stop : Nat) : Span :=
  let first := r.toSource start
  let past :=
    if start < stop then r.toSource (stop - 1) + sizeAt r.text (stop - 1) else first
  { start := first, stop := max past first }

/-- Divides placed characters at a boundary. -/
def splitCells? : List Placed → Nat → Option (List Placed × List Placed)
  | ps, 0 => some ([], ps)
  | [], _ + 1 => none
  | p :: ps, n + 1 =>
    if p.char.utf8Size ≤ n + 1 then
      (splitCells? ps (n + 1 - p.char.utf8Size)).map fun (before, after) => (p :: before, after)
    else none

/-- The placed characters between two boundaries. -/
def cutCells? (r : Region) (start stop : Nat) : Option (List Placed) := do
  if stop < start then none
  let (_, after) ← splitCells? r.cells start
  let (inside, _) ← splitCells? after (stop - start)
  return inside

/-- The contiguous part of a region between two boundaries. -/
def slice? (r : Region) (start stop : Nat) : Option Region :=
  (r.cutCells? start stop).map fun cells => { cells, stop := r.toSource stop }

/-- Joins pieces, each with the source offset of its start, with line feeds. A line feed is placed
just past the piece before it. -/
def joinPieces : List (Nat × Text) → List Placed
  | [] => []
  | [(pos, s)] => Placed.along pos s
  | (pos, s) :: rest => Placed.along pos (s ++ ['\n']) ++ joinPieces rest

/-- The region made of parts of a region, each given by its two ends, joined with line feeds. -/
def fromPieces? (r : Region) (pieces : List (Nat × Nat)) : Option Region := do
  let parts ← pieces.mapM fun (start, stop) => do
    let cells ← r.cutCells? start stop
    return (r.toSource start, cells.map Placed.char)
  return {
    cells := joinPieces parts
    stop := r.toSource ((pieces.getLast?.map Prod.snd).getD 0) }

end Region
end Folio
