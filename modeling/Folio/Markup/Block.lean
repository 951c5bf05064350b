import Folio.Markup.Inline
import Folio.Markup.Metadata

/-!
# Blocks

The lines of a region are read from the top. The first line of a block tells its kind and with it
the lines that it takes. Quotes, list items and widget bodies are regions of their own and are read
in the same way, one level deeper; the number of levels is bounded.
-/

namespace Folio

/-- Containers nested deeper than this are refused. -/
def maxNesting : Nat := 48

namespace Block

/-- A block, and the offset in the region where the next one may start. -/
abbrev Taken := Block × Nat

/-- How the content of a container is read, one level deeper. -/
abbrev Inner := Region → Except Halt (List Block)

/-- A part of a region. -/
def slice (r : Region) (start stop : Nat) : Except Halt Region :=
  match r.slice? start stop with
  | some inner => .ok inner
  | none => .error (.badCut start stop)

/-- The first piece that does not lie between two boundaries, and an empty one if all do. -/
def badPiece (r : Region) (pieces : List (Nat × Nat)) : Nat × Nat :=
  (pieces.find? fun (start, stop) => (r.cutCells? start stop).isNone).getD (0, 0)

/-- Pieces of a region, joined. -/
def gather (r : Region) (pieces : List (Nat × Nat)) : Except Halt Region :=
  match r.fromPieces? pieces with
  | some inner => .ok inner
  | none => .error (.badCut (badPiece r pieces).1 (badPiece r pieces).2)

/-- The inline content of a region. -/
def inlines (r : Region) : Except Halt (List Inline) :=
  match Inline.read r with
  | .ok content => .ok content
  | .error e => .error (.mistake e)

/-! ### Leaves -/

/-- A line of code without the indentation of its fence. -/
def outdent (indent : Nat) (line : Text) : Text := line.drop (min (indentation line) indent)

/-- A fenced block: its code goes on to the line that closes the fence, or to the last line. -/
def fenced (r : Region) (fence : Fence) (l : Line) (ls : List Line) : Taken :=
  let body := ls.takeWhile fun m => !fence.closes m.text
  let last := ((l :: ls).drop (body.length + 1)).head?.getD (body.getLast?.getD l)
  let code := body.flatMap fun m => outdent fence.indent m.text ++ ['\n']
  (.code fence.info (String.ofList code) (r.span l.start last.stop), last.next)

/-- A heading. -/
def titled (r : Region) (mark : HeadingMark) (l : Line) : Except Halt Taken := do
  let content ← slice r (l.start + mark.start) (l.start + mark.stop)
  return (.heading mark.level (← inlines content) (r.span l.start l.stop), l.next)

/-- A paragraph: it goes on to a blank line or to one that begins another block. -/
def paragraphAt (r : Region) (l : Line) (ls : List Line) : Except Halt Taken := do
  let lines := l :: ls.takeWhile fun m => !(Text.isBlank m.text || startsBlock m.text)
  let last := lines.getLast?.getD l
  let content ← gather r (lines.map fun m => (m.start + indentation m.text, m.stop))
  return (.paragraph (← inlines content) (r.span l.start last.stop), last.next)

/-! ### Containers -/

/-- A quote: it takes all lines with a quote mark. -/
def quoted (inner : Inner) (r : Region) (l : Line) (ls : List Line) : Except Halt Taken := do
  let lines := (l :: ls).takeWhile fun m => (quoteMark? m.text).isSome
  let last := lines.getLast?.getD l
  let content ← gather r <| lines.map fun m =>
    (min (m.start + (quoteMark? m.text).getD 0) m.stop, m.stop)
  return (.quote (← inner content) (r.span l.start last.stop), last.next)

/-- The lines of a list item: its pieces, its last line with content, whether a blank line comes
before content, whether blank lines follow, the offset after it, and the lines that are left. -/
structure ItemLines where
  pieces : List (Nat × Nat)
  last : Line
  loose : Bool
  blanksAfter : Bool
  resume : Nat
  rest : List Line

/-- Collects the lines of an item whose content starts at a column: indented lines, and lines that
go on with a paragraph. The latest piece comes first while collecting. -/
def itemLines (column : Nat) : ItemLines → List Line → ItemLines
  | item, [] => { item with rest := [] }
  | item, l :: ls =>
    let indent := indentation l.text
    if Text.isBlank l.text then
      itemLines column
        { item with
          pieces := (l.start, l.start) :: item.pieces, blanksAfter := true, resume := l.next } ls
    else if column ≤ indent then
      itemLines column
        { item with
          pieces := (l.start + column, l.stop) :: item.pieces, last := l
          loose := item.loose || item.blanksAfter, blanksAfter := false, resume := l.next } ls
    else if !item.blanksAfter && !startsBlock l.text then
      itemLines column
        { item with
          pieces := (l.start + indent, l.stop) :: item.pieces, last := l, resume := l.next } ls
    else { item with rest := l :: ls }

/-- Removes empty pieces from the end, but for the first piece; the latest piece comes first. -/
def dropEmpty : List (Nat × Nat) → List (Nat × Nat)
  | [] => []
  | [p] => [p]
  | (start, stop) :: p :: ps =>
    if start == stop then dropEmpty (p :: ps) else (start, stop) :: p :: ps

/-- The mark of a line that goes on with a list. -/
def itemMark? (ordered : Bool) (line : Text) : Option ListMark :=
  (ListMark.ofLine? line).filter fun m => m.ordered == ordered && !isThematicBreak line

/-- The items of a list, whether none is loose, the end of the last item, and the offset after. -/
structure Items where
  items : List ListItem
  tight : Bool
  stop : Nat
  resume : Nat

/-- The item that starts at a line with a mark, and its lines. -/
def itemAt (inner : Inner) (r : Region) (mark : ListMark) (l : Line) (ls : List Line) :
    Except Halt (ListItem × ItemLines) := do
  let first := (min (l.start + mark.content) l.stop, l.stop)
  let item := itemLines mark.content
    { pieces := [first], last := l, loose := false, blanksAfter := false, resume := l.next,
      rest := [] } ls
  let content ← gather r (dropEmpty item.pieces).reverse
  return (.mk (← inner content) (r.span l.start item.last.stop), item)

/-- Whether a blank line divides an item from a next one of the same list. -/
def ItemLines.isApart (item : ItemLines) (ordered : Bool) : Bool :=
  item.blanksAfter &&
    item.rest.head?.any fun l => (ListMark.ofLine? l.text).any (·.ordered == ordered)

/-- Reads items from the lines that do not start before `resume`; `stop` is the end of the last
item before. -/
def itemsFrom (inner : Inner) (r : Region) (ordered : Bool) (stop : Nat) :
    Nat → List Line → Except Halt Items
  | resume, [] => .ok { items := [], tight := true, stop, resume }
  | resume, l :: ls =>
    if l.start < resume then itemsFrom inner r ordered stop resume ls
    else
      match itemMark? ordered l.text with
      | none => .ok { items := [], tight := true, stop, resume }
      | some mark => do
        let (item, lines) ← itemAt inner r mark l ls
        let more ← itemsFrom inner r ordered lines.last.stop lines.resume ls
        return { more with
          items := item :: more.items
          tight := !lines.loose && !lines.isApart ordered && more.tight }

/-- A list. -/
def listed (inner : Inner) (r : Region) (mark : ListMark) (l : Line) (ls : List Line) :
    Except Halt Taken := do
  let items ← itemsFrom inner r mark.ordered l.stop l.start (l :: ls)
  return (.list mark.ordered mark.number items.tight items.items (r.span l.start items.stop),
    items.resume)

/-- A region without the indentation that its lines have in common. -/
def dedent (r : Region) : Except Halt Region :=
  let indents := (r.lines.filter fun l => !Text.isBlank l.text).map fun l => indentation l.text
  match indents.min?.getD 0 with
  | 0 => .ok r
  | n => gather r (r.lines.map fun l => (min (l.start + n) l.stop, l.stop))

/-- The body of the widget whose opening tag ends before the text `s`, and the offset after its
closing tag. -/
def bodyOf (inner : Inner) (r : Region) (at_ : Nat) (tag : OpenTag) (s : Text) :
    Except Halt (List Block × Nat) :=
  if tag.selfClosing then .ok ([], tag.stop)
  else
    match ClosingTag.find? tag.name.toList false tag.stop s with
    | none => mistake (r.toSource at_) (.unclosedWidget tag.name)
    | some close => do
      let body ← dedent (← slice r tag.stop close.start)
      return (← inner body, close.stop)

/-- A widget. Text after a tag that closes itself makes it a paragraph. -/
def widgetAt (inner : Inner) (r : Region) (l : Line) (ls : List Line) : Except Halt Taken := do
  let at_ := l.start + indentation l.text
  let source := (Line.join (l :: ls)).drop (indentation l.text)
  match OpenTag.read at_ source with
  | .error e => .error (.mistake (e.relocate r.toSource))
  | .ok tag =>
    let (children, stop) ← bodyOf inner r at_ tag (Text.dropBytes source (tag.stop - at_))
    let tail := (Text.dropBytes source (stop - at_)).takeWhile (· != '\n')
    if Text.isBlank tail then
      return (.widget (Inline.tagIn r tag at_ stop) tag.selfClosing children, stop)
    else if tag.selfClosing then paragraphAt r l ls
    else
      mistake (r.toSource (stop + indentation tail)) (.invalid s!"unexpected text after </{tag.name}>")

/-! ### Regions -/

/-- The block that starts at a line that is not blank. -/
def blockAt (inner : Inner) (r : Region) (l : Line) (ls : List Line) : Except Halt Taken :=
  match Fence.open? l.text with
  | some fence => .ok (fenced r fence l ls)
  | none =>
    match HeadingMark.ofLine? l.text with
    | some mark => titled r mark l
    | none =>
      if isThematicBreak l.text then .ok (.thematicBreak (r.span l.start l.stop), l.next)
      else if (quoteMark? l.text).isSome then quoted inner r l ls
      else
        match ListMark.ofLine? l.text with
        | some mark => listed inner r mark l ls
        | none =>
          if isWidgetStart l.text then widgetAt inner r l ls
          else
            match closingTagName? l.text with
            | some name =>
              mistake (r.toSource (l.start + indentation l.text)) (.unexpectedClosingTag name)
            | none => paragraphAt r l ls

/-- The blocks among some lines. Lines that start before `resume` are passed over, and so are
declarations. -/
def blocksFrom (inner : Inner) (r : Region) (skip : List Declaration) :
    Nat → List Line → Except Halt (List Block)
  | _, [] => .ok []
  | resume, l :: ls =>
    if l.start < resume then blocksFrom inner r skip resume ls
    else
      match skip.find? (·.covers l.start) with
      | some d => blocksFrom inner r skip (d.span.stop + 1) ls
      | none =>
        if Text.isBlank l.text then blocksFrom inner r skip resume ls
        else do
          let (block, resume) ← blockAt inner r l ls
          return block :: (← blocksFrom inner r skip resume ls)

/-- The blocks of a region in which containers may be nested to a number of levels, the region
itself included. -/
def parse : Nat → List Declaration → Region → Except Halt (List Block)
  | 0, _, r => mistake (r.toSource 0) (.invalid "blocks are nested too deeply")
  | levels + 1, skip, r => blocksFrom (parse levels []) r skip 0 r.lines

end Block

namespace Document

/-- The import that a declaration makes. -/
def importOf (source : Text) (d : Declaration) : Import :=
  let text := (Text.cut? source d.span.start d.span.stop).getD []
  { statement := String.ofList (Text.trim text), span := d.span }

/-- The metadata among some declarations. -/
def metadataOf (formats : Formats) (source : Text) (ds : List Declaration) :
    Except Halt (Option Metadata) :=
  match ds.find? Metadata.isDeclaredBy with
  | none => .ok none
  | some d =>
    match Metadata.read formats source d with
    | .ok m => .ok (some m)
    | .error e => .error (.mistake e)

/-- The document that a source text says. -/
def parse (formats : Formats) (source : Text) : Except Halt Document := do
  let declarations := Declaration.scan source
  let metadata ← metadataOf formats source declarations
  let imports := (declarations.filter (·.kind == .importStatement)).map (importOf source)
  let blocks ← Block.parse maxNesting declarations (Region.root source)
  return { metadata, imports, blocks }

end Document
end Folio
