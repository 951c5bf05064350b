import Folio.Render.Compilation
import Folio.Text.Width

/-!
# Reports

A message about a place in a source text is drawn for a terminal: the place's line and column, the
line with the place marked, and a label under the mark.
-/

namespace Folio
namespace Report

/-! ### Colours -/

/-- Red, for the message and the mark. -/
def red (s : String) : String := "\x1b[31m" ++ s ++ "\x1b[0m"

/-- A shade of grey by its number. -/
def grey (shade : Nat) (s : String) : String := s!"\x1b[38;5;{shade}m" ++ s ++ "\x1b[0m"

/-- The frame around the source. -/
def margin (s : String) : String := grey 246 s

/-- Source text that is not marked. -/
def dim (s : String) : String := grey 249 s

/-- The margin of lines that hold no source text. -/
def skipped (s : String) : String := grey 240 s

/-! ### Lines -/

/-- The characters that end a line, alone; `\r\n` ends one as well. -/
def isLineEnd (c : Char) : Bool :=
  let n := c.toNat
  (0x0A ≤ n && n ≤ 0x0D) || n == 0x85 || n == 0x2028 || n == 0x2029

/-- A text divided after its line endings. -/
def lines : Text → List Text
  | [] => []
  | '\r' :: '\n' :: s => ['\r', '\n'] :: lines s
  | c :: s =>
    if isLineEnd c then [c] :: lines s
    else
      match lines s with
      | [] => [[c]]
      | l :: ls => (c :: l) :: ls

/-- The line that holds the character after `k` others, with its number and the characters before
the place in it; a place at the end is on the last line. -/
def place (number k : Nat) : List Text → Option (Nat × Nat × Text)
  | [] => none
  | [l] => some (number, k, l)
  | l :: ls => if k < l.length then some (number, k, l) else place (number + 1) (k - l.length) ls

/-! ### Drawing -/

/-- The number of columns of a character that stands after `column` others. -/
def columns (column : Nat) (c : Char) : Nat :=
  if c == '\t' then 4 - column % 4 else if Text.isBlankChar c then 1 else Text.width c

/-- What is repeated. -/
def repeated (n : Nat) (s : String) : String := String.join (List.replicate n s)

/-- A line of source text in which the character after `mark` others is marked. White space shows
as spaces. -/
def sourceRow (mark column : Nat) : Text → String
  | [] => ""
  | c :: s =>
    let paint := if column == mark then red else dim
    let shown :=
      if Text.isBlankChar c then repeated (columns column c) (paint " ")
      else paint (String.ofList [c])
    shown ++ sourceRow mark (column + 1) s

/-- The number of columns of each place of a line; places past its end take one. -/
def widthAt (row : Text) (column : Nat) : Nat :=
  match row[column]? with
  | some c => columns column c
  | none => 1

/-- A row below the line: blanks before the mark, the mark, and two more places. Of a wide place
the first column shows `first` and the others `rest`. -/
def markRow (line : Text) (mark : Nat) (first rest after : String) : String :=
  let before := (List.range mark).map (widthAt line)
  let wide :=
    match widthAt line mark with
    | 0 => ""
    | n + 1 => first ++ repeated n rest
  repeated (before.foldl (· + ·) 0) " " ++ wide ++
    repeated (widthAt line (mark + 1) + widthAt line (mark + 2)) after

/-- The report of a message at an offset of a source text, with a label under the place. -/
def draw (source : Text) (filename : String) (offset : Nat) (message label : String) : String :=
  let headline := red "Error:" ++ " " ++ message ++ "\n"
  let offset := Text.floor source offset
  let before := ((Text.split? source offset).map Prod.fst).getD []
  match place 1 before.length (lines source) with
  | none => headline
  | some (number, mark, line) =>
    let wide := (toString number).length
    let gap := repeated (wide + 2) " "
    let blankMargin := " " ++ skipped (repeated (wide + 1) " " ++ "│") ++ " "
    let shown := Text.trimEnd line
    let rows :=
      if before.length == source.length then blankMargin ++ "\n"
      else
        " " ++ margin (toString number ++ " │") ++ " " ++ sourceRow mark 0 shown ++ "\n" ++
        blankMargin ++ markRow shown mark (red "┬") (red "─") " " ++ "\n" ++
        blankMargin ++ markRow shown mark (red "╰") (red "─") (red "─") ++ " " ++ label ++ "\n"
    headline ++
      gap ++ margin "╭" ++ margin "─" ++ margin "[" ++ s!"{filename}:{number}:{mark + 1}" ++
        margin "]" ++ "\n" ++
      gap ++ margin "│" ++ "\n" ++
      rows ++
      margin (repeated (wide + 2) "─" ++ "╯") ++ "\n"

end Report

/-- The report of a syntax error. -/
def SyntaxError.report (source : Text) (filename : String) (e : SyntaxError) : String :=
  Report.draw source filename e.pos e.message e.label

/-- The report of a failure; one without a location has no source to show. -/
def Failure.report (source : Text) (filename : String) (f : Failure) : String :=
  match f.location with
  | some l => Report.draw source filename l.offset f.message f.label
  | none => s!"{filename}: {f.message}"

end Folio
