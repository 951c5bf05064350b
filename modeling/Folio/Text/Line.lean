import Folio.Text.Basic

/-!
# Lines

A text is divided after each `\n`; a `\r` directly before it belongs to the line's ending. A last
line without an ending is kept, and no empty line follows a final ending.

`Line.join_split` says that nothing is lost.
-/

namespace Folio

/-- What follows the text of a line. -/
inductive LineEnding
  | none
  | lf
  | crlf
  deriving DecidableEq, Repr

/-- The characters of a line ending. -/
def LineEnding.text : LineEnding → Text
  | .none => []
  | .lf => ['\n']
  | .crlf => ['\r', '\n']

@[simp] theorem LineEnding.text_none : LineEnding.none.text = [] := rfl
@[simp] theorem LineEnding.text_lf : LineEnding.lf.text = ['\n'] := rfl
@[simp] theorem LineEnding.text_crlf : LineEnding.crlf.text = ['\r', '\n'] := rfl

/-- A line of a text: the offset of its start, its characters and its ending. -/
structure Line where
  start : Nat
  text : Text
  ending : LineEnding
  deriving DecidableEq, Repr

namespace Line

/-- The offset just past the line's characters. -/
def stop (l : Line) : Nat := l.start + Text.bytes l.text

/-- The offset of the following line. -/
def next (l : Line) : Nat := l.stop + Text.bytes l.ending.text

/-- The line with its ending. -/
def raw (l : Line) : Text := l.text ++ l.ending.text

/-- The text that some lines make up. -/
def join (ls : List Line) : Text := ls.flatMap raw

/-- Divides a text into the characters and the ending of each line. -/
def divide : Text → List (Text × LineEnding)
  | [] => []
  | '\n' :: s => ([], .lf) :: divide s
  | '\r' :: '\n' :: s => ([], .crlf) :: divide s
  | c :: s =>
    match divide s with
    | [] => [([c], .none)]
    | (t, e) :: ls => (c :: t, e) :: ls

/-- Gives lines that follow each other their offsets. -/
def place (start : Nat) : List (Text × LineEnding) → List Line
  | [] => []
  | (text, ending) :: ls =>
    let l : Line := { start, text, ending }
    l :: place l.next ls

/-- The lines of a text. -/
def split (s : Text) : List Line := place 0 (divide s)

theorem join_place (start : Nat) (ls : List (Text × LineEnding)) :
    join (place start ls) = ls.flatMap fun l => l.1 ++ l.2.text := by
  induction ls generalizing start with
  | nil => rfl
  | cons l ls ih =>
    have h := ih (Line.next { start, text := l.1, ending := l.2 })
    simp only [place, join, List.flatMap_cons, raw] at h ⊢
    rw [h]

theorem join_divide (s : Text) : ((divide s).flatMap fun l => l.1 ++ l.2.text) = s := by
  fun_induction divide s with
  | case1 => rfl
  | case2 s ih => simp [ih]
  | case3 s ih => simp [ih]
  | case4 c s _ _ h ih => simpa [h] using ih
  | case5 c s _ _ t e ls h ih => simpa [h] using ih

/-- The lines of a text make up the text. -/
theorem join_split (s : Text) : join (split s) = s := by
  rw [split, join_place, join_divide]

end Line
end Folio
