import Folio.Text.Basic

/-!
# Blank characters

The characters with the Unicode property `White_Space`, and the removal of blank characters from
the ends of a text.
-/

namespace Folio.Text

/-- The characters that count as white space. -/
def isBlankChar (c : Char) : Bool :=
  let n := c.val
  (0x09 ≤ n && n ≤ 0x0D) || n == 0x20 || n == 0x85 || n == 0xA0 || n == 0x1680 ||
    (0x2000 ≤ n && n ≤ 0x200A) || n == 0x2028 || n == 0x2029 || n == 0x202F || n == 0x205F ||
    n == 0x3000

/-- Whether a text holds nothing but white space. -/
def isBlank (s : Text) : Bool := s.all isBlankChar

/-- The text without white space at its start. -/
def trimStart (s : Text) : Text := s.dropWhile isBlankChar

/-- The text without white space at its end. -/
def trimEnd (s : Text) : Text := trimEndOf isBlankChar s

/-- The text without white space at its ends. -/
def trim (s : Text) : Text := trimEnd (trimStart s)

/-- The words of a text: its longest parts without white space. -/
def words : Text → List Text
  | [] => []
  | c :: s =>
    if isBlankChar c then words s
    else if s.head?.all isBlankChar then [c] :: words s
    else
      match words s with
      | [] => [[c]]
      | w :: ws => (c :: w) :: ws

end Folio.Text
