import Folio.Text.Digit

/-!
# Scalars in YAML

A scalar is written plainly, between quotes, or as a block of lines below a header. Lines of plain
and quoted scalars are folded: a single line break between words stands for a space, and of several
the first one is dropped.

* `Plain.read` reads a plain scalar up to the character that ends it;
* `Quoted.read` reads up to the closing quote;
* `BlockScalar.read` reads a header and the lines that are indented below it.
-/

namespace Folio.Yaml

/-! ### Characters -/

/-- The characters that end a line. -/
def isBreak (c : Char) : Bool := c == '\n' || c == '\u2028' || c == '\u2029'

/-- The characters that separate words of a line. -/
def isBlank (c : Char) : Bool := c == ' ' || c == '\t'

/-- Whether a text begins with the end of a word. -/
def endsWord (s : Text) : Bool := s.head?.all fun c => isBlank c || isBreak c

/-- Whether a text begins with three characters of a kind that stand alone. -/
def isMark (c : Char) : Text → Bool
  | a :: b :: d :: s => a == c && b == c && d == c && endsWord s
  | _ => false

/-- Whether a text begins with a line that starts or ends a document. -/
def isDocumentMark (s : Text) : Bool := isMark '-' s || isMark '.' s

/-- The characters that a text may hold. -/
def isAllowed (c : Char) : Bool :=
  let n := c.toNat
  n == 0x09 || n == 0x0A || n == 0x0D || (0x20 ≤ n && n ≤ 0x7E) || n == 0x85 ||
    (0xA0 ≤ n && n ≤ 0xD7FF) || (0xE000 ≤ n && n ≤ 0xFFFD) || 0x10000 ≤ n

/-- The text with line breaks of all usual kinds turned into line feeds. -/
def unifyBreaks : Text → Text
  | '\r' :: '\n' :: s => '\n' :: unifyBreaks s
  | c :: s => (if c == '\r' || c == '\u0085' then '\n' else c) :: unifyBreaks s
  | [] => []

/-- The text to be divided into tokens, with unified line breaks. -/
def prepare? (s : Text) : Option Text :=
  if s.all isAllowed then some (unifyBreaks s) else none

/-! ### Folding -/

/-- What stands between two words of a scalar: blanks, or line breaks. The first break is missing
when it was escaped. -/
inductive Gap
  | blanks (text : Text)
  | breaks (first : Option Char) (more : Text)
  deriving DecidableEq, Repr

namespace Gap

/-- Nothing between two characters. -/
def empty : Gap := .blanks []

/-- Whether there is nothing. -/
def isEmpty : Gap → Bool
  | .blanks s => s.isEmpty
  | .breaks _ _ => false

/-- Whether a line ends in the gap. -/
def hasBreak : Gap → Bool
  | .blanks _ => false
  | .breaks _ _ => true

/-- The gap with one more blank or break; blanks beside a break do not count. -/
def add (c : Char) : Gap → Gap
  | .blanks s => if isBreak c then .breaks (some c) [] else .blanks (s ++ [c])
  | .breaks first more => .breaks first (if isBreak c then more ++ [c] else more)

/-- What the gap stands for. -/
def text : Gap → Text
  | .blanks s => s
  | .breaks (some '\n') [] => [' ']
  | .breaks (some '\n') more => more
  | .breaks first more => first.toList ++ more

end Gap

/-! ### Plain scalars -/

/-- A plain scalar, the number of characters it takes with the gap after it, and whether a line ends
in that gap. -/
structure Plain where
  text : Text
  length : Nat
  lineEnded : Bool
  deriving DecidableEq, Repr

namespace Plain

/-- The characters that structure flow collections. -/
def isFlowIndicator (c : Char) : Bool := [',', '[', ']', '{', '}'].contains c

/-- Whether a plain scalar ends before the text `c :: s`. -/
def endsAt (flow : Bool) (indent : Nat) (gap : Gap) (column : Nat) (c : Char) (s : Text) : Bool :=
  (!gap.isEmpty &&
    ((gap.hasBreak && !flow && column < indent) || c == '#' ||
      (column == 0 && isDocumentMark (c :: s)))) ||
  (c == ':' && endsWord s) || (flow && isFlowIndicator c)

/-- Reads a plain scalar. Outside flow collections its lines are indented by `indent`. -/
def read (flow : Bool) (indent : Nat) : Gap → Nat → Text → Option Plain
  | gap, _, [] => some { text := [], length := 0, lineEnded := gap.hasBreak }
  | gap, column, c :: s =>
    let longer (p : Plain) : Plain := { p with length := p.length + 1 }
    if isBreak c then (read flow indent (gap.add c) 0 s).map longer
    else if isBlank c then
      if gap.hasBreak && column < indent && c == '\t' then none
      else (read flow indent (gap.add c) (column + 1) s).map longer
    else if endsAt flow indent gap column c s then
      some { text := [], length := 0, lineEnded := gap.hasBreak }
    else if flow && c == ':' && s.head?.any (fun d => d == '?' || isFlowIndicator d) then none
    else
      (read flow indent .empty (column + 1) s).map fun p =>
        { longer p with text := gap.text ++ c :: p.text }

end Plain

/-! ### Quoted scalars -/

namespace Quoted

/-- The character of an escape after its backslash, and the number of characters it takes. -/
def escape? : Text → Option (Char × Nat)
  | [] => none
  | c :: s =>
    let coded (digits : Nat) : Option (Char × Nat) := do
      if s.length < digits then none
      let n ← Text.number? 16 (s.take digits)
      if n.isValidChar then some (Char.ofNat n, digits + 1) else none
    match c with
    | '0' => some ('\x00', 1)
    | 'a' => some ('\x07', 1)
    | 'b' => some ('\x08', 1)
    | 't' => some ('\t', 1)
    | '\t' => some ('\t', 1)
    | 'n' => some ('\n', 1)
    | 'v' => some ('\x0b', 1)
    | 'f' => some ('\x0c', 1)
    | 'r' => some ('\r', 1)
    | 'e' => some ('\x1b', 1)
    | ' ' => some (' ', 1)
    | '"' => some ('"', 1)
    | '/' => some ('/', 1)
    | '\\' => some ('\\', 1)
    | 'N' => some ('\u0085', 1)
    | '_' => some ('\u00A0', 1)
    | 'L' => some ('\u2028', 1)
    | 'P' => some ('\u2029', 1)
    | 'x' => coded 2
    | 'u' => coded 4
    | 'U' => coded 8
    | _ => none

/-- Reads a quoted scalar after its opening quote, and gives the number of characters up to the
closing quote and with it. A single quote is written twice inside single quotes; a backslash
escapes inside double quotes. The first `skip` characters are passed over. -/
def read (quote : Char) : Nat → Gap → Bool → Text → Option (Text × Nat)
  | _, _, _, [] => none
  | skip + 1, gap, lineStart, _ :: s =>
    (read quote skip gap lineStart s).map fun (t, n) => (t, n + 1)
  | 0, gap, lineStart, c :: s =>
    let more (before : Text) (r : Option (Text × Nat)) : Option (Text × Nat) :=
      r.map fun (t, n) => (before ++ t, n + 1)
    if isBreak c then more [] (read quote 0 (gap.add c) true s)
    else if isBlank c then more [] (read quote 0 (gap.add c) false s)
    else if lineStart && isDocumentMark (c :: s) then none
    else if c == quote then
      if quote == '\'' && s.head? == some '\'' then
        more (gap.text ++ ['\'']) (read quote 1 .empty false s)
      else some (gap.text, 1)
    else if quote == '"' && c == '\\' then
      if s.head?.any isBreak then more gap.text (read quote 1 (.breaks none []) true s)
      else
        match escape? s with
        | none => none
        | some (d, n) => more (gap.text ++ [d]) (read quote n .empty false s)
    else more (gap.text ++ [c]) (read quote 0 .empty false s)

end Quoted

/-! ### Block scalars -/

/-- What happens to the line breaks at the end of a block: all go, one stays, or all stay. -/
inductive Chomping
  | strip
  | clip
  | keep
  deriving DecidableEq, Repr

/-- A line of a block: only a break, or a text and the break after it, if there is one. -/
inductive BlockLine
  | blank (ending : Char)
  | text (text : Text) (ending : Option Char)
  deriving DecidableEq, Repr

namespace BlockScalar

/-- The chomping that a sign asks for. -/
def chomping? (c : Char) : Option Chomping :=
  if c == '+' then some .keep else if c == '-' then some .strip else none

/-- The indentation that a digit asks for. -/
def indentation? (c : Char) : Option Nat := if c.isDigit then some (c.toNat - '0'.toNat) else none

/-- The sign and the digit of a header, in either order, and the rest of the text. -/
def indicators : Text → Chomping × Option Nat × Text
  | [] => (.clip, none, [])
  | c :: s =>
    match chomping? c with
    | some chomping =>
      match s.head?.bind indentation? with
      | some n => (chomping, some n, s.drop 1)
      | none => (chomping, none, s)
    | none =>
      match indentation? c with
      | some n =>
        match s.head?.bind chomping? with
        | some chomping => (chomping, some n, s.drop 1)
        | none => (.clip, some n, s)
      | none => (.clip, none, c :: s)

/-- The text after the end of a header, which only a comment may follow. -/
def afterHeader? (s : Text) : Option Text :=
  let s := s.dropWhile isBlank
  let s := if s.head? == some '#' then s.dropWhile (!isBreak ·) else s
  match s with
  | [] => some []
  | c :: s => if isBreak c then some s else none

/-- The lines of a text with their endings; the last one has none. -/
def rows : Text → List (Text × Option Char)
  | [] => [([], none)]
  | c :: s =>
    if isBreak c then ([], some c) :: rows s
    else
      match rows s with
      | [] => [([c], none)]
      | (t, ending) :: rs => (c :: t, ending) :: rs

/-- The number of spaces at the start of a line. -/
def spaces (t : Text) : Nat := (t.takeWhile (· == ' ')).length

/-- The widest indentation up to the first line with text; a tab may not take part in it. -/
def detect (widest : Nat) : List (Text × Option Char) → Option Nat
  | [] => some widest
  | (t, ending) :: rs =>
    let n := spaces t
    if t[n]? == some '\t' then none
    else if t.length == n && ending.isSome then detect (max widest n) rs
    else some (max widest n)

/-- The lines that are indented by `indent`, with lines without text between them, and the number
of characters read. -/
def lines (indent : Nat) : List (Text × Option Char) → Option (List BlockLine × Nat)
  | [] => some ([], 0)
  | (t, ending) :: rs =>
    let n := min indent (spaces t)
    match t.drop n, ending with
    | [], none => some ([], n)
    | [], some b => (lines indent rs).map fun (ls, k) => (.blank b :: ls, n + 1 + k)
    | c :: body, _ =>
      if n < indent then if c == '\t' then none else some ([], n)
      else
        (lines indent rs).map fun (ls, k) =>
          (.text (c :: body) ending :: ls, t.length + ending.toList.length + k)

/-- The text of the lines after the break `lead` and the breaks `trail`. In a folded block a break
between two lines that do not start with a blank is folded; `inset` says that the last line starts
with one. -/
def join (folded : Bool) (chomping : Chomping) : Text → Text → Bool → List BlockLine → Text
  | lead, trail, _, [] =>
    (if chomping == .strip then [] else lead) ++ (if chomping == .keep then trail else [])
  | lead, trail, inset, .blank b :: ls => join folded chomping lead (trail ++ [b]) inset ls
  | lead, trail, inset, .text t ending :: ls =>
    let insetNext := t.head?.any isBlank
    let between :=
      if folded && lead == ['\n'] && !inset && !insetNext then
        if trail.isEmpty then [' '] else trail
      else lead ++ trail
    between ++ t ++ join folded chomping ending.toList [] insetNext ls

/-- Reads a block scalar after its indicator, inside a collection that is indented by `outer`; the
number of characters read comes with it. -/
def read (folded : Bool) (outer : Int) (s : Text) : Option (Text × Nat) := do
  let (chomping, asked, rest) := indicators s
  if asked == some 0 then none
  let body ← afterHeader? rest
  let indent ←
    match asked with
    | some n => some (outer.toNat + n)
    | none => (detect 0 (rows body)).map fun n => max n (max (outer + 1).toNat 1)
  let (ls, n) ← lines indent (rows body)
  return (join folded chomping [] [] false ls, s.length - body.length + n)

end BlockScalar
end Folio.Yaml
