import Folio.Json.Value
import Folio.Text.Digit

/-!
# Reading JSON

A text is divided into tokens, which are then put together with a stack of the arrays and objects
that are open. Nesting is bounded, strings hold no control characters, and an escape may not stand
for half of a surrogate pair.

An integer that fits into 64 bits stays one; any other number is a double, computed from its first
digits that fit into 64 bits and a power of ten.
-/

namespace Folio.Json

/-! ### Numbers -/

/-- The largest significand that digits are collected in. -/
def maxSignificand : Nat := Nat.pow 2 64 - 1

/-- The value of a decimal digit. -/
def digitValue (c : Char) : Nat := c.toNat - '0'.toNat

/-- Adds digits of the integral part; digits that do not fit only raise the exponent. -/
def addIntegral : Nat × Int → Text → Nat × Int
  | acc, [] => acc
  | (n, e), c :: s =>
    let m := 10 * n + digitValue c
    if e == 0 && m ≤ maxSignificand then addIntegral (m, 0) s else addIntegral (n, e + 1) s

/-- Adds digits of the fraction up to the first one that does not fit. -/
def addFraction : Nat × Int → Text → Nat × Int
  | acc, [] => acc
  | (n, e), c :: s =>
    let m := 10 * n + digitValue c
    if m ≤ maxSignificand then addFraction (m, e - 1) s else (n, e)

/-- `10 ^ n` as a double. -/
def power (n : Nat) : Float := Float.ofScientific 1 false n

/-- A significand times a power of ten, when that is finite. Division by more than `10 ^ 308` is
done in steps. -/
def scale (f : Float) (e : Int) : Option Float :=
  if f == 0 then some f
  else if 308 < e then none
  else if 0 ≤ e then
    let r := f * power e.toNat
    if r.isInf then none else some r
  else if -308 ≤ e then some (f / power (-e).toNat)
  else if -616 ≤ e then some (f / power 308 / power (-e - 308).toNat)
  else some 0

/-- The parts of a number as written: its sign, the digits before and after the point, and the
exponent. -/
structure NumberParts where
  negative : Bool
  integral : Text
  fraction : Option Text
  exponent : Option Int

/-- Reads the exponent after its letter. -/
def readExponent (s : Text) : Option Int :=
  let (negative, digits) :=
    match s with
    | '+' :: r => (false, r)
    | '-' :: r => (true, r)
    | _ => (false, s)
  if digits.isEmpty || !digits.all Char.isDigit then none
  else
    let n : Nat := digits.foldl (fun n c => 10 * n + digitValue c) 0
    some (if negative then -n else n)

/-- Divides a number into its parts. The integral part has no leading zero. -/
def NumberParts.read? (s : Text) : Option NumberParts := do
  let (negative, s) :=
    match s with
    | '-' :: r => (true, r)
    | _ => (false, s)
  let integral := s.takeWhile Char.isDigit
  if integral.isEmpty || (integral.head? == some '0' && 1 < integral.length) then none
  let s := s.drop integral.length
  let (fraction, s) ←
    match s with
    | '.' :: r =>
      let digits := r.takeWhile Char.isDigit
      if digits.isEmpty then none else some (some digits, r.drop digits.length)
    | _ => some (none, s)
  match s with
  | [] => return { negative, integral, fraction, exponent := none }
  | c :: r =>
    if c == 'e' || c == 'E' then
      return { negative, integral, fraction, exponent := some (← readExponent r) }
    else none

/-- The value of a number; a double out of range has none. -/
def NumberParts.value? (p : NumberParts) : Option Json := do
  let (n, e) := addIntegral (0, 0) p.integral
  let signed (f : Float) : Json := float (if p.negative then -f else f)
  if p.fraction.isNone && p.exponent.isNone && e == 0 then
    if !p.negative then return integer n
    else if 0 < n && n ≤ Nat.pow 2 63 then return integer (-(n : Int))
    else return signed n.toUInt64.toFloat
  let (n, e) := addFraction (n, e) (p.fraction.getD [])
  let f ← scale n.toUInt64.toFloat (e + p.exponent.getD 0)
  return signed f

/-! ### Strings -/

/-- A piece of a string: a character, or the code unit of an escape. -/
inductive Piece
  | char (c : Char)
  | unit (n : Nat)

/-- The code unit that four digits in base sixteen stand for. -/
def hexUnit? (a b c d : Char) : Option Nat := Text.number? 16 [a, b, c, d]

/-- The character that a letter after a backslash stands for. -/
def shortEscape? (c : Char) : Option Char :=
  match c with
  | '"' => some '"'
  | '\\' => some '\\'
  | '/' => some '/'
  | 'b' => some '\x08'
  | 'f' => some '\x0c'
  | 'n' => some '\n'
  | 'r' => some '\r'
  | 't' => some '\t'
  | _ => none

/-- The pieces of a string's body. -/
def pieces? : Text → Option (List Piece)
  | [] => some []
  | '\\' :: 'u' :: a :: b :: c :: d :: s => do return .unit (← hexUnit? a b c d) :: (← pieces? s)
  | '\\' :: c :: s => do return .char (← shortEscape? c) :: (← pieces? s)
  | c :: s => if c == '\\' || c.toNat < 0x20 then none else (pieces? s).map (.char c :: ·)

/-- Puts surrogate pairs together; a half without its other half is refused. -/
def join? : List Piece → Option Text
  | [] => some []
  | .char c :: ps => (join? ps).map (c :: ·)
  | .unit hi :: .unit lo :: ps =>
    if 0xD800 ≤ hi && hi < 0xDC00 then
      if 0xDC00 ≤ lo && lo < 0xE000 then
        (join? ps).map (Char.ofNat (0x10000 + (hi - 0xD800) * 0x400 + (lo - 0xDC00)) :: ·)
      else none
    else if 0xDC00 ≤ hi && hi < 0xE000 then none
    else (join? (.unit lo :: ps)).map (Char.ofNat hi :: ·)
  | .unit n :: ps =>
    if 0xD800 ≤ n && n < 0xE000 then none else (join? ps).map (Char.ofNat n :: ·)

/-- The characters of a string up to its closing quote. -/
def body? : Text → Option Text
  | [] => none
  | '\\' :: c :: s => (body? s).map ('\\' :: c :: ·)
  | c :: s => if c == '"' then some [] else if c == '\\' then none else (body? s).map (c :: ·)

/-! ### Tokens -/

/-- A token of a JSON text. A string of half surrogate pairs has no text. -/
inductive Token
  | openArray
  | closeArray
  | openObject
  | closeObject
  | comma
  | colon
  | string (text : Option String)
  | scalar (value : Json)

/-- The white space between tokens. -/
def isSpace (c : Char) : Bool := c == ' ' || c == '\n' || c == '\t' || c == '\r'

/-- The characters that numbers are made of. -/
def isNumberChar (c : Char) : Bool :=
  c.isDigit || c == '-' || c == '+' || c == '.' || c == 'e' || c == 'E'

/-- The token at the start of a text, and the number of its characters after the first. A string
without a text and a number out of range are refused, unless the text is read loosely. -/
def Token.read? (loose : Bool) (c : Char) (s : Text) : Option (Token × Nat) :=
  let word (w : Text) (value : Json) : Option (Token × Nat) :=
    if w.isPrefixOf s then some (.scalar value, w.length) else none
  match c with
  | '[' => some (.openArray, 0)
  | ']' => some (.closeArray, 0)
  | '{' => some (.openObject, 0)
  | '}' => some (.closeObject, 0)
  | ',' => some (.comma, 0)
  | ':' => some (.colon, 0)
  | 'n' => word ['u', 'l', 'l'] .null
  | 't' => word ['r', 'u', 'e'] (.bool true)
  | 'f' => word ['a', 'l', 's', 'e'] (.bool false)
  | '"' => do
    let body ← body? s
    let text := (join? (← pieces? body)).map String.ofList
    if text.isNone && !loose then none
    return (.string text, body.length + 1)
  | _ => do
    let number := c :: s.takeWhile isNumberChar
    let value := (← NumberParts.read? number).value?
    if value.isNone && !loose then none
    return (.scalar (value.getD .null), number.length - 1)

/-- The tokens of a text, after passing over some of its characters. -/
def tokens? (loose : Bool) : Nat → Text → Option (List Token)
  | _, [] => some []
  | skip + 1, _ :: s => tokens? loose skip s
  | 0, c :: s =>
    if isSpace c then tokens? loose 0 s
    else
      match Token.read? loose c s with
      | none => none
      | some (t, n) => (tokens? loose n s).map (t :: ·)

/-! ### Values -/

/-- The members of an object. A name may be a string without a text. -/
abbrev Members := List (Option String × Json)

/-- The value of an object. One with a name without a text has none, and null takes its place. -/
def ofMembers (members : Members) : Json :=
  match members.mapM fun (name, v) => name.map (·, v) with
  | some fields => .object fields
  | none => .null

/-- An open array with its items so far, or an open object with its members so far and the name of
the next one; the latest come first. -/
inductive Frame
  | array (items : List Json)
  | object (members : Members) (key : Option String)

/-- What is due next: a value, a member's name, a colon, a comma or an end, or nothing. -/
inductive State
  | value (mayEnd : Bool) (stack : List Frame)
  | key (mayEnd : Bool) (members : Members) (stack : List Frame)
  | colon (members : Members) (key : Option String) (stack : List Frame)
  | after (frame : Frame) (stack : List Frame)
  | done (value : Json)

/-- The state after a complete value. -/
def State.complete (v : Json) : List Frame → State
  | [] => .done v
  | .array items :: stack => .after (.array (v :: items)) stack
  | .object members name :: stack => .after (.object ((name, v) :: members) name) stack

/-- Takes one token; at most `limit` arrays and objects may be open at a time. -/
def State.step (limit : Nat) (state : State) (t : Token) : Option State :=
  match state, t with
  | .value _ stack, .scalar v => some (.complete v stack)
  | .value _ stack, .string text => some (.complete (text.elim .null .string) stack)
  | .value _ stack, .openArray =>
    if stack.length < limit then some (.value true (.array [] :: stack)) else none
  | .value _ stack, .openObject =>
    if stack.length < limit then some (.key true [] stack) else none
  | .value true (.array [] :: stack), .closeArray => some (.complete (.array []) stack)
  | .key _ members stack, .string name => some (.colon members name stack)
  | .key true _ stack, .closeObject => some (.complete (.object []) stack)
  | .colon members name stack, .colon => some (.value false (.object members name :: stack))
  | .after (.array items) stack, .comma => some (.value false (.array items :: stack))
  | .after (.array items) stack, .closeArray => some (.complete (.array items.reverse) stack)
  | .after (.object members _) stack, .comma => some (.key false members stack)
  | .after (.object members _) stack, .closeObject =>
    some (.complete (ofMembers members.reverse) stack)
  | _, _ => none

/-- The value that some tokens form, with at most `limit` arrays and objects open at a time. -/
def ofTokens? (limit : Nat) (ts : List Token) : Option Json := do
  match ← ts.foldlM (State.step limit) (.value false []) with
  | .done v => some v
  | _ => none

/-- The value of a text in which at most `limit` arrays and objects are open at a time. Members of
objects stay in the order in which they are written. -/
def readWithin (limit : Nat) (s : Text) : Option Json := do ofTokens? limit (← tokens? false 0 s)

/-- The value of a text, nested however deep, with null in the place of parts that have no value:
for texts of which only some parts matter. -/
def readLoosely (s : Text) : Option Json := do ofTokens? s.length (← tokens? true 0 s)

/-- The value of a text nested at most 127 deep, with the members of objects in order. -/
def read? (s : Text) : Option Json := (readWithin 127 s).map canonical

end Folio.Json
