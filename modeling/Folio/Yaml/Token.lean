import Folio.Yaml.Tag

/-!
# YAML tokens

A text is divided into tokens. Indentation opens and closes block collections, and a colon makes
the token before it a key: so the place of a token that may turn out to be a key is kept until the
line ends, and the tokens of a key are put in there when its colon comes.

* `Scan` is the state of the division: the rest of the text, the position, the open indentations and
  the pending keys;
* `Scan.step` reads one token;
* `Token.readAll` divides a whole text.
-/

namespace Folio.Yaml

/-- A token of a YAML text. -/
inductive Token
  | version (major minor : Nat)
  | handle (name : Text) (expansion : Tag)
  | documentStart
  | documentEnd
  | blockSequence
  | blockMapping
  | blockEnd
  | flowSequence
  | flowSequenceEnd
  | flowMapping
  | flowMappingEnd
  | blockEntry
  | flowEntry
  | key
  | value
  | alias (name : Text)
  | anchor (name : Text)
  | tag (tag : Tag.Written)
  | scalar (text : Text) (plain : Bool)
  deriving DecidableEq, Repr

/-- A token that becomes a key when a colon follows on its line: the number of tokens before it, its
line and column, and the number of bytes before it. In a block mapping that has no other way to go on, it is required. -/
structure PendingKey where
  tokensBefore : Nat
  line : Nat
  column : Nat
  offset : Nat
  required : Bool
  deriving DecidableEq, Repr

/-- The state of the division into tokens; the latest token comes first. The pending key and the
pending keys around it belong to one level of flow collections each. -/
structure Scan where
  rest : Text
  line : Nat := 0
  column : Nat := 0
  offset : Nat := 0
  tokens : List Token := []
  indent : Int := -1
  outerIndents : List Int := []
  keyAllowed : Bool := true
  pending : Option PendingKey := none
  outerPending : List (Option PendingKey) := []
  deriving Repr

namespace Scan

/-- Whether a flow collection is open. -/
def inFlow (s : Scan) : Bool := !s.outerPending.isEmpty

/-- Passes over some characters. -/
def advance : Nat → Scan → Scan
  | 0, s => s
  | n + 1, s =>
    match s.rest with
    | [] => s
    | c :: rest =>
      advance n
        (if isBreak c then
          { s with rest, line := s.line + 1, column := 0, offset := s.offset + c.utf8Size }
        else { s with rest, column := s.column + 1, offset := s.offset + c.utf8Size })

/-- Adds a token. -/
def push (t : Token) (s : Scan) : Scan := { s with tokens := t :: s.tokens }

/-- Puts tokens in after the first `n` ones. -/
def insertAt (n : Nat) (ts : List Token) (s : Scan) : Scan :=
  let later := s.tokens.length - n
  { s with tokens := s.tokens.take later ++ ts.reverse ++ s.tokens.drop later }

/-! ### White space -/

/-- The character that may stand in front of a line to tell how the text is encoded. -/
def byteOrderMark : Char := '\uFEFF'

/-- The number of characters before the next token, and whether a key may stand there. A line's end
allows one outside flow collections; tabs count as white space only where they cannot indent. A byte
order mark is passed over at the start of a line. -/
def gap (flow : Bool) (allowed comment lineStart : Bool) : Text → Nat × Bool
  | [] => (0, allowed)
  | c :: s =>
    let more (r : Nat × Bool) : Nat × Bool := (r.1 + 1, r.2)
    if isBreak c then more (gap flow (allowed || !flow) false true s)
    else if comment then more (gap flow allowed true false s)
    else if c == ' ' || (c == '\t' && (flow || !allowed)) || (c == byteOrderMark && lineStart) then
      more (gap flow allowed false false s)
    else if c == '#' then more (gap flow allowed true false s)
    else (0, allowed)

/-- Passes over white space and comments. -/
def skipGap (s : Scan) : Scan :=
  let (n, allowed) := gap s.inFlow s.keyAllowed false (s.column == 0) s.rest
  { s.advance n with keyAllowed := allowed }

/-! ### Pending keys -/

/-- Whether the colon of a key would come too late: on another line or after too many bytes. -/
def isStale (s : Scan) (k : PendingKey) : Bool := k.line < s.line || k.offset + 1024 < s.offset

/-- Gives up a key that is too late; a required one is an error. -/
def refresh (s : Scan) (k : Option PendingKey) : Option (Option PendingKey) :=
  match k with
  | none => some none
  | some k => if s.isStale k then if k.required then none else some none else some (some k)

/-- Gives up all keys that are too late. -/
def dropStale (s : Scan) : Option Scan := do
  return { s with pending := ← s.refresh s.pending, outerPending := ← s.outerPending.mapM s.refresh }

/-- Gives up the pending key; a required one is an error. -/
def dropKey (s : Scan) : Option Scan :=
  if s.pending.any (·.required) then none else some { s with pending := none }

/-- Keeps the next token as a possible key. -/
def saveKey (s : Scan) : Option Scan :=
  if s.keyAllowed then do
    let s ← s.dropKey
    return { s with
      pending := some {
        tokensBefore := s.tokens.length
        line := s.line
        column := s.column
        offset := s.offset
        required := !s.inFlow && s.indent == s.column } }
  else some s

/-! ### Indentation -/

/-- The collections that end before a column: their number and what is left. -/
def unwind (column : Int) : Int → List Int → Nat × Int × List Int
  | indent, [] => (0, indent, [])
  | indent, outer :: more =>
    if column < indent then
      let (n, left) := unwind column outer more
      (n + 1, left)
    else (0, indent, outer :: more)

/-- Ends the block collections that are indented further than a column. -/
def unroll (column : Int) (s : Scan) : Scan :=
  if s.inFlow then s
  else
    let (n, indent, outerIndents) := unwind column s.indent s.outerIndents
    { s with indent, outerIndents, tokens := List.replicate n .blockEnd ++ s.tokens }

/-- Opens a block collection at a column, with its token after the first `n` ones, unless one is
open there. -/
def roll (column : Nat) (n : Nat) (t : Token) (s : Scan) : Scan :=
  if !s.inFlow && s.indent < column then
    { s.insertAt n [t] with indent := column, outerIndents := s.indent :: s.outerIndents }
  else s

/-- Opens a block collection at the current column; a key or an entry has to be allowed there. -/
def openBlock (t : Token) (s : Scan) : Option Scan :=
  if s.inFlow then some s
  else if s.keyAllowed then some (s.roll s.column s.tokens.length t)
  else none

/-! ### Indicators -/

/-- A token of one character after which a key may or may not stand. -/
def indicator (t : Token) (allowed : Bool) (s : Scan) : Scan :=
  { (s.advance 1).push t with keyAllowed := allowed }

/-- Opens a flow collection. -/
def openFlow (t : Token) (s : Scan) : Option Scan := do
  let s ← s.saveKey
  return { s with pending := none, outerPending := s.pending :: s.outerPending }.indicator t true

/-- Closes a flow collection. -/
def closeFlow (t : Token) (s : Scan) : Option Scan := do
  let s ← s.dropKey
  let s :=
    match s.outerPending with
    | [] => s
    | pending :: outerPending => { s with pending, outerPending }
  return s.indicator t false

/-- The colon of a value: after a pending key, that key's tokens are put in. -/
def readValue (s : Scan) : Option Scan :=
  match s.pending with
  | some k =>
    let s := { s with pending := none }.insertAt k.tokensBefore [.key]
    some ((s.roll k.column k.tokensBefore .blockMapping).indicator .value false)
  | none => (s.openBlock .blockMapping).map fun s => s.indicator .value !s.inFlow

/-! ### Names, tags and directives -/

/-- The characters after which the name of an anchor may end. -/
def endsName (s : Text) : Bool :=
  endsWord s || s.head?.any fun c => ['?', ':', ',', ']', '}', '%', '@', '\x60'].contains c

/-- The name of an anchor or alias after its indicator. -/
def readName (make : Text → Token) (s : Scan) : Option Scan := do
  let s ← s.saveKey
  let name := (s.rest.drop 1).takeWhile isWordChar
  let after := { s.advance (name.length + 1) with keyAllowed := false }
  if name.isEmpty || !endsName after.rest then none
  return after.push (make name)

/-- A tag. -/
def readTag (s : Scan) : Option Scan := do
  let s ← s.saveKey
  let (tag, n) ← Tag.Written.read? s.rest
  let after := { s.advance n with keyAllowed := false }
  if !(endsWord after.rest || (s.inFlow && after.rest.head? == some ',')) then none
  return after.push (.tag tag)

/-- The number at the start of a text, and the rest. -/
def readNumber (s : Text) : Option (Nat × Text) := do
  let digits := s.takeWhile Char.isDigit
  if 9 < digits.length then none
  return (← Text.number? 10 digits, s.drop digits.length)

/-- What a directive says, and the rest of the text after it. -/
def directive? (s : Text) : Option (Token × Text) := do
  let name := s.takeWhile isWordChar
  let rest := s.drop name.length
  if name.isEmpty || !endsWord rest then none
  let rest := rest.dropWhile isBlank
  if name == ['Y', 'A', 'M', 'L'] then
    let (major, rest) ← readNumber rest
    if rest.head? != some '.' then none
    let (minor, rest) ← readNumber (rest.drop 1)
    return (.version major minor, rest)
  else if name == ['T', 'A', 'G'] then
    if rest.head? != some '!' then none
    let handle := Tag.handle rest
    if handle != ['!'] && handle.getLast? != some '!' then none
    let rest := rest.drop handle.length
    if !rest.head?.any isBlank then none
    let rest := rest.dropWhile isBlank
    let (expansion, n) ← Tag.read? true rest
    let rest := rest.drop n
    if n == 0 || !endsWord rest then none
    return (.handle handle expansion.ended, rest)
  else none

/-- A directive line. -/
def readDirective (s : Scan) : Option Scan := do
  let s ← (s.unroll (-1)).dropKey
  let (t, rest) ← directive? (s.rest.drop 1)
  let rest ← BlockScalar.afterHeader? rest
  return { (s.advance (s.rest.length - rest.length)).push t with keyAllowed := false }

/-- A line that starts or ends a document. -/
def readDocumentMark (t : Token) (s : Scan) : Option Scan := do
  let s ← (s.unroll (-1)).dropKey
  return { (s.advance 3).push t with keyAllowed := false }

/-! ### Scalars -/

/-- A block scalar. -/
def readBlockScalar (folded : Bool) (s : Scan) : Option Scan := do
  let s ← s.dropKey
  let (text, n) ← BlockScalar.read folded s.indent (s.rest.drop 1)
  return { (s.advance (n + 1)).push (.scalar text false) with keyAllowed := true }

/-- A quoted scalar. -/
def readQuoted (quote : Char) (s : Scan) : Option Scan := do
  let s ← s.saveKey
  let (text, n) ← Quoted.read quote 0 .empty false (s.rest.drop 1)
  return { (s.advance (n + 1)).push (.scalar text false) with keyAllowed := false }

/-- A plain scalar. -/
def readPlain (s : Scan) : Option Scan := do
  let s ← s.saveKey
  let p ← Plain.read s.inFlow (s.indent + 1).toNat .empty s.column s.rest
  return { (s.advance p.length).push (.scalar p.text true) with keyAllowed := p.lineEnded }

/-- The characters that no plain scalar starts with. -/
def isIndicator (c : Char) : Bool :=
  isBlank c ||
    ['-', '?', ':', ',', '[', ']', '{', '}', '#', '&', '*', '!', '|', '>', '\'', '"', '%', '@',
      '\x60'].contains c

/-- Whether a plain scalar starts with the text `c :: s`. -/
def startsPlain (flow : Bool) (c : Char) (s : Text) : Bool :=
  !isIndicator c || (c == '-' && !s.head?.any isBlank) ||
    (!flow && (c == '?' || c == ':') && !endsWord s)

/-! ### The whole text -/

/-- Reads the token that starts with the text `c :: t`. -/
def readToken (c : Char) (t : Text) (s : Scan) : Option Scan :=
  if s.column == 0 && c == '%' then s.readDirective
  else if s.column == 0 && isMark '-' (c :: t) then s.readDocumentMark .documentStart
  else if s.column == 0 && isMark '.' (c :: t) then s.readDocumentMark .documentEnd
  else if c == '[' then s.openFlow .flowSequence
  else if c == '{' then s.openFlow .flowMapping
  else if c == ']' then s.closeFlow .flowSequenceEnd
  else if c == '}' then s.closeFlow .flowMappingEnd
  else if c == ',' then s.dropKey.map (·.indicator .flowEntry true)
  else if c == '-' && endsWord t then do
    let s ← (← s.openBlock .blockSequence).dropKey
    return s.indicator .blockEntry true
  else if c == '?' && (s.inFlow || endsWord t) then do
    let s ← (← s.openBlock .blockMapping).dropKey
    return s.indicator .key !s.inFlow
  else if c == ':' && (s.inFlow || endsWord t) then s.readValue
  else if c == '*' then s.readName .alias
  else if c == '&' then s.readName .anchor
  else if c == '!' then s.readTag
  else if c == '|' && !s.inFlow then s.readBlockScalar false
  else if c == '>' && !s.inFlow then s.readBlockScalar true
  else if c == '\'' || c == '"' then s.readQuoted c
  else if startsPlain s.inFlow c t then s.readPlain
  else none

/-- The state before the next token, with all block collections ended that do not reach it. -/
def prepare (s : Scan) : Option Scan := do
  let s ← s.skipGap.dropStale
  return s.unroll s.column

/-- All tokens once the text has been read. -/
def finish (s : Scan) : Option (List Token) := do
  let s ← (s.unroll (-1)).dropKey
  return s.tokens.reverse

/-- Reads the remaining tokens, of which there are fewer than `bound`. -/
def run : Nat → Scan → Option (List Token)
  | 0, _ => none
  | bound + 1, s => do
    let s ← s.prepare
    match s.rest with
    | [] => s.finish
    | c :: t => run bound (← s.readToken c t)

end Scan

/-- The tokens of a text. -/
def Token.readAll (s : Text) : Option (List Token) := Scan.run (s.length + 1) { rest := s }

end Folio.Yaml
