import Folio.Json.Value
import Folio.Yaml.Node

/-!
# Values of YAML documents

Plain scalars stand for null, booleans and numbers when they are written like them; all other
scalars are strings. A tag of the core schema asks for one of these kinds. The names of a mapping
are the texts of scalars.

* `Node.value?` is the value of a node;
* `Yaml.read?` is the value of a text.
-/

namespace Folio.Yaml

/-! ### Numbers -/

/-- Whether a text is a number with superfluous zeros in front, which is no number. -/
def isZeroPadded (s : Text) : Bool :=
  let digits := if s.head?.any (fun c => c == '-' || c == '+') then s.drop 1 else s
  1 < digits.length && digits.head? == some '0' && digits.all Char.isDigit

/-- The prefixes of numbers in other bases. -/
def bases : List (Text × Nat) := [(['0', 'x'], 16), (['0', 'o'], 8), (['0', 'b'], 2)]

/-- The magnitude of an integer without its sign; `padded` says that it is padded with zeros. -/
def magnitude? (padded : Bool) (s : Text) : Option Nat :=
  let based := bases.findSome? fun (start, base) =>
    if Text.startsWith s start then Text.number? base (s.drop start.length) else none
  match based with
  | some n => some n
  | none => if padded then none else Text.number? 10 s

/-- The integer that a text stands for. -/
def integer? (s : Text) : Option Int :=
  match s with
  | '-' :: digits => (magnitude? (isZeroPadded s) digits).map fun n => -(n : Int)
  | '+' :: digits => (magnitude? (isZeroPadded s) digits).map fun n => (n : Int)
  | _ => (magnitude? (isZeroPadded s) s).map fun n => (n : Int)

/-- Whether a value may hold an integer: it fits into 64 bits. -/
def isStorable (n : Int) : Bool := -Int.pow 2 63 ≤ n && n < Int.pow 2 64

/-- Whether an integer is recognised as one, if only to be refused: it fits into 128 bits. -/
def isInteger (n : Int) : Bool := -Int.pow 2 127 ≤ n && n < Int.pow 2 128

/-- The exponent of a floating-point number after its letter. -/
def exponent? (s : Text) : Option Int :=
  match s with
  | '-' :: digits => (Text.number? 10 digits).map fun n => -(n : Int)
  | '+' :: digits => (Text.number? 10 digits).map fun n => (n : Int)
  | _ => (Text.number? 10 s).map fun n => (n : Int)

/-- The decimal that a floating-point number without its sign stands for. There is a digit before
or after the point. -/
def decimal? (s : Text) : Option Decimal := do
  let whole := s.takeWhile Char.isDigit
  let s := s.drop whole.length
  let fraction := if s.head? == some '.' then (s.drop 1).takeWhile Char.isDigit else []
  let s := if s.head? == some '.' then s.drop (fraction.length + 1) else s
  let digits ← Text.number? 10 (whole ++ fraction)
  let exponent ←
    match s with
    | [] => some 0
    | c :: s => if c == 'e' || c == 'E' then exponent? s else none
  return { digits, exponent := exponent - fraction.length }

/-- The finite double that a text stands for. -/
def finite? (s : Text) : Option Float := do
  let (negative, s) :=
    match s with
    | '-' :: s => (true, s)
    | '+' :: s => (false, s)
    | _ => (false, s)
  let f := (← decimal? s).nearest
  if f.isInf then none else some (if negative then -f else f)

/-- The words for infinity and for no number. No value holds these, and null takes their place. -/
def isNonFinite (s : Text) : Bool :=
  let words := [".inf", ".Inf", ".INF"].flatMap fun w => [w, "+" ++ w, "-" ++ w]
  (words ++ [".nan", ".NaN", ".NAN"]).contains (String.ofList s)

/-- The value of a floating-point number. -/
def float? (s : Text) : Option Json :=
  if isNonFinite s then some .null else (finite? s).map .float

/-! ### Scalars -/

/-- The words for null. -/
def isNull (s : Text) : Bool := ["null", "Null", "NULL", "~"].contains (String.ofList s)

/-- The boolean that a text stands for. -/
def bool? (s : Text) : Option Bool :=
  if ["true", "True", "TRUE"].contains (String.ofList s) then some true
  else if ["false", "False", "FALSE"].contains (String.ofList s) then some false
  else none

/-- The value of an integer, if a value can hold it. -/
def stored? (n : Int) : Option Json := if isStorable n then some (.integer n) else none

/-- The value of a plain scalar without a tag. -/
def plainValue? (s : Text) : Option Json :=
  if s.isEmpty || isNull s then some .null
  else
    match bool? s, (integer? s).filter isInteger with
    | some b, _ => some (.bool b)
    | none, some n => stored? n
    | none, none =>
      match if isZeroPadded s then none else float? s with
      | some v => some v
      | none => some (.string (String.ofList s))

/-- The value of a scalar. A tag that is marked as local but is no text does not hide what is written
plainly. -/
def scalarValue? (tag : Option Tag) (s : Text) (plain : Bool) : Option Json :=
  match tag with
  | none => if plain then plainValue? s else some (.string (String.ofList s))
  | some t =>
    if t.isLocal then none
    else if t == Tag.core "bool" then (bool? s).map .bool
    else if t == Tag.core "int" then (integer? s).bind stored?
    else if t == Tag.core "float" then float? s
    else if t == Tag.core "null" then if isNull s then some .null else none
    else if t.isMarked && plain then plainValue? s
    else some (.string (String.ofList s))

namespace Node

mutual

/-- The number of events a node consists of: one for a scalar or an alias, and the two ends of a
collection. -/
def events : Node → Nat
  | .scalar _ _ _ => 1
  | .alias _ => 1
  | .sequence _ items => 2 + eventsOfItems items
  | .mapping _ entries => 2 + eventsOfEntries entries

/-- The number of events in some items. -/
def eventsOfItems : List Node → Nat
  | [] => 0
  | n :: ns => events n + eventsOfItems ns

/-- The number of events in some entries. -/
def eventsOfEntries : List (Node × Node) → Nat
  | [] => 0
  | (k, v) :: es => events k + events v + eventsOfEntries es

end

/-- Counts down how many aliases may still be followed. -/
def follow : StateT Nat Option Unit := fun left =>
  match left with
  | 0 => none
  | n + 1 => some ((), n)

/-- The node that a node stands for, with the nodes under their anchors. -/
def target (anchors : List (Nat × Node)) : Node → StateT Nat Option Node
  | .alias anchor => do
    follow
    anchors.lookup anchor
  | n => return n

/-- The name that a node stands for. -/
def name (anchors : List (Nat × Node)) (n : Node) : StateT Nat Option String := do
  match ← target anchors n with
  | .scalar _ s _ => return String.ofList s
  | _ => failure

/-- Whether a collection has a value: not with a tag of its document. -/
def hasValue (p : Properties) : Bool := !p.tag.any Tag.isLocal

/-- The value of a node in which collections are nested at most `depth` deep. -/
def value (anchors : List (Nat × Node)) (depth : Nat) (n : Node) : StateT Nat Option Json := do
  match ← target anchors n, depth with
  | .scalar p s plain, _ => scalarValue? p.tag s plain
  | .sequence p items, depth + 1 =>
    if !hasValue p then failure
    return .array (← items.mapM (value anchors depth))
  | .mapping p entries, depth + 1 =>
    if !hasValue p then failure
    let fields ← entries.mapM fun (k, v) => return (← name anchors k, ← value anchors depth v)
    return .object (Fields.ofList fields)
  | _, _ => failure

/-- The value of a document nested at most 128 deep. On average each of its events may lead to a
hundred aliases. -/
def value? (n : Node) : Option Json :=
  ((value n.anchored.reverse 128 n).run (100 * n.events)).map Prod.fst

end Node

/-- The value of a YAML text. -/
def read? (s : Text) : Option Json := do
  let s ← prepare? s
  (← Node.ofTokens? (← Token.readAll s)).value?

end Folio.Yaml
