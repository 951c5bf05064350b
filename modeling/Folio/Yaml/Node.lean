import Folio.Yaml.Token

/-!
# YAML nodes

Tokens are put together to nodes: scalars, sequences, mappings, and aliases of nodes with an anchor.
The name of an anchor stands for a number, and an alias for the last node of the document with its
number. A name that is given again gets a new number, which the next new name gets as well: so an
alias may mean a node that was given another name after it.

* `Node.ofTokens?` is the single document of a text, when the tokens form one;
* `Node.anchored` are the nodes with an anchor under their numbers.
-/

namespace Folio.Yaml

/-- What stands before a node: the number of its anchor and its tag, written out in full. -/
structure Properties where
  anchor : Option Nat := none
  tag : Option Tag := none
  deriving DecidableEq, Repr

/-- A node of a YAML document. -/
inductive Node
  | scalar (properties : Properties) (text : Text) (plain : Bool)
  | sequence (properties : Properties) (items : List Node)
  | mapping (properties : Properties) (entries : List (Node × Node))
  | alias (anchor : Nat)
  deriving Repr, Inhabited

namespace Node

/-- A missing value. -/
def missing : Node := .scalar {} [] true

/-! ### Anchors -/

/-- A node under the number of its anchor, if it has one. -/
def underAnchor (p : Properties) (n : Node) : List (Nat × Node) := (p.anchor.map (·, n)).toList

mutual

/-- The nodes with an anchor under their numbers, in the order in which they start. -/
def anchored : Node → List (Nat × Node)
  | .scalar p text plain => underAnchor p (.scalar p text plain)
  | .sequence p items => underAnchor p (.sequence p items) ++ anchoredInItems items
  | .mapping p entries => underAnchor p (.mapping p entries) ++ anchoredInEntries entries
  | .alias _ => []

/-- The nodes with an anchor in some items. -/
def anchoredInItems : List Node → List (Nat × Node)
  | [] => []
  | n :: ns => anchored n ++ anchoredInItems ns

/-- The nodes with an anchor in some entries. -/
def anchoredInEntries : List (Node × Node) → List (Nat × Node)
  | [] => []
  | (k, v) :: es => anchored k ++ anchored v ++ anchoredInEntries es

end

/-- The names of anchors with their numbers, each name once. -/
abbrev Anchors := List (Text × Nat)

/-- Gives a name a number: that of the names known before, also if it was one of them. -/
def Anchors.give (name : Text) (a : Anchors) : Anchors :=
  (name, a.length) :: a.filter (·.1 != name)

/-! ### Reading -/

/-- What the rest of a document is read with: the tokens to come, the names of the anchors so far,
and the expansions of tag handles. -/
structure Source where
  tokens : List Token
  anchors : Anchors := []
  handles : List (Text × Tag) := []
  deriving Repr

/-- A step of reading, which may fail. -/
abbrev Reading := StateT Source Option

/-- The next token. -/
def peek : Reading (Option Token) := do return (← get).tokens.head?

/-- Passes over the next token. -/
def skip : Reading Unit := modify fun s => { s with tokens := s.tokens.drop 1 }

/-- Passes over the next token if it is the given one. -/
def accept (t : Token) : Reading Bool := do
  if (← peek) == some t then
    skip
    return true
  else return false

/-- Whether the next token is one of some tokens. -/
def nextIn (ts : List Token) : Reading Bool := do return (← peek).any ts.contains

/-- The handles that need no directive. -/
def standardHandles : List (Text × Tag) :=
  [(['!'], Tag.ofText ['!']), (['!', '!'], Tag.coreStart)]

/-- A tag written out in full. -/
def expand (tag : Tag.Written) : Reading Tag := do
  if tag.handle.isEmpty then return tag.suffix
  let expansion ← ((← get).handles ++ standardHandles).lookup tag.handle
  return expansion ++ tag.suffix

/-- The number of an anchor, if one is next. -/
def anchor? : Reading (Option Nat) := do
  match ← peek with
  | some (.anchor name) =>
    skip
    modify fun s => { s with anchors := s.anchors.give name }
    return (← get).anchors.lookup name
  | _ => return none

/-- A tag, if one is next. -/
def tag? : Reading (Option Tag) := do
  match ← peek with
  | some (.tag tag) =>
    skip
    return some (← expand tag)
  | _ => return none

/-- The anchor and the tag of a node, in either order. -/
def readProperties : Reading Properties := do
  match ← anchor? with
  | some anchor => return { anchor := some anchor, tag := ← tag? }
  | none =>
    let tag ← tag?
    return { anchor := ← anchor?, tag }

/-- The alias of a name that an anchor gave before. -/
def resolve (name : Text) : Reading Node := do
  let anchor ← (← get).anchors.lookup name
  return .alias anchor

mutual

/-- A node. Where `block` holds it may be a block collection, and where `indentless` holds also a
block sequence that is not indented. -/
def read (block indentless : Bool) : Nat → Reading Node
  | 0 => failure
  | bound + 1 => do
    if let some (.alias name) := ← peek then
      skip
      return ← resolve name
    let p ← readProperties
    match ← peek with
    | some (.scalar text plain) =>
      skip
      return .scalar p text plain
    | some .flowSequence =>
      skip
      return .sequence p (← readFlowItems true bound)
    | some .flowMapping =>
      skip
      return .mapping p (← readFlowEntries true bound)
    | next =>
      if indentless && next == some .blockEntry then
        return .sequence p (← readIndentlessItems bound)
      else if block && next == some .blockSequence then
        skip
        return .sequence p (← readBlockItems bound)
      else if block && next == some .blockMapping then
        skip
        return .mapping p (← readBlockEntries bound)
      else if p.anchor.isSome || p.tag.isSome then return .scalar p [] true
      else failure

/-- A node of a block collection, or a missing one before certain tokens. -/
def readUnless (stops : List Token) (indentless : Bool) : Nat → Reading Node
  | 0 => failure
  | bound + 1 => do
    if ← nextIn stops then return missing
    read true indentless bound

/-- A node of a flow collection, or a missing one before certain tokens. -/
def readFlowUnless (stops : List Token) : Nat → Reading Node
  | 0 => failure
  | bound + 1 => do
    if ← nextIn stops then return missing
    read false false bound

/-- The items of a block sequence up to its end. -/
def readBlockItems : Nat → Reading (List Node)
  | 0 => failure
  | bound + 1 => do
    if ← accept .blockEntry then
      let item ← readUnless [.blockEntry, .blockEnd] false bound
      return item :: (← readBlockItems bound)
    else if ← accept .blockEnd then return []
    else failure

/-- The items of a block sequence that is not indented. -/
def readIndentlessItems : Nat → Reading (List Node)
  | 0 => failure
  | bound + 1 => do
    if ← accept .blockEntry then
      let item ← readUnless [.blockEntry, .key, .value, .blockEnd] false bound
      return item :: (← readIndentlessItems bound)
    else return []

/-- The entries of a block mapping up to its end. -/
def readBlockEntries : Nat → Reading (List (Node × Node))
  | 0 => failure
  | bound + 1 => do
    if ← accept .key then
      let key ← readUnless [.key, .value, .blockEnd] true bound
      let value ←
        if ← accept .value then readUnless [.key, .value, .blockEnd] true bound
        else pure missing
      return (key, value) :: (← readBlockEntries bound)
    else if ← accept .blockEnd then return []
    else failure

/-- The items of a flow sequence up to its end. A key among them makes a mapping of one entry. -/
def readFlowItems (first : Bool) : Nat → Reading (List Node)
  | 0 => failure
  | bound + 1 => do
    if ← accept .flowSequenceEnd then return []
    if !first then
      if !(← accept .flowEntry) then failure
    if ← accept .key then
      let item ← readPair bound
      return item :: (← readFlowItems false bound)
    else if ← accept .flowSequenceEnd then return []
    else
      let item ← read false false bound
      return item :: (← readFlowItems false bound)

/-- A mapping of one entry inside a flow sequence. After a missing key one token is passed over. -/
def readPair : Nat → Reading Node
  | 0 => failure
  | bound + 1 => do
    let key ←
      if ← nextIn [.value, .flowEntry, .flowSequenceEnd] then do
        skip
        pure missing
      else read false false bound
    let value ←
      if ← accept .value then readFlowUnless [.flowEntry, .flowSequenceEnd] bound
      else pure missing
    return .mapping {} [(key, value)]

/-- The entries of a flow mapping up to its end. -/
def readFlowEntries (first : Bool) : Nat → Reading (List (Node × Node))
  | 0 => failure
  | bound + 1 => do
    if ← accept .flowMappingEnd then return []
    if !first then
      if !(← accept .flowEntry) then failure
    if ← accept .key then
      let key ← readFlowUnless [.value, .flowEntry, .flowMappingEnd] bound
      let value ←
        if ← accept .value then readFlowUnless [.flowEntry, .flowMappingEnd] bound
        else pure missing
      return (key, value) :: (← readFlowEntries false bound)
    else if ← accept .flowMappingEnd then return []
    else
      let key ← read false false bound
      return (key, missing) :: (← readFlowEntries false bound)

end

/-- Reads the directives before a document. There is one version at most, and it is known; no handle
is given twice. -/
def readDirectives (versioned : Bool) : List Token → Reading Unit
  | .version major minor :: ts => do
    if versioned || major != 1 || (minor != 1 && minor != 2) then failure
    skip
    readDirectives true ts
  | .handle name expansion :: ts => do
    if (← get).handles.any (·.1 == name) then failure
    skip
    modify fun s => { s with handles := s.handles ++ [(name, expansion)] }
    readDirectives versioned ts
  | _ => return

/-- Passes over the ends of a document. -/
def skipEnds : Reading Unit :=
  modify fun s => { s with tokens := s.tokens.dropWhile (· == .documentEnd) }

/-- The content of a document whose start is written. -/
def readContent (bound : Nat) : Reading Node := do
  match ← peek with
  | none => return missing
  | some (.version _ _) => return missing
  | some (.handle _ _) => return missing
  | some .documentStart => return missing
  | some .documentEnd => return missing
  | _ => read true false bound

/-- The single document of a text. A text without any tokens is a missing value. -/
def readDocument (bound : Nat) : Reading Node := do
  let starts := fun
    | Token.version _ _ => true
    | .handle _ _ => true
    | .documentStart => true
    | _ => false
  match ← peek with
  | none => return missing
  | some t =>
    let node ←
      if starts t then do
        readDirectives false (← get).tokens
        if !(← accept .documentStart) then failure
        readContent bound
      else read true false bound
    skipEnds
    if (← get).tokens.isEmpty then return node else failure

/-- The document that some tokens form. -/
def ofTokens? (ts : List Token) : Option Node :=
  ((readDocument (4 * ts.length + 4)).run { tokens := ts }).map Prod.fst

end Node
end Folio.Yaml
