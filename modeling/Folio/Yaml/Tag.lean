import Folio.Yaml.Scalar

/-!
# YAML tags

A tag says what kind of value a node is. It is a row of octets, as percent escapes may stand for any
character in UTF-8, also for one that does not exist; a zero octet ends it. Tags of the core schema
are known everywhere, and those with an exclamation mark in front belong to one document only.

* `Tag.read?` reads the characters and escapes of a tag;
* `Tag.Written.read?` reads a tag as it stands before a node: a handle that a document may expand,
  and what follows it.
-/

namespace Folio.Yaml

/-- A tag written out in full. -/
abbrev Tag := List UInt8

/-- The characters of names and handles. -/
def isWordChar (c : Char) : Bool := c.isAlphanum || c == '_' || c == '-'

namespace Tag

/-- The octets of a text. -/
def ofText (s : Text) : Tag := (String.ofList s).toUTF8.toList

/-- The tag without a kind. -/
def unspecific : Tag := ofText ['!']

/-- The octets in front of the kinds of the core schema. -/
def coreStart : Tag := ofText "tag:yaml.org,2002:".toList

/-- A tag of the core schema. -/
def core (kind : String) : Tag := coreStart ++ ofText kind.toList

/-- The octets up to the first one that is zero. -/
def ended (t : Tag) : Tag := t.takeWhile (· != 0)

/-- Whether the octets are the UTF-8 form of a text. -/
def isText (t : Tag) : Bool := (String.fromUTF8? ⟨t.toArray⟩).isSome

/-- Whether there is an exclamation mark in front. -/
def isMarked (t : Tag) : Bool := t.head? == some 0x21

/-- Whether a tag belongs to one document only. Such a tag gives a value a meaning that is not known
here; one that is no text gives none. -/
def isLocal (t : Tag) : Bool := t.isMarked && t.isText

/-! ### Reading -/

/-- The characters of a tag that are written as they are. -/
def isTagChar (verbatim : Bool) (c : Char) : Bool :=
  isWordChar c ||
    [';', '/', '?', ':', '@', '&', '=', '+', '$', '.', '!', '~', '*', '\'', '(', ')'].contains c ||
    (verbatim && [',', '[', ']'].contains c)

/-- The number of octets of a character that starts with a given one. -/
def octetCount? (octet : Nat) : Option Nat :=
  if octet < 0x80 then some 1
  else if octet < 0xC0 then none
  else if octet < 0xE0 then some 2
  else if octet < 0xF0 then some 3
  else if octet < 0xF8 then some 4
  else none

/-- The number of octets that are due after an escaped one, when `due` octets of a character were
still to come. -/
def dueAfter? (due octet : Nat) : Option Nat :=
  if due == 0 then (octetCount? octet).map (· - 1)
  else if 0x80 ≤ octet && octet < 0xC0 then some (due - 1)
  else none

/-- The octets at the start of a text and the number of characters they are written with, after
passing over `skip` characters. An octet is escaped by a percent sign and two digits; `due` octets
of a character are still to come. -/
def readFrom? (verbatim : Bool) : Nat → Nat → Text → Option (Tag × Nat)
  | skip + 1, due, _ :: s => (readFrom? verbatim skip due s).map fun (t, n) => (t, n + 1)
  | 0, due, c :: s =>
    if c == '%' then do
      if s.length < 2 then none
      let octet ← Text.number? 16 (s.take 2)
      let (t, n) ← readFrom? verbatim 2 (← dueAfter? due octet) s
      return (octet.toUInt8 :: t, n + 1)
    else if 0 < due then none
    else if isTagChar verbatim c then
      (readFrom? verbatim 0 0 s).map fun (t, n) => (c.toNat.toUInt8 :: t, n + 1)
    else some ([], 0)
  | _, due, [] => if due == 0 then some ([], 0) else none

/-- The octets at the start of a text and the number of characters they are written with. Only a
verbatim tag may hold commas and brackets. -/
def read? (verbatim : Bool) (s : Text) : Option (Tag × Nat) := readFrom? verbatim 0 0 s

/-- The handle at the start of a text: an exclamation mark, a word, and maybe another mark. -/
def handle (s : Text) : Text :=
  let word := (s.drop 1).takeWhile isWordChar
  '!' :: word ++ (s.drop (word.length + 1)).takeWhile (· == '!') |>.take (word.length + 2)

/-- A tag as it stands before a node: a handle and what follows it. Without a handle the tag is
written out. -/
structure Written where
  handle : Text
  suffix : Tag
  deriving DecidableEq, Repr

/-- A tag at the start of a text, and the number of characters it is written with. A tag may stand
between angle brackets, follow a handle that ends in a mark, or follow a mark. -/
def Written.read? (s : Text) : Option (Written × Nat) :=
  if s[1]? == some '<' then do
    let (suffix, n) ← Tag.read? true (s.drop 2)
    if n == 0 || s[n + 2]? != some '>' then none
    return (⟨[], suffix.ended⟩, n + 3)
  else do
    let start := Tag.handle s
    let (suffix, n) ← Tag.read? false (s.drop start.length)
    if 1 < start.length && start.getLast? == some '!' then
      if n == 0 then none else some (⟨start, suffix.ended⟩, start.length + n)
    else
      let suffix := (ofText (start.drop 1) ++ suffix).ended
      return (if suffix.isEmpty then ⟨[], unspecific⟩ else ⟨['!'], suffix⟩, start.length + n)

end Tag
end Folio.Yaml
