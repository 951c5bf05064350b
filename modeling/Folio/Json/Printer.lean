import Folio.Json.Value

/-!
# Writing JSON

`Json.compact` writes a value without white space; `Json.pretty` writes each item on a line of its
own, indented by two spaces. Characters past ASCII are written as they are.

A double below `10 ^ 16` and from `10 ^ -5` is written positionally, and an integral one keeps one
zero after its point; any other has a signed exponent.
-/

namespace Folio.Json

/-- The digits of a number below 256 in base sixteen. -/
def hexByte (n : Nat) : List Char :=
  let digit (d : Nat) : Char := "0123456789abcdef".toList.getD d '0'
  [digit (n / 16), digit (n % 16)]

/-- A character as it stands in a string. -/
def escapeChar (c : Char) : List Char :=
  if c == '"' then ['\\', '"']
  else if c == '\\' then ['\\', '\\']
  else if c == '\n' then ['\\', 'n']
  else if c == '\r' then ['\\', 'r']
  else if c == '\t' then ['\\', 't']
  else if c.toNat == 0x08 then ['\\', 'b']
  else if c.toNat == 0x0C then ['\\', 'f']
  else if c.toNat < 0x20 then ['\\', 'u', '0', '0'] ++ hexByte c.toNat
  else [c]

/-- A string with its quotes. -/
def quote (s : String) : String :=
  String.ofList ('"' :: (s.toList.flatMap escapeChar ++ ['"']))

/-- A finite double. -/
def floatText (x : Float) : String :=
  let sign := if x.toBits >>> 63 == 1 then "-" else ""
  let value := Decimal.Binary.ofBits x.toBits
  if value.mantissa == 0 then sign ++ "0.0"
  else
    let d := Decimal.shortest value
    let p := d.point
    if p ≤ 16 && 0 ≤ d.exponent then sign ++ d.plain ++ ".0"
    else if -5 < p && p ≤ 16 then sign ++ d.plain
    else sign ++ d.scientific

mutual

/-- A value without white space. -/
def compact : Json → String
  | null => "null"
  | bool true => "true"
  | bool false => "false"
  | integer n => toString n
  | float x => floatText x
  | string s => quote s
  | array items => "[" ++ ",".intercalate (compactItems items) ++ "]"
  | object fields => "\x7b" ++ ",".intercalate (compactFields fields) ++ "\x7d"

/-- The items of an array. -/
def compactItems : List Json → List String
  | [] => []
  | v :: vs => compact v :: compactItems vs

/-- The members of an object. -/
def compactFields : List (String × Json) → List String
  | [] => []
  | (k, v) :: fs => (quote k ++ ":" ++ compact v) :: compactFields fs

end

/-- The start of a line at a depth of nesting. -/
def newline (depth : Nat) : String := "\n" ++ String.ofList (List.replicate (2 * depth) ' ')

mutual

/-- A value that starts at a depth of nesting, over several lines. -/
def prettyAt (depth : Nat) : Json → String
  | array [] => "[]"
  | object [] => "\x7b\x7d"
  | array items =>
    "[" ++ ",".intercalate (prettyItems (depth + 1) items) ++ newline depth ++ "]"
  | object fields =>
    "\x7b" ++ ",".intercalate (prettyFields (depth + 1) fields) ++ newline depth ++ "\x7d"
  | null => "null"
  | bool true => "true"
  | bool false => "false"
  | integer n => toString n
  | float x => floatText x
  | string s => quote s

/-- The items of an array, each on its line. -/
def prettyItems (depth : Nat) : List Json → List String
  | [] => []
  | v :: vs => (newline depth ++ prettyAt depth v) :: prettyItems depth vs

/-- The members of an object, each on its line. -/
def prettyFields (depth : Nat) : List (String × Json) → List String
  | [] => []
  | (k, v) :: fs => (newline depth ++ quote k ++ ": " ++ prettyAt depth v) :: prettyFields depth fs

end

/-- A value over several lines. -/
def pretty (v : Json) : String := prettyAt 0 v

end Folio.Json
