import Folio.Json.Value

/-!
# Records in JSON

A record is written as an object with its fields under their names, or as an array of its fields in
order. Fields at the end of an array may be missing; an object may have members that are no fields,
but no field twice.
-/

namespace Folio.Json

/-- The value of a field in an object, which may be missing. A field that occurs twice is
refused. -/
def fieldOf? (fields : List (String × Json)) (name : String) : Option (Option Json) :=
  match fields.filter (·.1 == name) with
  | [] => some none
  | [(_, v)] => some (some v)
  | _ => none

/-- The values of the named fields of a record, each of which may be missing. -/
def record? (names : List String) : Json → Option (List (Option Json))
  | object fields => names.mapM (fieldOf? fields)
  | array items =>
    if items.length ≤ names.length then
      some (items.map some ++ List.replicate (names.length - items.length) none)
    else none
  | _ => none

/-- A number below a bound. -/
def natBelow? (bound : Nat) : Json → Option Nat
  | integer n => if 0 ≤ n && n < bound then some n.toNat else none
  | _ => none

/-- A string. -/
def string? : Json → Option String
  | string s => some s
  | _ => none

/-- The value of a field read in some way, or a fallback when it is missing. -/
def fieldOr {α : Type} (fallback : α) (read : Json → Option α) : Option Json → Option α
  | none => some fallback
  | some v => read v

end Folio.Json
