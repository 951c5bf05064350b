import Folio.Data.Decimal
import Folio.Data.Fields

/-!
# JSON values

The values that expressions, metadata and configuration are made of. A number is an integer or a
double; the two are kept apart, so that `1` and `1.0` are written differently.
-/

namespace Folio

/-- A JSON value. -/
inductive Json
  | null
  | bool (value : Bool)
  | integer (value : Int)
  | float (value : Float)
  | string (value : String)
  | array (items : List Json)
  | object (fields : List (String × Json))
  deriving Repr, Inhabited

namespace Json

mutual

/-- The value with the members of every object in the order of their names; of two members of one
name the later counts. -/
def canonical : Json → Json
  | array items => array (canonicalItems items)
  | object fields => object (Fields.ofList (canonicalFields fields))
  | v => v

/-- `canonical` for the items of an array. -/
def canonicalItems : List Json → List Json
  | [] => []
  | v :: vs => canonical v :: canonicalItems vs

/-- `canonical` for the members of an object. -/
def canonicalFields : List (String × Json) → List (String × Json)
  | [] => []
  | (k, v) :: fs => (k, canonical v) :: canonicalFields fs

end

end Json
end Folio
