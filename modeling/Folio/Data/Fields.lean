/-!
# Fields

Values under names, in the order of the names and with no name twice: attributes, props, object
members, registered widgets. Names are ordered by their characters' code points.
-/

namespace Folio

/-- Named values. All operations keep the names in strictly increasing order. -/
abbrev Fields (α : Type) := List (String × α)

namespace Fields

variable {α : Type}

/-- Sets the value under a name. -/
def insert (name : String) (value : α) : Fields α → Fields α
  | [] => [(name, value)]
  | (k, v) :: fs =>
    if name < k then (name, value) :: (k, v) :: fs
    else if name = k then (name, value) :: fs
    else (k, v) :: insert name value fs

/-- The value under a name. -/
def get? (name : String) : Fields α → Option α
  | [] => none
  | (k, v) :: fs => if name = k then some v else get? name fs

/-- Whether a name has a value. -/
def contains (name : String) (fs : Fields α) : Bool := (get? name fs).isSome

/-- Removes a name. -/
def erase (name : String) (fs : Fields α) : Fields α := fs.filter fun f => f.1 != name

/-- The names, in increasing order. -/
def names (fs : Fields α) : List String := fs.map Prod.fst

/-- Collects named values that come in any order; of two under one name the later counts. -/
def ofList (fs : List (String × α)) : Fields α :=
  fs.foldl (fun acc f => insert f.1 f.2 acc) []

end Fields
end Folio
