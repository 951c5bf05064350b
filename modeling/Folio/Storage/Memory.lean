import Folio.Storage.Address

/-!
# Stores in memory

Documents under their addresses. `get` reads a document, `put` overwrites one that exists, `create`
adds one that does not, `delete` removes one, and `names` lists a category.
-/

namespace Folio

/-- Documents under their addresses; no address occurs twice. -/
structure MemoryStore where
  documents : List (Address × Text) := []
  deriving DecidableEq, Repr

namespace MemoryStore

/-- The document at an address, whatever the address. -/
def find? (s : MemoryStore) (a : Address) : Option Text := s.documents.lookup a

/-- Puts a document at an address, whatever the address. -/
def set (s : MemoryStore) (a : Address) (text : Text) : MemoryStore :=
  { documents := (a, text) :: s.documents.filter (·.1 != a) }

/-- Reads a document. -/
def get (s : MemoryStore) (a : Address) : Except StoreError Text := do
  a.check
  match s.find? a with
  | some text => return text
  | none => throw (.notFound a)

/-- Overwrites a document that exists. -/
def put (s : MemoryStore) (a : Address) (text : Text) : Except StoreError MemoryStore := do
  a.check
  match s.find? a with
  | some _ => return s.set a text
  | none => throw (.notFound a)

/-- Adds a document that does not exist. -/
def create (s : MemoryStore) (a : Address) (text : Text) : Except StoreError MemoryStore := do
  a.check
  match s.find? a with
  | some _ => throw (.alreadyExists a)
  | none => return s.set a text

/-- Removes a document. -/
def delete (s : MemoryStore) (a : Address) : Except StoreError MemoryStore := do
  a.check
  match s.find? a with
  | some _ => return { documents := s.documents.filter (·.1 != a) }
  | none => throw (.notFound a)

/-- The names in a category, in order. -/
def names (s : MemoryStore) (category : String) : Except StoreError (List String) := do
  Address.checkSegment category
  let found := s.documents.filter (·.1.category == category)
  return (found.map (·.1.name)).mergeSort (fun a b => decide (a ≤ b))

end MemoryStore
end Folio
