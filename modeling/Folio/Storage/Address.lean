import Folio.Storage.FileTree

/-!
# Addresses of documents

A store keeps documents under a category and a name. Neither may be empty or start with a dot, nor
hold a separator of paths, so that an address never leads out of the store.
-/

namespace Folio

/-- Where a document is kept. -/
structure Address where
  category : String
  name : String
  deriving DecidableEq, Repr

/-- Why a store refuses a request. -/
inductive StoreError
  | notFound (address : Address)
  | alreadyExists (address : Address)
  | invalidName (segment : String)
  | file (error : FileError)
  deriving DecidableEq, Repr

namespace Address

/-- The form `category/name`. -/
def toString (a : Address) : String := s!"{a.category}/{a.name}"

/-- Whether a text may be a category or a name. -/
def isValidSegment (s : String) : Bool :=
  let cs := s.toList
  !cs.isEmpty && cs.head? != some '.' && !cs.contains '/' && !cs.contains '\\'

/-- Refuses a text that may not be a category or a name. -/
def checkSegment (s : String) : Except StoreError Unit :=
  if isValidSegment s then .ok () else .error (.invalidName s)

/-- Refuses an address whose parts are not allowed, its category first. -/
def check (a : Address) : Except StoreError Unit := do
  checkSegment a.category
  checkSegment a.name

end Address

/-- The error's message. -/
def StoreError.message : StoreError → String
  | notFound a => s!"{a.toString} does not exist"
  | alreadyExists a => s!"{a.toString} already exists"
  | invalidName segment => s!"Invalid content name '{segment}'"
  | file e => s!"IO error: {e.message}"

end Folio
