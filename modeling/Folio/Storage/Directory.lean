import Folio.Storage.Address

/-!
# Stores in directories

Every category is a directory below the root of the store, and every document is a file in it. The
operations are those of a store in memory; what else can go wrong with files is an error of its own.
-/

namespace Folio

/-- A directory for documents, and the files that it is a part of. -/
structure DirectoryStore where
  root : Path
  tree : FileTree

namespace DirectoryStore

/-- The path of a category. -/
def categoryPath (s : DirectoryStore) (category : String) : Path := s.root ++ [category]

/-- The path of a document. -/
def path (s : DirectoryStore) (a : Address) : Path := s.root ++ [a.category, a.name]

/-- An error of a file as one of the store: the one that says something about a document does so. -/
def storeError (about : FileError) (e : StoreError) (found : FileError) : StoreError :=
  if found = about then e else .file found

/-- Reads a document. -/
def get (s : DirectoryStore) (a : Address) : Except StoreError Text := do
  a.check
  (s.tree.read (s.path a)).mapError (storeError .notFound (.notFound a))

/-- Overwrites a document that exists. -/
def put (s : DirectoryStore) (a : Address) (text : Text) : Except StoreError DirectoryStore := do
  a.check
  if s.tree.isFile (s.path a) then
    let tree ← (s.tree.write (s.path a) text).mapError StoreError.file
    return { s with tree }
  else throw (.notFound a)

/-- The store with the directory of a category, whether or not a document follows. -/
def openCategory (s : DirectoryStore) (category : String) : Except StoreError DirectoryStore := do
  let tree ← (s.tree.createDirectories (s.categoryPath category)).mapError StoreError.file
  return { s with tree }

/-- Adds a document that does not exist. -/
def create (s : DirectoryStore) (a : Address) (text : Text) : Except StoreError DirectoryStore := do
  a.check
  let s ← s.openCategory a.category
  let tree ← (s.tree.create (s.path a) text).mapError
    (storeError .alreadyExists (.alreadyExists a))
  return { s with tree }

/-- Removes a document. -/
def delete (s : DirectoryStore) (a : Address) : Except StoreError DirectoryStore := do
  a.check
  let tree ← (s.tree.remove (s.path a)).mapError (storeError .notFound (.notFound a))
  return { s with tree }

/-- The names in a category, in order. -/
def names (s : DirectoryStore) (category : String) : Except StoreError (List String) := do
  Address.checkSegment category
  if s.tree.isDirectory (s.categoryPath category) then
    (s.tree.fileNames (s.categoryPath category)).mapError StoreError.file
  else return []

end DirectoryStore
end Folio
