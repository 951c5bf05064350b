import Folio.Text.Basic

/-!
# File trees

Directories and files below a root. A path is the list of its parts from the root; it may hold parts
that stand for the same directory or the one above, and every part but the last has to lead to a
directory.

* `FileTree.resolve` follows a path;
* `FileTree.read`, `write`, `create`, `remove`, `createDirectories` and `fileNames` are what
  programs do with files.
-/

namespace Folio

/-- Why a file cannot be used. -/
inductive FileError
  | notFound
  | alreadyExists
  | notDirectory
  | isDirectory
  | refusedName
  deriving DecidableEq, Repr

/-- The error's message. -/
def FileError.message : FileError → String
  | notFound => "No such file or directory (os error 2)"
  | alreadyExists => "File exists (os error 17)"
  | notDirectory => "Not a directory (os error 20)"
  | isDirectory => "Is a directory (os error 21)"
  | refusedName => "File name too long (os error 36)"

/-- The parts of a path, from the root down. -/
abbrev Path := List String

namespace Path

/-- The parts of a text between slashes. -/
def splitAtSlash : Text → List Text
  | [] => [[]]
  | '/' :: s => [] :: splitAtSlash s
  | c :: s =>
    match splitAtSlash s with
    | [] => [[c]]
    | t :: ts => (c :: t) :: ts

/-- The parts of a written path. -/
def ofString (s : String) : Path := (splitAtSlash s.toList).map String.ofList

/-- A written path, taken from a directory: one that starts with a slash stands for itself. -/
def join (directory path : String) : String :=
  if path.startsWith "/" then path
  else if directory.isEmpty || directory.endsWith "/" then directory ++ path
  else directory ++ "/" ++ path

end Path

/-- What a path leads to. -/
inductive FileEntry
  | directory
  | file (text : Text)
  deriving DecidableEq, Repr

/-- The directories and files below a root. Paths are made of the parts that are `expressible`, and
names that are not accepted are refused where they are looked up. -/
structure FileTree where
  entries : List (Path × FileEntry) := []
  expressible : String → Bool := fun _ => true
  accepts : String → Bool := fun _ => true

namespace FileTree

/-- The empty tree in which names have at most 255 bytes, none of which is zero. -/
def limited : FileTree where
  expressible s := !s.toList.contains '\x00'
  accepts s := s.utf8ByteSize ≤ 255

/-- What a path without special parts leads to. The root is a directory. -/
def get? (t : FileTree) (p : Path) : Option FileEntry :=
  if p = [] then some .directory else t.entries.lookup p

/-- Puts an entry at a path without special parts. -/
def set (t : FileTree) (p : Path) (e : FileEntry) : FileTree :=
  { t with entries := (p, e) :: t.entries.filter (·.1 != p) }

/-- Follows the parts of a path from a directory. What it leads to need not exist, but everything
on the way has to. -/
def walk (t : FileTree) : Path → List String → Except FileError Path
  | here, [] => .ok here
  | here, part :: parts =>
    match t.get? here with
    | none => .error .notFound
    | some (.file _) => .error .notDirectory
    | some .directory =>
      if part = "" || part = "." then t.walk here parts
      else if part = ".." then t.walk here.dropLast parts
      else if t.accepts part then t.walk (here ++ [part]) parts
      else .error .refusedName

/-- Follows a path from the root. -/
def resolve (t : FileTree) (p : Path) : Except FileError Path :=
  if p.all t.expressible then t.walk [] p else .error .refusedName

/-- What a path leads to. -/
def find (t : FileTree) (p : Path) : Except FileError FileEntry := do
  match t.get? (← t.resolve p) with
  | some e => return e
  | none => throw .notFound

/-- Whether a path leads to a file. -/
def isFile (t : FileTree) (p : Path) : Bool := t.find p matches .ok (.file _)

/-- Whether a path leads to a directory. -/
def isDirectory (t : FileTree) (p : Path) : Bool := t.find p matches .ok .directory

/-- Whether a path leads to anything. -/
def contains (t : FileTree) (p : Path) : Bool := t.find p matches .ok _

/-- The text of a file. -/
def read (t : FileTree) (p : Path) : Except FileError Text := do
  match ← t.find p with
  | .file text => return text
  | .directory => throw .isDirectory

/-- Writes a file, over one that exists. -/
def write (t : FileTree) (p : Path) (text : Text) : Except FileError FileTree := do
  let p ← t.resolve p
  match t.get? p with
  | some .directory => throw .isDirectory
  | _ => return t.set p (.file text)

/-- Writes a file that does not exist. -/
def create (t : FileTree) (p : Path) (text : Text) : Except FileError FileTree := do
  let p ← t.resolve p
  match t.get? p with
  | some _ => throw .alreadyExists
  | none => return t.set p (.file text)

/-- Removes a file. -/
def remove (t : FileTree) (p : Path) : Except FileError FileTree := do
  let p ← t.resolve p
  match t.get? p with
  | none => throw .notFound
  | some .directory => throw .isDirectory
  | some (.file _) => return { t with entries := t.entries.filter (·.1 != p) }

/-- Follows the parts of a path from a directory, and creates the directories that are missing. -/
def makeDirectories (t : FileTree) : Path → List String → Except FileError FileTree
  | _, [] => .ok t
  | here, part :: parts =>
    if part = "" || part = "." then t.makeDirectories here parts
    else if part = ".." then t.makeDirectories here.dropLast parts
    else if t.accepts part then
      match t.get? (here ++ [part]) with
      | some .directory => t.makeDirectories (here ++ [part]) parts
      | some (.file _) => .error (if parts.isEmpty then .alreadyExists else .notDirectory)
      | none => (t.set (here ++ [part]) .directory).makeDirectories (here ++ [part]) parts
    else .error .refusedName

/-- Creates the directories that a path names. -/
def createDirectories (t : FileTree) (p : Path) : Except FileError FileTree :=
  if p.all t.expressible then t.makeDirectories [] p else .error .refusedName

/-- The names of the files in a directory, in order. -/
def fileNames (t : FileTree) (p : Path) : Except FileError (List String) := do
  let p ← t.resolve p
  let name? (e : Path × FileEntry) : Option String :=
    match e.2 with
    | .file _ => if e.1.dropLast = p then e.1.getLast? else none
    | .directory => none
  return (t.entries.filterMap name?).mergeSort (fun a b => decide (a ≤ b))

/-- A tree of some files with the directories that they need. -/
def ofFiles (files : List (Path × Text)) (t : FileTree) : FileTree :=
  files.foldl
    (fun t (p, text) =>
      match t.createDirectories p.dropLast with
      | .ok t => t.set p (.file text)
      | .error _ => t)
    t

/-- All files. -/
def files (t : FileTree) : List (Path × Text) :=
  t.entries.filterMap fun e =>
    match e.2 with
    | .file text => some (e.1, text)
    | .directory => none

end FileTree
end Folio
