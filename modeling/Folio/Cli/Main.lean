import Folio.Cli.Run

/-!
# The program

Reads the files that a subcommand uses, runs it, and writes the files that it has changed. A document
that is watched is looked at ten times a second.
-/

namespace Folio.Cli

/-- What a path leads to on the disk, if it can be read. -/
def entryAt? (path : String) : IO (Option FileEntry) := do
  try return some (.file (← IO.FS.readFile path).toList)
  catch
    | .inappropriateType .. => return some .directory
    | _ => return none

/-- Adds what lies on the way of a path to a tree. -/
def loadPath (tree : FileTree) : Path → List String → IO FileTree
  | _, [] => return tree
  | here, part :: parts =>
    if part = "" || part = "." then loadPath tree here parts
    else if part = ".." then loadPath tree here.dropLast parts
    else do
      let p := here ++ [part]
      match ← entryAt? ("/" ++ "/".intercalate p) with
      | none => return tree
      | some e => loadPath (tree.set p e) p parts

/-- The tree of some paths. -/
def loadPaths (paths : List String) : IO FileTree :=
  paths.foldlM (fun tree p => loadPath tree [] (Path.ofString p)) .limited

/-- Writes the files of a tree that another one does not have. -/
def storeChanges (before after : FileTree) : IO Unit :=
  for (p, text) in after.files do
    if before.get? p != some (.file text) then
      IO.FS.createDirAll ("/" ++ "/".intercalate p.dropLast)
      IO.FS.writeFile ("/" ++ "/".intercalate p) (String.ofList text)

/-- Runs a task with the files of some paths. -/
def runTask {α : Type} (paths : List String) (task : Task α) : IO (Except Failed α) := do
  let before ← loadPaths paths
  let (result, console) := StateT.run (ExceptT.run task) { tree := before }
  storeChanges before console.tree
  IO.print console.stdout
  IO.eprint console.stderr
  return result

/-- Compiles a document whenever its text has changed, and tells what comes of it. -/
partial def watchLoop (w : Watch) (text : Text) (s : Scheduler) (shown : Nat) : IO Unit := do
  let s := s.advance (Folio.compile formats .builtins) (fun _ => false) 100
  if s.artifact.generation != shown then
    let _ ← runTask w.out.toList (w.report s.artifact)
  IO.sleep 100
  match ← entryAt? w.path with
  | some (.file next) =>
    watchLoop w next (if next = text then s else s.notify next) s.artifact.generation
  | _ => watchLoop w text s s.artifact.generation

/-- Watches a document. -/
def watch (w : Watch) : IO Unit := do
  IO.println "👀 Scribe watch"
  IO.println s!"   Watching: {w.path}"
  if let some out := w.out then IO.println s!"   Preview:  {out}"
  IO.println ""
  match ← entryAt? w.path with
  | some (.file text) =>
    watchLoop w text ({ window := w.debounceMs : Scheduler }.compileNow text) 0
  | _ => return

/-- What is said about wrong arguments. -/
def usage : String :=
  "Usage: scribe compile <FILE> [-o <OUT>] [--json | --page]\n" ++
  "       scribe init [-c <CONTENT_ROOT>] [-f]\n" ++
  "       scribe widgets [-t]\n" ++
  "       scribe watch <FILE> [-o <OUT>] [--debounce-ms <MS>]\n"

/-- Runs the subcommand that some arguments ask for in a directory. -/
def runIn (cwd : String) (args : List String) : IO UInt32 := do
  match Invocation.read args with
  | .error .displayHelp =>
    IO.print usage
    return 0
  | .error _ =>
    IO.eprint usage
    return 2
  | .ok invocation =>
    match ← runTask (invocation.paths cwd) (invocation.run cwd) with
    | .ok (some w) =>
      watch w
      return 0
    | .ok none => return 0
    | .error e =>
      IO.eprintln s!"\nError: {e.message}\n"
      return 1

end Folio.Cli

/-- The program. -/
def main (args : List String) : IO UInt32 := do
  Folio.Cli.runIn (← IO.currentDir).toString args
