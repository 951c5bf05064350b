import Folio.Cli.Arguments
import Folio.Cli.Project
import Folio.Editor.Scheduler
import Folio.Render.Builtin
import Folio.Render.Encoding
import Folio.Render.Html
import Folio.Render.Report
import Folio.Json.Printer
import Folio.Storage.Directory
import Folio.Text.Line
import Folio.Yaml.Value

/-!
# Running subcommands

A subcommand takes the files below a root to other files, and writes to the two standard streams.
When it fails, what it has written before stays written.

* `compile` writes a document as HTML or JSON;
* `create` sets up a project with a first document;
* `listWidgets` lists the stock widgets;
* `prepareWatch` checks what a document is to be watched with, and `Watch.report` tells what came
  of a compilation.
-/

namespace Folio.Cli

/-- Why a subcommand fails. -/
inductive Failed
  | cannotRead (path : String) (error : FileError)
  | cannotWrite (error : FileError)
  | doesNotCompile (path : String)
  | missingFile (path : String)
  | project (error : ProjectError)
  | store (error : StoreError)
  | crashed
  deriving DecidableEq, Repr

/-- The failure's message. -/
def Failed.message : Failed → String
  | cannotRead path e => s!"Cannot read {path}: {e.message}"
  | cannotWrite e => e.message
  | doesNotCompile path => s!"{path} failed to compile"
  | missingFile path => s!"File does not exist: {path}"
  | project e => e.message
  | store e => e.message
  | crashed => "The compiler broke down"

/-- The files and what has been written to the standard streams. -/
structure Console where
  tree : FileTree
  stdout : String := ""
  stderr : String := ""

/-- A subcommand or a part of one. What it has done is kept when it fails. -/
abbrev Task (α : Type) := ExceptT Failed (StateM Console) α

/-- Writes a line to standard output. -/
def say (line : String) : Task Unit :=
  modify fun c => { c with stdout := c.stdout ++ line ++ "\n" }

/-- Writes a line to standard error. -/
def warn (line : String) : Task Unit :=
  modify fun c => { c with stderr := c.stderr ++ line ++ "\n" }

/-- Goes on with a value, or fails with an error turned into a failure. -/
def orFail {ε α : Type} (failed : ε → Failed) (r : Except ε α) : Task α :=
  match r with
  | .ok x => return x
  | .error e => throw (failed e)

/-- Writes a file. -/
def writeFile (path : String) (content : String) : Task Unit := do
  let tree ← orFail .cannotWrite ((← get).tree.write (Path.ofString path) content.toList)
  modify fun c => { c with tree }

/-- A reader that names the format of a text that it cannot read. -/
def naming (format : String) (read? : Text → Option Json) (s : Text) : Except String Json :=
  match read? s with
  | some v => .ok v
  | none => .error s!"the text is not {format}"

/-- How values are read. -/
def formats : Formats where
  json := naming "JSON" Json.read?
  yaml := naming "YAML" Yaml.read?

/-- Compiles and renders a source text with the stock widgets. A failure is reported. -/
def renderSource (path : String) (source : Text) : Task Rendered := do
  match Folio.compile formats .builtins source with
  | .tree t => return t.render .builtins
  | .broken => throw .crashed
  | .failed f =>
    warn (f.report source path)
    throw (.doesNotCompile path)

/-- A rendered document in one of the forms of output. -/
def OutputForm.text (form : OutputForm) (r : Rendered) : String :=
  match form with
  | .fragment => Html.fragment r
  | .page => Html.page r
  | .json => r.toJson.pretty

/-- Compiles a document. -/
def compile (cwd file : String) (out : Option String) (form : OutputForm) : Task Unit := do
  let path := Path.join cwd file
  let source ← orFail (.cannotRead path) ((← get).tree.read (Path.ofString path))
  let rendered ← renderSource path source
  for f in rendered.failures do
    warn s!"  ⚠ <{f.widget}> failed to render: {f.message}"
  match out with
  | some out =>
    let target := Path.join cwd out
    writeFile target (form.text rendered)
    warn s!"  ✓ {file} → {target}"
  | none => modify fun c => { c with stdout := c.stdout ++ form.text rendered }

/-- The first document of a project. -/
def welcome : Address := { category := "posts", name := "welcome.md" }

/-- Adds the first document of a project unless there is one. -/
def createWelcome (cwd : String) (config : ProjectConfig) : Task Unit := do
  let store : DirectoryStore :=
    { root := Path.ofString (config.rootIn cwd), tree := (← get).tree }
  match store.create welcome config.editor.newDocumentTemplate.toList with
  | .ok store =>
    modify fun c => { c with tree := store.tree }
    say s!"  ✓ Created {config.contentRoot}/{welcome.toString}"
  | .error (.alreadyExists _) => return
  | .error e => throw (.store e)

/-- Sets up a project. -/
def create (cwd contentRoot : String) (force : Bool) : Task Unit := do
  let path := Path.join cwd ProjectConfig.fileName
  if (← get).tree.contains (Path.ofString path) && !force then
    say s!"⚠️ {ProjectConfig.fileName} already exists"
    say "Use --force to overwrite"
  else
    say "📝 Initializing Scribe project..."
    let config : ProjectConfig := { contentRoot }
    createWelcome cwd config
    writeFile path config.toJson.pretty
    say s!"  ✓ Created {ProjectConfig.fileName}"
    let document := s!"{contentRoot}/{welcome.toString}"
    for line in ["", "✅ Project initialized!", "", "Next steps:", s!"  1. Edit {document}",
        s!"  2. Run: scribe watch {document} --out preview.html"] do
      say line

/-- Lists the stock widgets. -/
def listWidgets (templates : Bool) : Task Unit := do
  say s!"🧩 {CapabilitySet.builtins.size} widgets"
  for (name, w) in CapabilitySet.builtins.widgets do
    say s!"  {name} {w.describe}"
    if templates then
      for l in Line.split w.template.toList do
        say s!"      {String.ofList l.text}"

/-- A document to be watched: its path, the page to write, and the quiet window. -/
structure Watch where
  path : String
  out : Option String
  debounceMs : Nat
  deriving DecidableEq, Repr

/-- Checks that a document can be watched. -/
def prepareWatch (cwd file : String) (out : Option String) (debounceMs : Option Nat) :
    Task Watch := do
  let config ← orFail .project (ProjectConfig.load (← get).tree cwd)
  let path := Path.join cwd file
  if (← get).tree.isFile (Path.ofString path) then
    return {
      path
      out := out.map (Path.join cwd)
      debounceMs := debounceMs.getD config.editor.debounceMs }
  else throw (.missingFile path)

/-- Tells what came of the last compilation, and writes the page when it did not fail. -/
def Watch.report (w : Watch) (a : Artifact) : Task Unit := do
  match a.error, a.tree with
  | none, some tree =>
    let rendered := tree.render .builtins
    say s!"  ✓ generation {a.generation} compiled ({tree.nodes.length} blocks)"
    for f in rendered.failures do
      say s!"    ⚠ <{f.widget}>: {f.message}"
    if let some out := w.out then
      try writeFile out (Html.page rendered)
      catch e => warn s!"  ✗ cannot write {out}: {e.message}"
  | some f, tree =>
    warn (f.report (a.source.getD []) w.path)
    warn s!"  ✗ generation {a.generation}: {(Failed.doesNotCompile w.path).message}"
    if tree.isSome then warn "    showing last good preview"
  | none, none => return

/-- The paths that a subcommand uses. -/
def Invocation.paths (cwd : String) : Invocation → List String
  | compile file out _ => (file :: out.toList).map (Path.join cwd)
  | create contentRoot _ =>
    [Path.join cwd ProjectConfig.fileName,
      Path.join (Path.join cwd contentRoot) welcome.toString]
  | widgets _ => []
  | watch file out _ => (ProjectConfig.fileName :: file :: out.toList).map (Path.join cwd)

/-- Runs a subcommand in a directory, up to the point where it would watch a document. -/
def Invocation.run (cwd : String) : Invocation → Task (Option Watch)
  | compile file out form => do
    Cli.compile cwd file out form
    return none
  | create contentRoot force => do
    Cli.create cwd contentRoot force
    return none
  | widgets templates => do
    listWidgets templates
    return none
  | watch file out debounceMs => some <$> prepareWatch cwd file out debounceMs

end Folio.Cli
