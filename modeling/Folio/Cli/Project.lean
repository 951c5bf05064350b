import Folio.Editor.Config
import Folio.Storage.FileTree

/-!
# Projects

A project is a directory with a configuration file, which names the directory that holds the
content. Without the file the usual settings apply.
-/

namespace Folio.Cli

/-- The settings of a project. -/
structure ProjectConfig where
  contentRoot : String := "content"
  editor : EditorConfig := {}
  deriving DecidableEq, Repr

/-- Why the settings of a project cannot be used. -/
inductive ProjectError
  | unreadable (error : FileError)
  | malformed
  | invalid (error : ConfigError)
  deriving DecidableEq, Repr

/-- The error's message. -/
def ProjectError.message : ProjectError → String
  | unreadable e => e.message
  | malformed => "The configuration file does not hold the settings of a project"
  | invalid e => s!"Invalid editor config: {e.message}"

namespace ProjectConfig

/-- The name of the configuration file. -/
def fileName : String := "scribe.config.json"

/-- The settings in JSON, where all may be missing. -/
def ofJson? (j : Json) : Option ProjectConfig := do
  let usual : ProjectConfig := {}
  match ← j.record? ["contentRoot", "editor"] with
  | [root, editor] =>
    return {
      contentRoot := ← Json.fieldOr usual.contentRoot Json.string? root
      editor := ← Json.fieldOr usual.editor EditorConfig.ofJson? editor }
  | _ => none

/-- The settings in the text of a configuration file. -/
def read (s : Text) : Except ProjectError ProjectConfig := do
  match (Json.readLoosely s).bind ofJson? with
  | none => throw .malformed
  | some c =>
    c.editor.validate.mapError .invalid
    return c

/-- The settings of the project in a directory. -/
def load (tree : FileTree) (directory : String) : Except ProjectError ProjectConfig := do
  let path := Path.ofString (Path.join directory fileName)
  if tree.contains path then read (← (tree.read path).mapError .unreadable) else return {}

/-- The directory that holds the content of the project in a directory. -/
def rootIn (c : ProjectConfig) (directory : String) : String := Path.join directory c.contentRoot

/-- The settings as JSON. -/
def toJson (c : ProjectConfig) : Json :=
  .object [("contentRoot", .string c.contentRoot), ("editor", c.editor.toJson)]

end ProjectConfig
end Folio.Cli
