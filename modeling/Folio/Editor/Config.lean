import Folio.Json.Reader
import Folio.Json.Record

/-!
# Editor configuration

How long the editor waits before it compiles and before it records what was typed, how many states
it remembers, and what a new document holds. Times are in milliseconds.
-/

namespace Folio

/-- The settings of an editor. -/
structure EditorConfig where
  debounceMs : Nat := 500
  typingCoalesceMs : Nat := 1000
  historyLimit : Nat := 50
  newDocumentTemplate : String :=
    "---\ntitle: Untitled\n---\n\n# Untitled\n\nStart writing here.\n"
  deriving DecidableEq, Repr

/-- Why settings cannot be used. -/
inductive ConfigError
  | noHistory
  deriving DecidableEq, Repr

/-- The error's message. -/
def ConfigError.message : ConfigError → String
  | noHistory => "historyLimit must be at least 1"

namespace EditorConfig

/-- Refuses settings that leave no room for the current state. -/
def validate (c : EditorConfig) : Except ConfigError Unit :=
  if c.historyLimit = 0 then .error .noHistory else .ok ()

/-- The settings in JSON, where all may be missing. -/
def ofJson? (j : Json) : Option EditorConfig := do
  let usual : EditorConfig := {}
  let number := Json.natBelow? (Nat.pow 2 64)
  match ← j.record? ["debounceMs", "typingCoalesceMs", "historyLimit", "newDocumentTemplate"] with
  | [debounce, coalesce, limit, template] =>
    return {
      debounceMs := ← Json.fieldOr usual.debounceMs number debounce
      typingCoalesceMs := ← Json.fieldOr usual.typingCoalesceMs number coalesce
      historyLimit := ← Json.fieldOr usual.historyLimit number limit
      newDocumentTemplate := ← Json.fieldOr usual.newDocumentTemplate Json.string? template }
  | _ => none

/-- The settings in a JSON text. -/
def read? (s : Text) : Option EditorConfig := do ofJson? (← Json.readLoosely s)

/-- The settings as JSON. -/
def toJson (c : EditorConfig) : Json :=
  .object [("debounceMs", .integer c.debounceMs), ("typingCoalesceMs", .integer c.typingCoalesceMs),
    ("historyLimit", .integer c.historyLimit),
    ("newDocumentTemplate", .string c.newDocumentTemplate)]

end EditorConfig
end Folio
