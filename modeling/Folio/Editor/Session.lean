import Folio.Editor.Buffer
import Folio.Editor.Command
import Folio.Editor.Config
import Folio.Editor.Debounce
import Folio.Editor.History
import Folio.Editor.Scheduler
import Folio.Storage.Memory

/-!
# Editing sessions

A session is one document being edited: its text, the states it went through, the preview that is
compiled in the background, and the place where it is saved. What is typed becomes one state of the
history when the author pauses, or when something else is done first.

An operation gives the session after it together with its result; also a refused operation may have
recorded what was typed before.
-/

namespace Folio

/-- Why an operation of a session is refused. -/
inductive EditorError
  | store (error : StoreError)
  | command (error : CommandError)
  | noSaveTarget
  | invalidConfig (error : ConfigError)
  deriving DecidableEq, Repr

/-- The error's message. -/
def EditorError.message : EditorError → String
  | store e => s!"Store error: {e.message}"
  | command e => s!"Command error: {e.message}"
  | noSaveTarget => "Document has no save location"
  | invalidConfig e => s!"Invalid editor config: {e.message}"

/-- Why an image was not uploaded. -/
inductive UploadError
  | rejected (reason : String)
  | transport (reason : String)
  deriving DecidableEq, Repr

/-- The error's message. -/
def UploadError.message : UploadError → String
  | rejected reason => s!"Upload rejected: {reason}"
  | transport reason => s!"Upload failed: {reason}"

/-- A message for the author that stays until it is dismissed. -/
structure Notice where
  id : Nat
  message : String
  deriving DecidableEq, Repr

/-- What the host does after a command. -/
structure CommandOutcome where
  selection : Selection
  restoreFocus : Bool
  recorded : Bool
  deriving DecidableEq, Repr

/-- A document being edited. -/
structure Session where
  target : Option Address
  buffer : Buffer
  history : History
  typing : Debounce
  capabilities : CapabilitySet
  scheduler : Scheduler
  notices : List Notice := []
  nextNotice : Nat := 1

namespace Session

/-! ### Beginning -/

/-- The session for a text, with its first preview being compiled. -/
def build (target : Option Address) (buffer : Buffer) (config : EditorConfig)
    (capabilities : CapabilitySet) : Session where
  target
  buffer
  history := .start { text := buffer.text, selection := buffer.selection } config.historyLimit
  typing := { window := config.typingCoalesceMs }
  capabilities
  scheduler := { window := config.debounceMs : Scheduler }.compileNow buffer.text

/-- Refuses settings that cannot be used. -/
def checkConfig (config : EditorConfig) : Except EditorError Unit :=
  config.validate.mapError .invalidConfig

/-- A session for a new document that has never been saved. -/
def newDocument (config : EditorConfig) (capabilities : CapabilitySet) :
    Except EditorError Session := do
  checkConfig config
  return build none (.unsaved config.newDocumentTemplate.toList) config capabilities

/-- A session for a document of a store. -/
def load (store : MemoryStore) (target : Address) (config : EditorConfig)
    (capabilities : CapabilitySet) : Except EditorError Session := do
  checkConfig config
  let text ← (store.get target).mapError EditorError.store
  return build (some target) (.loaded text) config capabilities

/-! ### Typing -/

/-- The current text with its selection. -/
def snapshot (s : Session) : Snapshot := { text := s.buffer.text, selection := s.buffer.selection }

/-- Whether the current text is not the history's current state. -/
def isNew (s : Session) : Bool := s.history.isNew s.snapshot

/-- Records the current text in the history. -/
def record (s : Session) : Session := { s with history := s.history.record s.snapshot }

/-- Has the current text compiled when nothing else comes for a while. -/
def notify (s : Session) : Session := { s with scheduler := s.scheduler.notify s.buffer.text }

/-- Records what was typed, whether or not the author has paused. -/
def commitTyping (s : Session) : Session :=
  if s.typing.isPending then { s with typing := s.typing.clear }.record else s

/-- Records what was typed if the author has paused, and says whether that is a new state. -/
def flushTyping (s : Session) (now : Nat) : Session × Bool :=
  if s.typing.isDue now then ({ s with typing := s.typing.clear }.record, s.isNew) else (s, false)

/-- Replaces the text and the selection; a changed text is compiled after a while. -/
def replace (s : Session) (text : Text) (selection : Selection) : Session :=
  let replaced := { s with buffer := s.buffer.replace text selection }
  if s.buffer.differs text then replaced.notify else replaced

/-- The author types. A text typed before a pause is a state of its own. -/
def input (s : Session) (text : Text) (selection : Selection) (now : Nat) : Session :=
  let s := (s.flushTyping now).1
  let replaced := s.replace text selection
  if s.buffer.differs text then { replaced with typing := s.typing.touch now } else replaced

/-- The author selects. -/
def select (s : Session) (selection : Selection) : Session :=
  { s with buffer := s.buffer.select selection }

/-- Whether something was typed that the history does not hold. -/
def hasUncommittedTyping (s : Session) : Bool := s.typing.isPending && s.isNew

/-! ### Commands and history -/

/-- Makes an edit a state of its own. -/
def commitEdit (s : Session) (edit : Edit) : Session × CommandOutcome :=
  let s := s.replace edit.text edit.selection
  (s.record, { selection := s.buffer.selection, restoreFocus := true, recorded := s.isNew })

/-- Applies a command of the toolbar. -/
def applyCommand (s : Session) (command : Command) :
    Session × Except EditorError CommandOutcome :=
  let s := s.commitTyping
  match command.apply s.capabilities s.buffer.text s.buffer.selection with
  | .error e => (s, .error (.command e))
  | .ok edit =>
    let (s, outcome) := s.commitEdit edit
    (s, .ok outcome)

/-- Takes the text and the selection from the current state of a history. -/
def restore (s : Session) (history : History) : Session :=
  { s with history }.replace history.current.text history.current.selection

/-- Goes back to the state before, and says whether there was one. -/
def undo (s : Session) : Session × Bool :=
  let s := s.commitTyping
  match s.history.undo? with
  | some history => (s.restore history, true)
  | none => (s, false)

/-- Goes on to the next state, and says whether there was one. -/
def redo (s : Session) : Session × Bool :=
  let s := s.commitTyping
  match s.history.redo? with
  | some history => (s.restore history, true)
  | none => (s, false)

/-- Whether the undo button is shown as working. -/
def canUndo (s : Session) : Bool := s.history.canUndo || s.hasUncommittedTyping

/-- Whether the redo button is shown as working. -/
def canRedo (s : Session) : Bool := s.history.canRedo && !s.hasUncommittedTyping

/-! ### Preview -/

/-- Has the current text compiled without waiting. -/
def refresh (s : Session) : Session :=
  { s with scheduler := s.scheduler.compileNow s.buffer.text }

/-- Lets everything happen that is due in the background. -/
def settle (compiler : Text → Compiled) (s : Session) : Session :=
  { s with scheduler := s.scheduler.settle compiler fun _ => false }

/-- Lets time pass in the background. -/
def advance (compiler : Text → Compiled) (time : Nat) (s : Session) : Session :=
  { s with scheduler := s.scheduler.advance compiler (fun _ => false) time }

/-! ### Saving -/

/-- Writes the text over the document at an address, or adds it when there is none. -/
def store (documents : MemoryStore) (target : Address) (text : Text) :
    Except StoreError MemoryStore :=
  match documents.put target text with
  | .error (.notFound _) => documents.create target text
  | result => result

/-- Saves the document where it belongs. -/
def save (s : Session) (documents : MemoryStore) :
    Session × MemoryStore × Except EditorError Unit :=
  match s.target with
  | none => (s, documents, .error .noSaveTarget)
  | some target =>
    match store documents target s.buffer.text with
    | .error e => (s, documents, .error (.store e))
    | .ok documents => ({ s with buffer := s.buffer.markSaved }, documents, .ok ())

/-- Saves the document in a new place, where it then belongs. -/
def saveAs (s : Session) (documents : MemoryStore) (target : Address) :
    Session × MemoryStore × Except EditorError Unit :=
  match documents.create target s.buffer.text with
  | .error e => (s, documents, .error (.store e))
  | .ok documents =>
    ({ s with target := some target, buffer := s.buffer.markSaved }, documents, .ok ())

/-! ### Uploads and notices -/

/-- Shows a notice to the author. -/
def notice (s : Session) (message : String) : Session :=
  { s with
    notices := s.notices ++ [{ id := s.nextNotice, message }]
    nextNotice := s.nextNotice + 1 }

/-- Puts an uploaded image in after the selection. A failed upload becomes a notice. -/
def insertUploaded (s : Session) (result : Except UploadError Text) :
    Session × Option CommandOutcome :=
  match result with
  | .error e => (s.notice e.message, none)
  | .ok url =>
    let s := s.commitTyping
    let edit := Edit.insert (uploadedImage url) s.buffer.text s.buffer.selection
    let (s, outcome) := s.commitEdit edit
    (s, some outcome)

/-- Takes a notice away, and says whether there was one. -/
def dismiss (s : Session) (id : Nat) : Session × Bool :=
  ({ s with notices := s.notices.filter (·.id != id) }, s.notices.any (·.id == id))

/-! ### Description -/

/-- The state in one line. -/
def describe (s : Session) : String :=
  let target :=
    match s.target with
    | none => "None"
    | some a =>
      s!"Some(DocumentRef \x7b category: {Text.quoted a.category}, " ++
        s!"name: {Text.quoted a.name} \x7d)"
  s!"EditorSession \x7b target: {target}, dirty: {s.buffer.isDirty}, " ++
    s!"history_len: {s.history.size}, scheduler: {s.scheduler.describe} \x7d"

end Session
end Folio
