import Folio.Editor.Session
import Folio.Proofs.Scheduler.Run

/-!
# Runs of a session

An author types, selects, applies commands, goes back and forth and saves, in any order, while the
sleeps of timers and the compilations of the session's scheduler come to their ends.

* `Event`, `step` and `Possible` are what happens to a session;
* `request?` is what an event has the scheduler do: a text that has changed is to be compiled
  later, and a text that has not is not;
* `step_scheduler` says that the scheduler does this and nothing else;
* `Run config log s` says that a session with these settings can come to the state `s`, its
  scheduler with this log.
-/

namespace Folio.Session

/-! ### Events -/

/-- What can happen to a session. -/
inductive Event
  | input (text : Text) (selection : Selection) (now : Nat)
  | select (selection : Selection)
  | flush (now : Nat)
  | command (command : Command)
  | undo
  | redo
  | refresh
  | save (documents : MemoryStore)
  | saveAs (documents : MemoryStore) (target : Address)
  | upload (result : Except UploadError Text)
  | dismiss (id : Nat)
  | wake (timer : Timer)
  | finish (job : Job) (result : Compiled)
  | tick (time : Nat)

/-- The session after an event. -/
def step (s : Session) : Event → Session
  | .input text selection now => s.input text selection now
  | .select selection => s.select selection
  | .flush now => (s.flushTyping now).1
  | .command command => (s.applyCommand command).1
  | .undo => s.undo.1
  | .redo => s.redo.1
  | .refresh => s.refresh
  | .save documents => (s.save documents).1
  | .saveAs documents target => (s.saveAs documents target).1
  | .upload result => (s.insertUploaded result).1
  | .dismiss id => (s.dismiss id).1
  | .wake timer => { s with scheduler := s.scheduler.wake timer }
  | .finish job result => { s with scheduler := s.scheduler.finish job result }
  | .tick time => { s with scheduler := s.scheduler.step (.tick time) }

/-- Whether an event can happen: only what sleeps wakes, and only what runs comes to an end. -/
def Possible (s : Session) : Event → Prop
  | .wake timer => timer ∈ s.scheduler.sleeping
  | .finish job _ => job ∈ s.scheduler.running
  | _ => True

instance (s : Session) (e : Event) : Decidable (s.Possible e) := by
  cases e <;> unfold Possible <;> infer_instance

/-- What an event has the scheduler do. -/
def request? (s : Session) : Event → Option Scheduler.Event
  | .refresh => some (.compileNow s.buffer.text)
  | .wake timer => some (.wake timer)
  | .finish job result => some (.finish job result)
  | .tick time => some (.tick time)
  | e =>
    if (s.step e).buffer.text = s.buffer.text then none else some (.notify (s.step e).buffer.text)

/-! ### The parts that an operation leaves alone -/

variable (s : Session)

@[simp] theorem commitTyping_buffer : s.commitTyping.buffer = s.buffer := by
  unfold commitTyping
  split <;> rfl

@[simp] theorem commitTyping_scheduler : s.commitTyping.scheduler = s.scheduler := by
  unfold commitTyping
  split <;> rfl

@[simp] theorem flushTyping_buffer (now : Nat) : (s.flushTyping now).1.buffer = s.buffer := by
  unfold flushTyping
  split <;> rfl

@[simp] theorem flushTyping_typing (now : Nat) :
    (s.flushTyping now).1.typing = s.typing.clearIfDue now := by
  unfold flushTyping Debounce.clearIfDue
  split <;> rfl

@[simp] theorem flushTyping_scheduler (now : Nat) :
    (s.flushTyping now).1.scheduler = s.scheduler := by
  unfold flushTyping
  split <;> rfl

@[simp] theorem replace_text (text : Text) (selection : Selection) :
    (s.replace text selection).buffer.text = text := by
  unfold replace
  simp only
  split <;> rfl

/-- A session has its text compiled later exactly if it differs from the one before. -/
def Tells (before after : Session) : Prop :=
  after.scheduler =
    if after.buffer.text = before.buffer.text then before.scheduler
    else before.scheduler.notify after.buffer.text

theorem tells_of_same {s t : Session} (text : t.buffer.text = s.buffer.text)
    (scheduler : t.scheduler = s.scheduler) : Tells s t := by
  rw [Tells, if_pos text, scheduler]

theorem tells_replace (text : Text) (selection : Selection) :
    Tells s (s.replace text selection) := by
  unfold Tells replace
  by_cases same : text = s.buffer.text
  · simp [Buffer.differs, Buffer.replace, same]
  · simp [Buffer.differs, Buffer.replace, same, notify]

/-- What is told depends on the text and the scheduler only. -/
theorem Tells.congr {s t s' t' : Session} (h : Tells s t) (text : s'.buffer.text = s.buffer.text)
    (scheduler : s'.scheduler = s.scheduler) (text' : t'.buffer.text = t.buffer.text)
    (scheduler' : t'.scheduler = t.scheduler) : Tells s' t' := by
  rw [Tells, text, text', scheduler, scheduler']
  exact h

theorem tells_flushTyping (now : Nat) : Tells s (s.flushTyping now).1 :=
  tells_of_same (flushTyping_buffer s now ▸ rfl) (flushTyping_scheduler s now)

theorem tells_input (text : Text) (selection : Selection) (now : Nat) :
    Tells s (s.input text selection now) := by
  have replaced := tells_replace (s.flushTyping now).1 text selection
  unfold input
  simp only
  split
  · exact replaced.congr (by simp) (by simp) rfl rfl
  · exact replaced.congr (by simp) (by simp) rfl rfl

theorem tells_commitEdit (edit : Edit) : Tells s (s.commitEdit edit).1 :=
  (tells_replace s edit.text edit.selection).congr rfl rfl rfl rfl

theorem tells_applyCommand (command : Command) : Tells s (s.applyCommand command).1 := by
  unfold applyCommand
  simp only
  split
  · exact tells_of_same (by simp) (by simp)
  · exact (tells_commitEdit s.commitTyping _).congr (by simp) (by simp) rfl rfl

theorem tells_restore (history : History) : Tells s (s.restore history) :=
  (tells_replace { s with history } _ _).congr rfl rfl rfl rfl

theorem tells_undo : Tells s s.undo.1 := by
  unfold undo
  simp only
  split
  · exact (tells_restore s.commitTyping _).congr (by simp) (by simp) rfl rfl
  · exact tells_of_same (by simp) (by simp)

theorem tells_redo : Tells s s.redo.1 := by
  unfold redo
  simp only
  split
  · exact (tells_restore s.commitTyping _).congr (by simp) (by simp) rfl rfl
  · exact tells_of_same (by simp) (by simp)

theorem tells_insertUploaded (result : Except UploadError Text) :
    Tells s (s.insertUploaded result).1 := by
  unfold insertUploaded
  split
  · exact tells_of_same rfl rfl
  · exact (tells_commitEdit s.commitTyping _).congr (by simp) (by simp) rfl rfl

theorem tells_save (documents : MemoryStore) : Tells s (s.save documents).1 := by
  unfold save
  split
  · exact tells_of_same rfl rfl
  · split
    · exact tells_of_same rfl rfl
    · exact tells_of_same rfl rfl

theorem tells_saveAs (documents : MemoryStore) (target : Address) :
    Tells s (s.saveAs documents target).1 := by
  unfold saveAs
  split
  · exact tells_of_same rfl rfl
  · exact tells_of_same rfl rfl

/-! ### What happens to the scheduler -/

/-- An event does to the scheduler what it requests, and nothing else. -/
theorem step_scheduler (e : Event) :
    (s.step e).scheduler = (s.request? e).elim s.scheduler s.scheduler.step := by
  have changed (t : Session) (tells : Tells s t) :
      t.scheduler =
        (if t.buffer.text = s.buffer.text then none
          else some (.notify t.buffer.text) : Option Scheduler.Event).elim
          s.scheduler s.scheduler.step := by
    rw [tells]
    split <;> rfl
  cases e with
  | refresh => rfl
  | wake timer => rfl
  | finish job result => rfl
  | tick time => rfl
  | input text selection now => exact changed _ (tells_input s text selection now)
  | select selection => exact changed _ (tells_of_same rfl rfl)
  | flush now => exact changed _ (tells_flushTyping s now)
  | command command => exact changed _ (tells_applyCommand s command)
  | undo => exact changed _ (tells_undo s)
  | redo => exact changed _ (tells_redo s)
  | save documents => exact changed _ (tells_save s documents)
  | saveAs documents target => exact changed _ (tells_saveAs s documents target)
  | upload result => exact changed _ (tells_insertUploaded s result)
  | dismiss id => exact changed _ (tells_of_same rfl rfl)

variable {s}

/-- What a possible event requests is possible for the scheduler. -/
theorem possible_request {e : Event} (possible : s.Possible e) {r : Scheduler.Event}
    (requested : s.request? e = some r) : s.scheduler.Possible r := by
  have notified {t : Session} (h : (if t.buffer.text = s.buffer.text then none
      else some (.notify t.buffer.text) : Option Scheduler.Event) = some r) :
      s.scheduler.Possible r := by
    split at h
    · cases h
    · cases h
      trivial
  cases e with
  | refresh => cases requested; trivial
  | wake timer => cases requested; exact possible
  | finish job result => cases requested; exact possible
  | tick time => cases requested; trivial
  | input | select | flush | command | undo | redo | save | saveAs | upload | dismiss =>
    exact notified requested

/-! ### Runs -/

/-- The log of the scheduler after an event. -/
def logged (s : Session) (log : Scheduler.Log) (e : Event) : Scheduler.Log :=
  (s.request? e).elim log (log.add s.scheduler)

/-- The log of the scheduler of a session that has just begun. -/
def openingLog (config : EditorConfig) (s : Session) : Scheduler.Log :=
  Scheduler.Log.add {} { window := config.debounceMs } (.compileNow s.buffer.text)

/-- The logs and the states that sessions with some settings come to. -/
inductive Run (config : EditorConfig) : Scheduler.Log → Session → Prop
  | newDocument {capabilities : CapabilitySet} {s : Session} :
      newDocument config capabilities = .ok s → Run config (openingLog config s) s
  | load {documents : MemoryStore} {target : Address} {capabilities : CapabilitySet}
      {s : Session} :
      load documents target config capabilities = .ok s → Run config (openingLog config s) s
  | step {log : Scheduler.Log} {s : Session} (e : Event) :
      Run config log s → s.Possible e → Run config (s.logged log e) (s.step e)

/-- Valid settings leave room for the current state. -/
theorem historyLimit_pos {config : EditorConfig} (h : checkConfig config = .ok ()) :
    0 < config.historyLimit := by
  unfold checkConfig EditorConfig.validate at h
  split at h
  · cases h
  · omega

/-- A session begins with valid settings and an unselected text. -/
theorem build_of_newDocument {config : EditorConfig} {capabilities : CapabilitySet} {s : Session}
    (h : newDocument config capabilities = .ok s) :
    0 < config.historyLimit ∧
      ∃ target buffer, buffer.selection = .cursor 0 ∧
        s = build target buffer config capabilities := by
  unfold newDocument at h
  cases valid : checkConfig config with
  | error e =>
    rw [valid] at h
    cases h
  | ok _ =>
    rw [valid] at h
    cases h
    exact ⟨historyLimit_pos valid, _, _, rfl, rfl⟩

theorem build_of_load {config : EditorConfig} {documents : MemoryStore} {target : Address}
    {capabilities : CapabilitySet} {s : Session}
    (h : load documents target config capabilities = .ok s) :
    0 < config.historyLimit ∧
      ∃ target buffer, buffer.selection = .cursor 0 ∧
        s = build target buffer config capabilities := by
  unfold load at h
  cases valid : checkConfig config with
  | error e =>
    rw [valid] at h
    cases h
  | ok _ =>
    rw [valid] at h
    cases found : (documents.get target).mapError EditorError.store with
    | error e =>
      rw [found] at h
      cases h
    | ok text =>
      rw [found] at h
      cases h
      exact ⟨historyLimit_pos valid, _, _, rfl, rfl⟩

/-- What holds of every session that begins, and is kept by every event that can happen, holds of
every run. -/
theorem Run.induct {config : EditorConfig} {motive : Scheduler.Log → Session → Prop}
    (begins : ∀ target buffer capabilities, 0 < config.historyLimit →
      buffer.selection = .cursor 0 →
      motive (openingLog config (build target buffer config capabilities))
        (build target buffer config capabilities))
    (keeps : ∀ log s e, Run config log s → motive log s → s.Possible e →
      motive (s.logged log e) (s.step e))
    {log : Scheduler.Log} {s : Session} (run : Run config log s) : motive log s := by
  induction run with
  | newDocument h =>
    obtain ⟨limit, target, buffer, selection, rfl⟩ := build_of_newDocument h
    exact begins target buffer _ limit selection
  | load h =>
    obtain ⟨limit, target, buffer, selection, rfl⟩ := build_of_load h
    exact begins target buffer _ limit selection
  | step e run possible ih => exact keeps _ _ e run ih possible

/-- The scheduler of a session makes a run of its own, with the same log. -/
theorem Run.scheduler {config : EditorConfig} {log : Scheduler.Log} {s : Session}
    (run : Run config log s) : Scheduler.Run config.debounceMs log s.scheduler := by
  refine Run.induct (motive := fun log s => Scheduler.Run config.debounceMs log s.scheduler)
    ?begins ?keeps run
  case begins =>
    intro target buffer capabilities _ _
    exact Scheduler.Run.fresh.step _ trivial
  case keeps =>
    intro log s e _ ih possible
    rw [step_scheduler, logged]
    cases requested : s.request? e with
    | none => exact ih
    | some r => exact ih.step r (possible_request possible requested)

end Folio.Session
