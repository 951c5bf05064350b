import Folio.Proofs.Session.UndoRedo

/-!
# Refused commands

Whether a command is refused depends on the command and on the widgets, and not on what it would be
applied to. Before that is found out, what was typed is recorded. The author sees nothing of it: undo,
redo and commands record what was typed before they do anything else, and recording it a second time
does nothing. Main statements:

* `Command.apply_eq_error_iff`: which commands are refused;
* `commitTyping_commitTyping`: what was typed is recorded once;
* `commitTyping_steps`: it does not matter whether it is recorded before or after what happens aside;
* `applyCommand_refused`: what a refused command leaves as it was, and what comes next comes out the
  same.
-/

namespace Folio

/-! ### Commands that are refused -/

namespace Command

/-- Why a command is refused where there are some widgets: its heading has a level that there is not,
or it inserts a widget that is not known. -/
def refusal? (caps : CapabilitySet) : Command → Option CommandError
  | heading level => if 1 ≤ level ∧ level ≤ 6 then none else some (.invalidHeadingLevel level)
  | widget name => if caps.contains name then none else some (.unknownWidget name)
  | _ => none

variable {caps : CapabilitySet} {text : Text} {selection : Selection} {e : CommandError}

/-- A command is refused whatever it is applied to, or it is never refused. -/
theorem apply_eq_error_iff (command : Command) :
    command.apply caps text selection = .error e ↔ command.refusal? caps = some e := by
  cases command with
  | heading level =>
    by_cases there : 1 ≤ level ∧ level ≤ 6
    · simp [apply, refusal?, there]
    · have unlike : (decide (1 ≤ level) && decide (level ≤ 6)) = false := by simpa using there
      simp [apply, refusal?, there, unlike]
  | widget name =>
    cases known : caps.get? name <;>
      simp [apply, refusal?, Edit.insertTemplate, CapabilitySet.contains, known]
  | _ => simp [apply, refusal?]

end Command

namespace Session

variable {s : Session} {command : Command} {e : EditorError}

/-! ### What was typed is recorded once -/

/-- When what was typed has been recorded, nothing is left to record. -/
theorem commitTyping_commitTyping (s : Session) : s.commitTyping.commitTyping = s.commitTyping :=
  commitTyping_of_idle s.commitTyping_isPending

theorem undo_commitTyping (s : Session) : s.commitTyping.undo = s.undo := by
  rw [undo, commitTyping_commitTyping, undo]

theorem redo_commitTyping (s : Session) : s.commitTyping.redo = s.redo := by
  rw [redo, commitTyping_commitTyping, redo]

@[simp] theorem commitTyping_capabilities (s : Session) :
    s.commitTyping.capabilities = s.capabilities := by
  unfold commitTyping
  split <;> rfl

theorem applyCommand_commitTyping (s : Session) (command : Command) :
    s.commitTyping.applyCommand command = s.applyCommand command := by
  rw [applyCommand, commitTyping_commitTyping, applyCommand]

/-! ### What happens aside -/

/-- What touches neither the text and its selection nor what was typed and the history: saving, and
what happens in the background. -/
def Event.isAside : Event → Bool
  | .refresh | .save _ | .saveAs _ _ | .dismiss _ | .wake _ | .finish _ _ | .tick _ => true
  | _ => false

/-- What is recorded is left alone aside. -/
theorem step_aside {event : Event} (aside : event.isAside = true) (s : Session) :
    (s.step event).snapshot = s.snapshot ∧ (s.step event).history = s.history ∧
      (s.step event).typing = s.typing := by
  cases event with
  | save documents =>
    unfold step save
    dsimp only
    split
    · exact ⟨rfl, rfl, rfl⟩
    · split <;> exact ⟨rfl, rfl, rfl⟩
  | saveAs documents target =>
    unfold step saveAs
    dsimp only
    split <;> exact ⟨rfl, rfl, rfl⟩
  | refresh | dismiss | wake | finish | tick => exact ⟨rfl, rfl, rfl⟩
  | _ => cases aside

/-- What happens aside does not look at what was typed and at the history. -/
theorem step_with {event : Event} (aside : event.isAside = true) (s : Session) (history : History)
    (typing : Debounce) :
    { s with history, typing }.step event = { s.step event with history, typing } := by
  cases event with
  | save documents =>
    obtain ⟨target, buffer⟩ := s
    cases target with
    | none => rfl
    | some target =>
      simp only [step, save]
      cases store documents target buffer.text <;> rfl
  | saveAs documents target =>
    simp only [step, saveAs]
    cases documents.create target s.buffer.text <;> rfl
  | refresh | dismiss | wake | finish | tick => rfl
  | _ => cases aside

theorem commitTyping_eq (s : Session) :
    s.commitTyping =
      { s with
        history := if s.typing.isPending then s.history.record s.snapshot else s.history
        typing := if s.typing.isPending then s.typing.clear else s.typing } := by
  unfold commitTyping
  split <;> rfl

theorem commitTyping_step {event : Event} (aside : event.isAside = true) (s : Session) :
    s.commitTyping.step event = (s.step event).commitTyping := by
  obtain ⟨snapshot, history, typing⟩ := step_aside aside s
  rw [commitTyping_eq s, step_with aside, commitTyping_eq, snapshot, history, typing]

/-- It does not matter whether what was typed is recorded before or after what happens aside. -/
theorem commitTyping_steps {events : List Event} (aside : ∀ event ∈ events, event.isAside = true)
    (s : Session) : events.foldl step s.commitTyping = (events.foldl step s).commitTyping := by
  induction events generalizing s with
  | nil => rfl
  | cons event events ih =>
    rw [List.forall_mem_cons] at aside
    rw [List.foldl_cons, List.foldl_cons, commitTyping_step aside.1, ih aside.2]

/-! ### Refused commands -/

/-- A refused command records what was typed, and does nothing else. -/
theorem applyCommand_eq_of_refused (refused : (s.applyCommand command).2 = .error e) :
    (s.applyCommand command).1 = s.commitTyping ∧
      ∃ cause, e = .command cause ∧ command.refusal? s.capabilities = some cause := by
  unfold applyCommand at refused ⊢
  simp only at refused ⊢
  split at refused
  · rename_i cause failed
    cases refused
    refine ⟨rfl, cause, rfl, ?_⟩
    rw [← s.commitTyping_capabilities]
    exact (Command.apply_eq_error_iff command).1 failed
  · cases refused

/-- **A refused command is not seen.** A command is refused for its level or for its widget, whatever
the session is. The text, its selection, what was saved and where, the notices and the scheduler are as
they were, and in the history only what was typed is recorded. If undo, redo or another command comes
next, perhaps after something happened aside, it does the same and leaves the same session as if the
refused command had not been issued. -/
theorem applyCommand_refused (refused : (s.applyCommand command).2 = .error e) :
    (∃ cause, e = .command cause ∧ command.refusal? s.capabilities = some cause) ∧
      (s.applyCommand command).1.buffer = s.buffer ∧
      (s.applyCommand command).1.target = s.target ∧
      (s.applyCommand command).1.notices = s.notices ∧
      (s.applyCommand command).1.scheduler = s.scheduler ∧
      (s.applyCommand command).1.history =
        (if s.typing.isPending then s.history.record s.snapshot else s.history) ∧
      ∀ events : List Event, (∀ event ∈ events, event.isAside = true) →
        (events.foldl step (s.applyCommand command).1).undo = (events.foldl step s).undo ∧
        (events.foldl step (s.applyCommand command).1).redo = (events.foldl step s).redo ∧
        ∀ next, (events.foldl step (s.applyCommand command).1).applyCommand next =
          (events.foldl step s).applyCommand next := by
  obtain ⟨recorded, cause⟩ := applyCommand_eq_of_refused refused
  rw [recorded]
  refine ⟨cause, commitTyping_buffer s, by rw [commitTyping_eq], by rw [commitTyping_eq],
    commitTyping_scheduler s, by rw [commitTyping_eq], fun events aside => ?_⟩
  rw [commitTyping_steps aside]
  exact ⟨undo_commitTyping _, redo_commitTyping _, applyCommand_commitTyping _⟩

/-- Something is typed after an undo, a heading of a seventh level is asked for, and the preview is
compiled: what was undone is dropped and the oldest state goes when the heading is refused, and undo
leads to where it would have led. -/
theorem applyCommand_refused_typed :
    ∃ log s, Run { historyLimit := 2, newDocumentTemplate := "" } log s ∧
      s.typing.isPending = true ∧ s.history.texts = [[], ['a']] ∧
      (s.applyCommand (.heading 7)).2 = .error (.command (.invalidHeadingLevel 7)) ∧
      (s.applyCommand (.heading 7)).1.history.texts = [[], ['b']] ∧
      (s.applyCommand (.heading 7)).1.refresh.undo = s.refresh.undo ∧
      s.refresh.undo.2 = true := by
  have begun : Run { historyLimit := 2, newDocumentTemplate := "" } _ _ :=
    @Run.newDocument _ .empty _ rfl
  have typed : Run { historyLimit := 2, newDocumentTemplate := "" } _ _ :=
    ((begun.step (.input ['a'] (.cursor 1) 0) trivial).step .undo trivial).step
      (.input ['b'] (.cursor 1) 5000) trivial
  obtain ⟨-, -, -, -, -, -, next⟩ :=
    @applyCommand_refused _ (.heading 7) (.command (.invalidHeadingLevel 7)) rfl
  exact ⟨_, _, typed, rfl, rfl, rfl, rfl, (next [.refresh] (by decide)).1, rfl⟩

end Session
end Folio
