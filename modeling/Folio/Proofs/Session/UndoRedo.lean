import Folio.Proofs.History.Kept
import Folio.Proofs.Session.Run

/-!
# Undo and redo take each other back

`Recorded` is the invariant of a session: its history is kept, its selection lies on boundaries of
its text, and its text is the current one of the history unless something was typed that is not
recorded yet. Main statement: in every run, an undo that does anything changes the text and a redo
right after it brings the text back, and the other way round.
-/

namespace Folio.Session

/-- What holds of every session. -/
structure Recorded (limit : Nat) (s : Session) : Prop where
  kept : s.history.Kept limit
  fits : s.buffer.selection.Fits s.buffer.text
  settled : s.typing.isPending = false → s.buffer.text = s.history.current.text

variable {limit : Nat} {s : Session}

@[simp] theorem record_text (s : Session) : s.record.history.current.text = s.buffer.text :=
  History.current_record ..

@[simp] theorem replace_history (s : Session) (text : Text) (selection : Selection) :
    (s.replace text selection).history = s.history := by
  unfold replace
  simp only
  split <;> rfl

@[simp] theorem replace_typing (s : Session) (text : Text) (selection : Selection) :
    (s.replace text selection).typing = s.typing := by
  unfold replace
  simp only
  split <;> rfl

@[simp] theorem replace_selection (s : Session) (text : Text) (selection : Selection) :
    (s.replace text selection).buffer.selection = selection.clamp text := by
  unfold replace
  simp only
  split <;> rfl

/-- After what was typed is recorded, nothing is typed that is not. -/
theorem commitTyping_isPending (s : Session) : s.commitTyping.typing.isPending = false := by
  unfold commitTyping
  split
  · rfl
  · rename_i pending
    simpa using pending

namespace Recorded

/-- A new text may be on its way to the history, or be recorded at once. -/
theorem replace (h : Recorded limit s) (text : Text) (selection : Selection)
    (typing : Debounce) (pending : typing.isPending = true) :
    Recorded limit { s.replace text selection with typing } where
  kept := by simpa using h.kept
  fits := by simpa using selection.clamp_fits text
  settled idle := by simp [pending] at idle

theorem clear (h : Recorded limit s) :
    Recorded limit { s with typing := s.typing.clear }.record where
  kept := h.kept.record h.fits
  fits := h.fits
  settled _ := (record_text s).symm

theorem commitTyping (h : Recorded limit s) : Recorded limit s.commitTyping := by
  unfold Session.commitTyping
  split
  · exact h.clear
  · exact h

theorem flushTyping (h : Recorded limit s) (now : Nat) : Recorded limit (s.flushTyping now).1 := by
  unfold Session.flushTyping
  split
  · exact h.clear
  · exact h

theorem input (h : Recorded limit s) (text : Text) (selection : Selection) (now : Nat) :
    Recorded limit (s.input text selection now) := by
  have flushed := h.flushTyping now
  unfold Session.input
  simp only
  split
  · exact flushed.replace text selection _ rfl
  · rename_i same
    have text_eq : text = (s.flushTyping now).1.buffer.text := by simpa [Buffer.differs] using same
    refine ⟨by simpa using flushed.kept, by simpa using selection.clamp_fits text, fun idle => ?_⟩
    simp only [replace_typing] at idle
    simpa [text_eq] using flushed.settled idle

theorem commitEdit (h : Recorded limit s) (edit : Edit) : Recorded limit (s.commitEdit edit).1 where
  kept := by
    refine History.Kept.record (by simpa using h.kept) ?_
    simpa [snapshot] using edit.selection.clamp_fits edit.text
  fits := by
    simpa [Session.commitEdit, Session.record] using edit.selection.clamp_fits edit.text
  settled _ := (record_text (s.replace edit.text edit.selection)).symm

theorem applyCommand (h : Recorded limit s) (command : Command) :
    Recorded limit (s.applyCommand command).1 := by
  unfold Session.applyCommand
  simp only
  split
  · exact h.commitTyping
  · exact h.commitTyping.commitEdit _

/-- A session takes over the current text of a kept history when nothing is typed. -/
theorem restore {history : History} (kept : history.Kept limit) :
    Recorded limit (s.restore history) where
  kept := by simpa [Session.restore] using kept
  fits := by
    simpa [Session.restore] using history.current.selection.clamp_fits history.current.text
  settled _ := by simp [Session.restore]

theorem undo (h : Recorded limit s) : Recorded limit s.undo.1 := by
  unfold Session.undo
  simp only
  split
  · rename_i stepped
    exact restore (h.commitTyping.kept.undo? stepped)
  · exact h.commitTyping

theorem redo (h : Recorded limit s) : Recorded limit s.redo.1 := by
  unfold Session.redo
  simp only
  split
  · rename_i stepped
    exact restore (h.commitTyping.kept.redo? stepped)
  · exact h.commitTyping

theorem insertUploaded (h : Recorded limit s) (result : Except UploadError Text) :
    Recorded limit (s.insertUploaded result).1 := by
  unfold Session.insertUploaded
  split
  · exact ⟨h.kept, h.fits, h.settled⟩
  · exact h.commitTyping.commitEdit _

theorem save (h : Recorded limit s) (documents : MemoryStore) :
    Recorded limit (s.save documents).1 := by
  unfold Session.save
  split
  · exact h
  · split
    · exact h
    · exact ⟨h.kept, h.fits, h.settled⟩

theorem saveAs (h : Recorded limit s) (documents : MemoryStore) (target : Address) :
    Recorded limit (s.saveAs documents target).1 := by
  unfold Session.saveAs
  split
  · exact h
  · exact ⟨h.kept, h.fits, h.settled⟩

theorem step (h : Recorded limit s) (e : Event) : Recorded limit (s.step e) := by
  cases e with
  | input text selection now => exact h.input text selection now
  | select selection => exact ⟨h.kept, selection.clamp_fits s.buffer.text, h.settled⟩
  | flush now => exact h.flushTyping now
  | command command => exact h.applyCommand command
  | undo => exact h.undo
  | redo => exact h.redo
  | save documents => exact h.save documents
  | saveAs documents target => exact h.saveAs documents target
  | upload result => exact h.insertUploaded result
  | refresh => exact ⟨h.kept, h.fits, h.settled⟩
  | dismiss id => exact ⟨h.kept, h.fits, h.settled⟩
  | wake timer => exact ⟨h.kept, h.fits, h.settled⟩
  | finish job result => exact ⟨h.kept, h.fits, h.settled⟩
  | tick time => exact ⟨h.kept, h.fits, h.settled⟩

end Recorded

theorem Run.recorded {config : EditorConfig} {log : Scheduler.Log} (run : Run config log s) :
    Recorded config.historyLimit s := by
  refine Run.induct (motive := fun _ s => Recorded config.historyLimit s) ?begins ?keeps run
  case begins =>
    intro target buffer capabilities pos selection
    have fits : buffer.selection.Fits buffer.text := by
      rw [selection]
      exact Selection.cursor_fits buffer.text
    exact ⟨History.Kept.start fits pos, fits, fun _ => rfl⟩
  case keeps =>
    intro log s e _ ih _
    exact ih.step e

/-! ### One step back and one step forward -/

/-- An undo that does something goes one step back from the current text, recorded before. -/
theorem undo_of_true (done : s.undo.2 = true) :
    ∃ history, s.commitTyping.history.undo? = some history ∧
      s.undo.1 = s.commitTyping.restore history := by
  unfold undo at done ⊢
  simp only at done ⊢
  split at done
  · rename_i history stepped
    exact ⟨history, stepped, rfl⟩
  · cases done

theorem redo_of_true (done : s.redo.2 = true) :
    ∃ history, s.commitTyping.history.redo? = some history ∧
      s.redo.1 = s.commitTyping.restore history := by
  unfold redo at done ⊢
  simp only at done ⊢
  split at done
  · rename_i history stepped
    exact ⟨history, stepped, rfl⟩
  · cases done

/-- Recording what was typed does nothing when nothing was. -/
theorem commitTyping_of_idle (idle : s.typing.isPending = false) : s.commitTyping = s := by
  simp [commitTyping, idle]

theorem commitTyping_restore (s : Session) (history : History) :
    (s.commitTyping.restore history).commitTyping = s.commitTyping.restore history := by
  apply commitTyping_of_idle
  simpa [restore] using s.commitTyping_isPending

@[simp] theorem restore_history (s : Session) (history : History) :
    (s.restore history).history = history := by
  simp [restore]

@[simp] theorem restore_text (s : Session) (history : History) :
    (s.restore history).buffer.text = history.current.text := by
  simp [restore]

/-- The text of a session is the current one of the history once what was typed is recorded. -/
theorem Recorded.text_eq (h : Recorded limit s) :
    s.buffer.text = s.commitTyping.history.current.text := by
  simpa using h.commitTyping.settled s.commitTyping_isPending

theorem Recorded.redo_undo (h : Recorded limit s) (done : s.undo.2 = true) :
    s.undo.1.buffer.text ≠ s.buffer.text ∧ s.undo.1.redo.2 = true ∧
      s.undo.1.redo.1.buffer.text = s.buffer.text := by
  -- what was typed is recorded by the undo, so that nothing is typed when the redo comes
  obtain ⟨history, stepped, undone⟩ := undo_of_true done
  have back := History.redo?_of_undo? stepped
  rw [undone, h.text_eq]
  refine ⟨?_, ?_, ?_⟩
  · simpa using h.commitTyping.kept.text_ne_of_undo? stepped
  · simp [Session.redo, commitTyping_restore, back]
  · simp [Session.redo, commitTyping_restore, back]

theorem Recorded.undo_redo (h : Recorded limit s) (done : s.redo.2 = true) :
    s.redo.1.buffer.text ≠ s.buffer.text ∧ s.redo.1.undo.2 = true ∧
      s.redo.1.undo.1.buffer.text = s.buffer.text := by
  obtain ⟨history, stepped, redone⟩ := redo_of_true done
  have back := History.undo?_of_redo? stepped
  rw [redone, h.text_eq]
  refine ⟨?_, ?_, ?_⟩
  · simpa using ((h.commitTyping.kept.redo? stepped).text_ne_of_undo? back).symm
  · simp [Session.undo, commitTyping_restore, back]
  · simp [Session.undo, commitTyping_restore, back]

/-- **Undo and redo are inverse on the text.** In every run of a session: when nothing typed is
waiting to be recorded, the text is the current one of the history, which holds at least one and at
most the allowed number of snapshots, neighbouring ones with different texts; all selections lie on
boundaries of their texts; an undo that does something changes the text, and a redo right after it
does something and brings the text back; and the same with undo and redo exchanged. -/
theorem undo_redo_inverse {config : EditorConfig} {log : Scheduler.Log}
    (run : Run config log s) :
    ((s.typing.isPending = false → s.buffer.text = s.history.current.text) ∧
      1 ≤ s.history.size ∧ s.history.size ≤ config.historyLimit ∧
      s.history.cursor < s.history.size ∧
      s.history.texts.IsChain (· ≠ ·) ∧
      s.buffer.selection.Fits s.buffer.text ∧
      ∀ e ∈ s.history.entries, e.selection.Fits e.text) ∧
    (s.undo.2 = true →
      s.undo.1.buffer.text ≠ s.buffer.text ∧ s.undo.1.redo.2 = true ∧
        s.undo.1.redo.1.buffer.text = s.buffer.text) ∧
    (s.redo.2 = true →
      s.redo.1.buffer.text ≠ s.buffer.text ∧ s.redo.1.undo.2 = true ∧
        s.redo.1.undo.1.buffer.text = s.buffer.text) := by
  have h := run.recorded
  refine ⟨⟨h.settled, s.history.size_pos, h.kept.size_le, s.history.cursor_lt, h.kept.differ,
    h.fits, h.kept.fits⟩, ?_, ?_⟩
  · exact h.redo_undo
  · exact h.undo_redo

/-- A text that was typed and not recorded comes back, although the history is full. -/
theorem undo_redo_inverse_typed :
    ∃ log s, Run { historyLimit := 2, newDocumentTemplate := "" } log s ∧
      s.buffer.text = ['b'] ∧ s.history.texts = [[], ['a']] ∧ s.undo.2 = true ∧
      s.undo.1.history.texts = [['a'], ['b']] ∧
      s.undo.1.redo.1.buffer.text = s.buffer.text := by
  have begun : Run { historyLimit := 2, newDocumentTemplate := "" } _ _ :=
    @Run.newDocument _ .empty _ rfl
  have typed : Run { historyLimit := 2, newDocumentTemplate := "" } _ _ :=
    (begun.step (.input ['a'] (.cursor 1) 0) trivial).step (.input ['b'] (.cursor 1) 2000) trivial
  exact ⟨_, _, typed, rfl, rfl, rfl, rfl, ((undo_redo_inverse typed).2.1 rfl).2.2⟩

end Folio.Session
