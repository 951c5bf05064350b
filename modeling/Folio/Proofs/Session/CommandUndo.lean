import Folio.Proofs.Editor.Additions
import Folio.Proofs.Session.Buttons

/-!
# Undoing a command

A command makes a state of its own, so an undo right after it goes back to the state before. What
comes back is what the history holds of that state: its text, which is the one before the command,
and a selection, which is the one before the command only if the history was told of it. It is told
when something typed is recorded, and not when the author merely selects. Main statements:

* `History.exists_undo?_record`: with room for two, a step back from a new state leads to the one
  before it;
* `undo_applyCommand_iff`: undo takes a command back, the selection included exactly if something
  typed was waiting or the history holds the selection;
* `undo_applyCommand_moved`: a selection that was moved before the command does not come back.
-/

namespace Folio

namespace History

variable {h : History} {s : Snapshot}

/-- After a snapshot was recorded, it is the current one. -/
theorem current_record_eq (h : History) (s : Snapshot) : (h.record s).current = s := by
  obtain ⟨text, selection⟩ := s
  rw [← zipper_present, zipper_record, Zipper.record]
  split
  · rename_i same
    dsimp only at same ⊢
    rw [same]
  · rfl

/-- The state before a new one comes back with a step, if there is room for both. -/
theorem exists_undo?_record (new : h.isNew s = true) (room : 1 < h.capacity) :
    ∃ h', (h.record s).undo? = some h' ∧ h'.current = h.current := by
  have able : (h.record s).undo?.isSome = true := by
    rw [isSome_undo?, canUndo_record_new new]
    exact decide_eq_true room
  obtain ⟨h', stepped⟩ := Option.isSome_iff_exists.1 able
  refine ⟨h', stepped, ?_⟩
  -- in the picture the new state was put before a past that begins with the current one
  have other : s.text ≠ h.zipper.present.text := isNew_iff.1 new
  have pictured := map_zipper_undo? (h.record s)
  obtain ⟨more, room_eq⟩ : ∃ more, h.capacity - 1 = more + 1 := ⟨h.capacity - 2, by omega⟩
  rw [stepped, zipper_record, Zipper.record, if_neg other, room_eq, List.take_succ_cons,
    Option.map_some] at pictured
  exact Option.some.inj (congrArg (Option.map Zipper.present) pictured)

end History

namespace Session

variable {config : EditorConfig} {log : Scheduler.Log} {s : Session}

/-- A command that succeeds makes an edit after what was typed is recorded. -/
theorem exists_commitEdit_of_ok {command : Command} {outcome : CommandOutcome}
    (done : (s.applyCommand command).2 = .ok outcome) :
    ∃ edit, (s.applyCommand command).1 = (s.commitTyping.commitEdit edit).1 := by
  unfold applyCommand at done ⊢
  simp only at done ⊢
  split at done
  · cases done
  · exact ⟨_, rfl⟩

/-- An edit after which nothing typed is waiting is taken back by an undo: the state that was current
in the history comes back. -/
theorem undo_commitEdit {limit : Nat} {edit : Edit} (h : Recorded limit s) (room : 2 ≤ limit)
    (idle : s.typing.isPending = false) (changed : edit.text ≠ s.buffer.text) :
    (s.commitEdit edit).1.undo.2 = true ∧
      (s.commitEdit edit).1.undo.1.buffer.text = s.buffer.text ∧
      (s.commitEdit edit).1.undo.1.buffer.selection = s.history.current.selection := by
  have current : s.history.current.text = s.buffer.text := (h.settled idle).symm
  let edited : Snapshot := { text := edit.text, selection := edit.selection.clamp edit.text }
  have history : (s.commitEdit edit).1.history = s.history.record edited := by
    simp [commitEdit, record, snapshot, edited]
  have quiet : (s.commitEdit edit).1.commitTyping = (s.commitEdit edit).1 :=
    commitTyping_of_idle (by simpa [commitEdit, record] using idle)
  have new : s.history.isNew edited = true := History.isNew_iff.2 (by rwa [current])
  obtain ⟨before, stepped, same⟩ := History.exists_undo?_record new
    (by rw [h.kept.capacity_eq]; exact room)
  have fits : s.history.current.selection.Fits s.history.current.text :=
    h.kept.fits _ (List.get_mem _ _)
  have undone : (s.commitEdit edit).1.undo = ((s.commitEdit edit).1.restore before, true) := by
    rw [undo, quiet, history, stepped]
  rw [undone]
  refine ⟨rfl, ?_, ?_⟩
  · rw [restore_text, same, current]
  · rw [restore, replace_selection, same, Selection.clamp_of_fits fits]

/-- The selection in the history, once what was typed is recorded, is the one of the session if
something typed was waiting, and what it was if nothing was. -/
theorem current_commitTyping_selection (s : Session) :
    s.commitTyping.history.current.selection =
      if s.typing.isPending then s.buffer.selection else s.history.current.selection := by
  rw [commitTyping_history]
  split
  · rw [History.current_record_eq]
    rfl
  · rfl

/-- **Undo takes a command back.** In every run of a session whose history has room for two states,
after a command that succeeds and changes the text an undo does something and brings the text back.
The selection that comes back is the one before the command if something typed was waiting to be
recorded, and the one that the history holds if nothing was; so it is the one before the command
exactly if something typed was waiting or the history holds it. -/
theorem undo_applyCommand_iff (run : Run config log s) (room : 2 ≤ config.historyLimit)
    {command : Command} {outcome : CommandOutcome}
    (done : (s.applyCommand command).2 = .ok outcome)
    (changed : (s.applyCommand command).1.buffer.text ≠ s.buffer.text) :
    (s.applyCommand command).1.undo.2 = true ∧
      (s.applyCommand command).1.undo.1.buffer.text = s.buffer.text ∧
      (s.applyCommand command).1.undo.1.buffer.selection =
        (if s.typing.isPending then s.buffer.selection else s.history.current.selection) ∧
      ((s.applyCommand command).1.undo.1.buffer.selection = s.buffer.selection ↔
        s.typing.isPending = true ∨ s.history.current.selection = s.buffer.selection) := by
  obtain ⟨edit, applied⟩ := exists_commitEdit_of_ok done
  rw [applied] at changed ⊢
  have changed' : edit.text ≠ s.commitTyping.buffer.text := by
    rw [commitTyping_buffer]
    simpa [commitEdit, Session.record] using changed
  obtain ⟨undone, text, selection⟩ :=
    undo_commitEdit run.recorded.commitTyping room s.commitTyping_isPending changed'
  rw [current_commitTyping_selection] at selection
  refine ⟨undone, by rw [text, commitTyping_buffer], selection, ?_⟩
  rw [selection]
  split
  · rename_i pending
    exact iff_of_true rfl (.inl pending)
  · rename_i idle
    exact (or_iff_right idle).symm

/-- A text is typed with a part of it selected: the part is selected again when bold is taken
back, although the history was full. -/
theorem undo_applyCommand_iff_typed :
    ∃ log s, Run { historyLimit := 2, newDocumentTemplate := "" } log s ∧
      s.buffer.text = ['a', 'b'] ∧ s.typing.isPending = true ∧
      (s.applyCommand .bold).2 = .ok { selection := ⟨3, 4⟩, restoreFocus := true, recorded := true } ∧
      (s.applyCommand .bold).1.buffer.text ≠ s.buffer.text ∧
      (s.applyCommand .bold).1.undo.1.buffer.selection = s.buffer.selection := by
  have begun : Run { historyLimit := 2, newDocumentTemplate := "" } _ _ :=
    @Run.newDocument _ .empty _ rfl
  have typed : Run { historyLimit := 2, newDocumentTemplate := "" } _ _ :=
    begun.step (.input ['a', 'b'] ⟨1, 2⟩ 0) trivial
  refine ⟨_, _, typed, rfl, rfl, rfl, by decide, ?_⟩
  exact ((undo_applyCommand_iff typed (Nat.le_refl 2) rfl (by decide)).2.2.2).2 (.inl rfl)

/-- A selection that is moved when nothing typed is waiting does not come back. -/
theorem undo_applyCommand_moved :
    ∃ log s, Run { historyLimit := 2, newDocumentTemplate := "ab" } log s ∧
      (s.applyCommand .bold).2 = .ok { selection := ⟨3, 4⟩, restoreFocus := true, recorded := true } ∧
      (s.applyCommand .bold).1.buffer.text = "a**b**".toList ∧
      (s.applyCommand .bold).1.undo.1.buffer.text = s.buffer.text ∧
      s.buffer.selection = ⟨1, 2⟩ ∧
      (s.applyCommand .bold).1.undo.1.buffer.selection = ⟨0, 0⟩ := by
  have begun : Run { historyLimit := 2, newDocumentTemplate := "ab" } _ _ :=
    @Run.newDocument _ .empty _ rfl
  exact ⟨_, _, begun.step (.select ⟨1, 2⟩) trivial, rfl, rfl, rfl, rfl, rfl⟩

end Session
end Folio
