import Folio.Proofs.History.Zipper
import Folio.Proofs.Session.UndoRedo

/-!
# The undo and redo buttons

The button of a step is shown as working when the history has a state to go to. What was typed is
recorded before the step: then there is nothing to redo, and something to undo unless the history
has no room for the state before. Main statements:

* `undo_works` and `redo_works`: a step does something when the history, with what was typed
  recorded, has a state to go to;
* `works_iff_shown`: in every run, redo works exactly when it is shown as working, and undo too
  unless something typed waits for a history with room for one state;
* `shown_without_room`: there undo is shown as working and does nothing.
-/

namespace Folio

/-! ### What recording leaves to go to -/

namespace History

variable {h : History} {s : Snapshot}

/-- A new state is the newest. -/
theorem canRedo_record_new (new : h.isNew s = true) : (h.record s).canRedo = false := by
  have other : s.text ≠ h.zipper.present.text := isNew_iff.1 new
  rw [← isEmpty_zipper_future, zipper_record, Zipper.record, if_neg other]
  rfl

/-- The state before a new one is kept if there is room for both. -/
theorem canUndo_record_new (new : h.isNew s = true) :
    (h.record s).canUndo = decide (1 < h.capacity) := by
  have other : s.text ≠ h.zipper.present.text := isNew_iff.1 new
  have pos := h.capacity_pos
  rw [← isEmpty_zipper_past, zipper_record, Zipper.record, if_neg other, Bool.eq_iff_iff]
  simp
  omega

theorem canRedo_record_old (old : h.isNew s ≠ true) : (h.record s).canRedo = h.canRedo := by
  simp [record, if_neg old, canRedo]

theorem canUndo_record_old (old : h.isNew s ≠ true) : (h.record s).canUndo = h.canUndo := by
  simp [record, if_neg old, canUndo]

theorem isSome_undo? (h : History) : h.undo?.isSome = h.canUndo := by
  unfold undo?
  split
  · rename_i able
    exact able.symm
  · rename_i unable
    exact (eq_false_of_ne_true unable).symm

theorem isSome_redo? (h : History) : h.redo?.isSome = h.canRedo := by
  unfold redo?
  split
  · rename_i able
    exact (decide_eq_true able).symm
  · rename_i unable
    exact (decide_eq_false unable).symm

end History

namespace Session

variable {config : EditorConfig} {log : Scheduler.Log} {s : Session}

/-! ### What a step does -/

/-- The history of a session once what was typed is recorded. -/
theorem commitTyping_history (s : Session) :
    s.commitTyping.history =
      if s.typing.isPending then s.history.record s.snapshot else s.history := by
  unfold commitTyping
  split <;> rfl

theorem undo_works (s : Session) : s.undo.2 = s.commitTyping.history.canUndo := by
  rw [← History.isSome_undo?, undo]
  cases s.commitTyping.history.undo? with
  | none => rfl
  | some history => rfl

theorem redo_works (s : Session) : s.redo.2 = s.commitTyping.history.canRedo := by
  rw [← History.isSome_redo?, redo]
  cases s.commitTyping.history.redo? with
  | none => rfl
  | some history => rfl

/-! ### What is typed and not recorded -/

/-- When nothing new is typed, a step has the history as it stands. -/
theorem works_of_committed (committed : s.hasUncommittedTyping = false) :
    s.undo.2 = s.history.canUndo ∧ s.redo.2 = s.history.canRedo := by
  rw [undo_works, redo_works, commitTyping_history]
  split
  · rename_i pending
    have old : s.history.isNew s.snapshot ≠ true := by
      simpa [hasUncommittedTyping, pending, isNew] using committed
    exact ⟨History.canUndo_record_old old, History.canRedo_record_old old⟩
  · exact ⟨rfl, rfl⟩

/-- When something new is typed, a step finds it as the newest state, and the state before it if
there is room for both. -/
theorem works_of_uncommitted (uncommitted : s.hasUncommittedTyping = true) :
    s.undo.2 = decide (1 < s.history.capacity) ∧ s.redo.2 = false := by
  obtain ⟨pending, new⟩ := Bool.and_eq_true_iff.1 uncommitted
  -- The new state clears what was undone, and takes the place of the one before if there is only one.
  rw [undo_works, redo_works, commitTyping_history, if_pos pending]
  exact ⟨History.canUndo_record_new new, History.canRedo_record_new new⟩

/-- **The buttons work when they are shown.** In every run of a session, redo does something exactly
when it is shown as working. So does undo, except that it is shown and does nothing while something
typed is not recorded and the history has room for one state only. -/
theorem works_iff_shown (run : Run config log s) :
    (s.redo.2 = true ↔ s.canRedo = true) ∧
      (s.undo.2 = true ↔
        s.canUndo = true ∧ ¬(config.historyLimit = 1 ∧ s.hasUncommittedTyping = true)) := by
  have capacity := run.recorded.kept.capacity_eq
  have pos := s.history.capacity_pos
  cases typed : s.hasUncommittedTyping with
  | false =>
    obtain ⟨undone, redone⟩ := works_of_committed typed
    rw [undone, redone, canRedo, canUndo, typed]
    simp
  | true =>
    obtain ⟨undone, redone⟩ := works_of_uncommitted typed
    rw [undone, redone, canRedo, canUndo, typed, capacity]
    rw [capacity] at pos
    simp
    omega

/-- After an undo something else is typed: there is a state to undo and none to redo. -/
theorem works_iff_shown_typed :
    ∃ log s, Run { historyLimit := 2, newDocumentTemplate := "" } log s ∧
      s.history.canRedo = true ∧ s.hasUncommittedTyping = true ∧
      s.canRedo = false ∧ s.redo.2 = false ∧ s.canUndo = true ∧ s.undo.2 = true := by
  have begun : Run { historyLimit := 2, newDocumentTemplate := "" } _ _ :=
    @Run.newDocument _ .empty _ rfl
  have typed : Run { historyLimit := 2, newDocumentTemplate := "" } _ _ :=
    ((begun.step (.input ['a'] (.cursor 1) 0) trivial).step .undo trivial).step
      (.input ['b'] (.cursor 1) 5000) trivial
  obtain ⟨redone, undone⟩ := works_iff_shown typed
  refine ⟨_, _, typed, rfl, rfl, rfl, ?_, rfl, ?_⟩
  · exact eq_false_of_ne_true fun done => nomatch redone.1 done
  · exact undone.2 ⟨rfl, fun full => nomatch full.1⟩

/-- What is typed first takes the only place of a history with room for one state. -/
theorem shown_without_room :
    ∃ log s, Run { historyLimit := 1, newDocumentTemplate := "" } log s ∧
      s.canUndo = true ∧ s.undo.2 = false := by
  have begun : Run { historyLimit := 1, newDocumentTemplate := "" } _ _ :=
    @Run.newDocument _ .empty _ rfl
  exact ⟨_, _, begun.step (.input ['a'] (.cursor 1) 0) trivial, rfl, rfl⟩

end Session
end Folio
