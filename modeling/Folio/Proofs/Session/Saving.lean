import Folio.Proofs.Session.Run
import Folio.Proofs.Storage.Agreement
import Mathlib.Logic.Relation

/-!
# Saving

A session is saved as a whole or not at all. What was saved last and where it was saved is changed
by nothing else, so that a session is dirty exactly while its text is not the one in the store. Main
statements:

* `store_eq`: writing over a document or adding it is refused for its address only;
* `step_sameSave`: an event that saves nothing keeps what was saved and where;
* `saving_is_all_or_nothing`: what a try to save does, and when the session is dirty afterwards.
-/

namespace Folio

namespace MemoryStore

variable {m m' : MemoryStore} {a : Address} {text : Text}

theorem get_set (valid : a.check = .ok ()) : (m.set a text).get a = .ok text := by
  have found : (m.set a text).find? a = some text := by rw [find?_set, if_pos rfl]
  rw [get, valid, found]
  rfl

/-- A document is added where there is none. -/
theorem create_eq_ok_iff :
    m.create a text = .ok m' ↔ a.check = .ok () ∧ m.find? a = none ∧ m' = m.set a text := by
  rw [create]
  cases a.check with
  | error e => simp [bind, Except.bind]
  | ok _ =>
    cases m.find? a with
    | none => simp [bind, Except.bind, pure, Except.pure, eq_comm]
    | some old => simp [bind, Except.bind, throw, throwThe, MonadExceptOf.throw]

end MemoryStore

namespace Session

/-! ### Writing to a store -/

/-- A text is written over a document or added as one, unless the address is not allowed. -/
theorem store_eq (documents : MemoryStore) (target : Address) (text : Text) :
    store documents target text = target.check.map fun _ => documents.set target text := by
  unfold store MemoryStore.put
  cases valid : target.check with
  | error e =>
    -- an address that is not allowed is no document that is missing
    have other : ∀ a, e ≠ .notFound a := by
      rintro a rfl
      cases category : Address.isValidSegment target.category <;>
        cases name : Address.isValidSegment target.name <;>
          simp [Address.check, Address.checkSegment, category, name, bind, Except.bind] at valid
    cases e with
    | notFound a => exact absurd rfl (other a)
    | alreadyExists a => rfl
    | invalidName segment => rfl
    | file error => rfl
  | ok _ =>
    cases found : documents.find? target with
    | some old => rfl
    | none => exact MemoryStore.create_eq_ok_iff.2 ⟨valid, found, rfl⟩

/-! ### Tries to save -/

/-- A way to save: where the document belongs, or in a new place. -/
inductive Try
  | save
  | saveAs (target : Address)
  deriving DecidableEq, Repr

/-- The session and the store after a try to save, and whether it succeeded. -/
def attempt (s : Session) (documents : MemoryStore) :
    Try → Session × MemoryStore × Except EditorError Unit
  | .save => s.save documents
  | .saveAs target => s.saveAs documents target

/-- Where a try to save writes. -/
def place? (s : Session) : Try → Option Address
  | .save => s.target
  | .saveAs target => some target

/-- Whether a text may be written at an address: a new place must be free. -/
def Allows (documents : MemoryStore) (target : Address) : Try → Prop
  | .save => target.check = .ok ()
  | .saveAs _ => target.check = .ok () ∧ documents.find? target = none

variable {s t : Session} {documents : MemoryStore}

/-- A session whose text has been saved at an address. -/
def savedAt (s : Session) (target : Address) : Session :=
  { s with target := some target, buffer := s.buffer.markSaved }

/-- A try to save writes the text at an address that allows it, or is refused and changes nothing. -/
theorem attempt_cases (s : Session) (documents : MemoryStore) (way : Try) :
    (∃ e, s.attempt documents way = (s, documents, .error e) ∧
        ∀ target, s.place? way = some target → ¬ Allows documents target way) ∨
      ∃ target, s.place? way = some target ∧ Allows documents target way ∧
        s.attempt documents way =
          (s.savedAt target, documents.set target s.buffer.text, .ok ()) := by
  cases way with
  | save =>
    simp only [attempt, place?]
    unfold save
    cases belongs : s.target with
    | none => exact .inl ⟨_, rfl, nofun⟩
    | some target =>
      dsimp only
      rw [store_eq]
      cases valid : target.check with
      | error e =>
        refine .inl ⟨_, rfl, ?_⟩
        rintro _ ⟨⟩ allowed
        rw [Allows, valid] at allowed
        cases allowed
      | ok _ => exact .inr ⟨target, rfl, valid, by simp [savedAt, Except.map]⟩
  | saveAs target =>
    simp only [attempt, place?]
    unfold saveAs
    cases made : documents.create target s.buffer.text with
    | error e =>
      refine .inl ⟨_, rfl, ?_⟩
      rintro _ ⟨⟩ ⟨valid, free⟩
      rw [MemoryStore.create_eq_ok_iff.2 ⟨valid, free, rfl⟩] at made
      cases made
    | ok written =>
      obtain ⟨valid, free, rfl⟩ := MemoryStore.create_eq_ok_iff.1 made
      exact .inr ⟨target, rfl, ⟨valid, free⟩, rfl⟩

/-! ### What was saved -/

/-- Two sessions belong to the same place, and the same text was saved last. -/
structure SameSave (s t : Session) : Prop where
  target : t.target = s.target
  baseline : t.buffer.baseline = s.buffer.baseline

namespace SameSave

theorem refl (s : Session) : SameSave s s := ⟨rfl, rfl⟩

theorem trans {u : Session} (h : SameSave s t) (h' : SameSave t u) : SameSave s u :=
  ⟨h'.target.trans h.target, h'.baseline.trans h.baseline⟩

end SameSave

variable (s)

theorem sameSave_commitTyping : SameSave s s.commitTyping := by
  unfold commitTyping
  split <;> exact ⟨rfl, rfl⟩

theorem sameSave_flushTyping (now : Nat) : SameSave s (s.flushTyping now).1 := by
  unfold flushTyping
  split <;> exact ⟨rfl, rfl⟩

theorem sameSave_replace (text : Text) (selection : Selection) :
    SameSave s (s.replace text selection) := by
  unfold replace
  dsimp only
  split <;> exact ⟨rfl, rfl⟩

theorem sameSave_input (text : Text) (selection : Selection) (now : Nat) :
    SameSave s (s.input text selection now) := by
  have replaced := (sameSave_flushTyping s now).trans (sameSave_replace _ text selection)
  unfold input
  dsimp only
  split
  · exact ⟨replaced.target, replaced.baseline⟩
  · exact replaced

theorem sameSave_commitEdit (edit : Edit) : SameSave s (s.commitEdit edit).1 :=
  have replaced := sameSave_replace s edit.text edit.selection
  ⟨replaced.target, replaced.baseline⟩

theorem sameSave_applyCommand (command : Command) : SameSave s (s.applyCommand command).1 := by
  unfold applyCommand
  dsimp only
  split
  · exact sameSave_commitTyping s
  · exact (sameSave_commitTyping s).trans (sameSave_commitEdit _ _)

theorem sameSave_restore (history : History) : SameSave s (s.restore history) :=
  have replaced := sameSave_replace { s with history } history.current.text history.current.selection
  ⟨replaced.target, replaced.baseline⟩

theorem sameSave_undo : SameSave s s.undo.1 := by
  unfold undo
  dsimp only
  split
  · exact (sameSave_commitTyping s).trans (sameSave_restore _ _)
  · exact sameSave_commitTyping s

theorem sameSave_redo : SameSave s s.redo.1 := by
  unfold redo
  dsimp only
  split
  · exact (sameSave_commitTyping s).trans (sameSave_restore _ _)
  · exact sameSave_commitTyping s

theorem sameSave_insertUploaded (result : Except UploadError Text) :
    SameSave s (s.insertUploaded result).1 := by
  unfold insertUploaded
  split
  · exact ⟨rfl, rfl⟩
  · exact (sameSave_commitTyping s).trans (sameSave_commitEdit _ _)

/-- A try that is refused changes nothing. -/
theorem attempt_of_refused {way : Try} (refused : (s.attempt documents way).2.2.isOk = false) :
    (s.attempt documents way).1 = s ∧ (s.attempt documents way).2.1 = documents := by
  rcases attempt_cases s documents way with ⟨e, eq, -⟩ | ⟨target, -, -, eq⟩
  · rw [eq]
    exact ⟨rfl, rfl⟩
  · rw [eq] at refused
    cases refused

/-! ### Between saves -/

/-- Whether an event saves the text. -/
def saves : Event → Bool
  | .save documents => (s.attempt documents .save).2.2.isOk
  | .saveAs documents target => (s.attempt documents (.saveAs target)).2.2.isOk
  | _ => false

variable {s}

/-- An event that saves nothing keeps what was saved and where. -/
theorem step_sameSave {e : Event} (unsaved : s.saves e = false) : SameSave s (s.step e) := by
  cases e with
  | input text selection now => exact sameSave_input s text selection now
  | flush now => exact sameSave_flushTyping s now
  | command command => exact sameSave_applyCommand s command
  | undo => exact sameSave_undo s
  | redo => exact sameSave_redo s
  | upload result => exact sameSave_insertUploaded s result
  | save documents =>
    have same : s.step (.save documents) = s := (attempt_of_refused s unsaved).1
    rw [same]
    exact .refl s
  | saveAs documents target =>
    have same : s.step (.saveAs documents target) = s := (attempt_of_refused s unsaved).1
    rw [same]
    exact .refl s
  | select | refresh | dismiss | wake | finish | tick => exact ⟨rfl, rfl⟩

/-- Something happens to a session that does not save it. -/
def Changes (s t : Session) : Prop := ∃ e, s.Possible e ∧ s.saves e = false ∧ t = s.step e

/-- What was saved and where stays the same until a session is saved again. -/
theorem sameSave_of_changes (run : Relation.ReflTransGen Changes s t) : SameSave s t := by
  induction run with
  | refl => exact .refl s
  | tail _ change ih =>
    obtain ⟨e, -, unsaved, rfl⟩ := change
    exact ih.trans (step_sameSave unsaved)

/-- **Saving is all or nothing.** Where the document belongs or in a new place, a try to save that is
refused leaves the session and the store as they were, and it is refused exactly if there is no place,
its name is not allowed, or a new place is not free. After one that succeeds the store has the text
of the session at the place where the session then belongs, and all other documents as before; the
session is otherwise unchanged and not dirty. From there on, whatever happens until it is saved
again, it is dirty exactly if its text is not the one in the store. -/
theorem saving_is_all_or_nothing (s : Session) (documents : MemoryStore) (way : Try) :
    (∀ e, (s.attempt documents way).2.2 = .error e →
      (s.attempt documents way).1 = s ∧ (s.attempt documents way).2.1 = documents ∧
        ∀ target, s.place? way = some target → ¬ Allows documents target way) ∧
    ((s.attempt documents way).2.2 = .ok () →
      ∃ target, s.place? way = some target ∧ Allows documents target way ∧
        (s.attempt documents way).1 = s.savedAt target ∧
        (s.attempt documents way).2.1.get target = .ok (s.attempt documents way).1.buffer.text ∧
        (∀ a, a ≠ target → (s.attempt documents way).2.1.find? a = documents.find? a) ∧
        (s.attempt documents way).1.buffer.isDirty = false ∧
        ∀ t, Relation.ReflTransGen Changes (s.attempt documents way).1 t →
          t.target = some target ∧
            (t.buffer.isDirty = true ↔
              (s.attempt documents way).2.1.get target ≠ .ok t.buffer.text)) := by
  rcases attempt_cases s documents way with ⟨e, eq, denied⟩ | ⟨target, place, allowed, eq⟩
  · rw [eq]
    exact ⟨fun _ _ => ⟨rfl, rfl, denied⟩, nofun⟩
  · have valid : target.check = .ok () := by
      cases way with
      | save => exact allowed
      | saveAs new => exact allowed.1
    have kept : (documents.set target s.buffer.text).get target = .ok s.buffer.text :=
      MemoryStore.get_set valid
    rw [eq]
    refine ⟨nofun, fun _ => ⟨target, place, allowed, rfl, kept, ?_, ?_, ?_⟩⟩
    · intro a other
      rw [MemoryStore.find?_set, if_neg other]
    · simp [savedAt, Buffer.isDirty, Buffer.markSaved]
    · intro t run
      have same := sameSave_of_changes run
      have baseline : t.buffer.baseline = s.buffer.text := same.baseline
      refine ⟨same.target, ?_⟩
      rw [kept, Buffer.isDirty, baseline, bne_iff_ne, ne_eq, ne_eq, Except.ok.injEq, eq_comm]

/-- A draft has no place to be saved, and `..` is no name for it. Saved as a note it is clean, dirty
when something else is typed, and clean again when that is undone. -/
theorem saving_is_all_or_nothing_draft :
    ∃ (draft : Session) (note hidden : Address) (typed : Session),
      (draft.attempt {} .save).1 = draft ∧ ¬ Allows {} hidden (.saveAs hidden) ∧
        (draft.attempt {} (.saveAs note)).2.1.get note = .ok ['a'] ∧
        Changes (draft.attempt {} (.saveAs note)).1 typed ∧
        typed.buffer.isDirty = true ∧ typed.undo.1.buffer.isDirty = false := by
  let draft : Session := build none (.unsaved ['a']) {} .empty
  have refused := (saving_is_all_or_nothing draft {} .save).1 .noSaveTarget rfl
  have forbidden := (saving_is_all_or_nothing draft {}
    (.saveAs { category := "notes", name := ".." })).1 (.store (.invalidName "..")) rfl
  obtain ⟨target, place, -, saved, kept, -, -, later⟩ :=
    (saving_is_all_or_nothing draft {} (.saveAs { category := "notes", name := "a" })).2 rfl
  cases place
  have typing : Changes (draft.attempt {} (.saveAs { category := "notes", name := "a" })).1 _ :=
    ⟨.input ['b'] (.cursor 1) 0, trivial, rfl, rfl⟩
  have undoing := Relation.ReflTransGen.single typing |>.tail ⟨.undo, trivial, rfl, rfl⟩
  refine ⟨draft, _, _, _, refused.1, forbidden.2.2 _ rfl, kept, typing, ?dirty, ?clean⟩
  case dirty =>
    exact (later _ (.single typing)).2.2 fun same => by cases kept.symm.trans same
  case clean =>
    exact Bool.eq_false_iff.2 fun dirty => (later _ undoing).2.1 dirty kept

end Session
end Folio
