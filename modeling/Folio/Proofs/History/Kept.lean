import Folio.Editor.History
import Folio.Proofs.Text.Boundary
import Mathlib.Data.List.Chain

/-!
# What a history keeps

* `Kept limit` is the invariant of a history: it holds at most `limit` snapshots, neighbouring ones
  have different texts, and each selection lies on boundaries of the text that it belongs to;
* `Kept.record` says that recording keeps it;
* `redo?_of_undo?` and `undo?_of_redo?` say that a step back and a step forward take each other
  back, and `Kept.text_ne_of_undo?` that such a step changes the text.
-/

namespace Folio.History

/-- The texts of the snapshots, the oldest first. -/
def texts (h : History) : List Text := h.entries.map Snapshot.text

/-- What holds of every history that starts with a selection on boundaries. -/
structure Kept (limit : Nat) (h : History) : Prop where
  capacity_eq : h.capacity = limit
  size_le : h.size ≤ limit
  differ : h.texts.IsChain (· ≠ ·)
  fits : ∀ e ∈ h.entries, e.selection.Fits e.text

variable {limit : Nat} {h : History}

theorem size_pos (h : History) : 0 < h.size := Nat.lt_of_le_of_lt (Nat.zero_le _) h.cursor_lt

theorem texts_cursor (h : History) : h.texts[h.cursor]? = some h.current.text := by
  rw [texts, List.getElem?_map, List.getElem?_eq_getElem h.cursor_lt]
  rfl

/-- The texts up to the current one end in it. -/
theorem take_texts (h : History) :
    h.texts.take (h.cursor + 1) = h.texts.take h.cursor ++ [h.current.text] := by
  rw [List.take_add_one, texts_cursor]
  rfl

theorem isNew_iff {s : Snapshot} : h.isNew s = true ↔ s.text ≠ h.current.text := by
  simp [isNew]

theorem text_eq_of_old {s : Snapshot} (old : h.isNew s ≠ true) : s.text = h.current.text := by
  by_contra ne
  exact old (isNew_iff.2 ne)

/-! ### Recording -/

@[simp] theorem record_capacity (h : History) (s : Snapshot) :
    (h.record s).capacity = h.capacity := by
  unfold record
  split <;> rfl

/-- The current text after a snapshot was recorded is that of the snapshot. -/
@[simp] theorem current_record (h : History) (s : Snapshot) :
    (h.record s).current.text = s.text := by
  by_cases new : h.isNew s = true
  · have last : (h.entriesWith s).getLast? = some s := by
      have pos := h.capacity_pos
      rw [entriesWith, List.getLast?_drop, if_neg (by simp; omega)]
      simp
    simp only [record, if_pos new, current, List.get_eq_getElem]
    rw [List.getLast?_eq_getElem?, List.getElem?_eq_some_iff] at last
    obtain ⟨_, last⟩ := last
    rw [last]
  · simp [record, if_neg new, current, List.get_eq_getElem, text_eq_of_old new]

theorem texts_record_new {s : Snapshot} (new : h.isNew s = true) :
    (h.record s).texts =
      (h.texts.take (h.cursor + 1) ++ [s.text]).drop
        ((h.texts.take (h.cursor + 1) ++ [s.text]).length - h.capacity) := by
  simp [record, if_pos new, texts, entriesWith]

theorem texts_record_old {s : Snapshot} (old : h.isNew s ≠ true) :
    (h.record s).texts = h.texts := by
  have set : h.texts.set h.cursor h.current.text = h.texts := by
    apply List.ext_getElem?
    intro i
    rw [List.getElem?_set]
    split
    · rename_i eq
      rw [← eq, texts_cursor]
      simp [texts, h.cursor_lt]
    · rfl
  simpa [record, if_neg old, texts] using set

theorem Kept.record (kept : Kept limit h) {s : Snapshot} (fits : s.selection.Fits s.text) :
    Kept limit (h.record s) := by
  have capacity := kept.capacity_eq
  by_cases new : h.isNew s = true
  · refine ⟨(record_capacity h s).trans capacity, ?_, ?_, ?_⟩
    · simp only [History.record, if_pos new, size, entriesWith, List.length_drop]
      omega
    · -- what is dropped at the front leaves neighbours neighbours: only the last pair is new
      rw [texts_record_new new]
      refine List.IsChain.drop (List.IsChain.append (kept.differ.take _) (.singleton _) ?_) _
      intro x hx y hy
      rw [take_texts, List.getLast?_concat, Option.mem_some] at hx
      rw [List.head?_cons, Option.mem_some] at hy
      rw [← hx, ← hy]
      exact (isNew_iff.1 new).symm
    · intro e he
      simp only [History.record, if_pos new, entriesWith] at he
      rcases List.mem_append.1 (List.mem_of_mem_drop he) with he | he
      · exact kept.fits e (List.mem_of_mem_take he)
      · rw [List.mem_singleton.1 he]
        exact fits
  · refine ⟨(record_capacity h s).trans capacity, ?_, ?_, ?_⟩
    · simpa [History.record, if_neg new, size] using kept.size_le
    · rw [texts_record_old new]
      exact kept.differ
    · intro e he
      simp only [History.record, if_neg new] at he
      rcases List.mem_or_eq_of_mem_set he with he | he
      · exact kept.fits e he
      · rw [he]
        exact text_eq_of_old new ▸ fits

theorem Kept.start {initial : Snapshot} (fits : initial.selection.Fits initial.text)
    (pos : 0 < limit) : Kept limit (start initial limit) where
  capacity_eq := Nat.max_eq_left pos
  size_le := pos
  differ := .singleton _
  fits e he := by
    rw [List.mem_singleton.1 he]
    exact fits

/-! ### Going back and forth -/

theorem undo?_eq_some_iff {h' : History} :
    h.undo? = some h' ↔
      h'.entries = h.entries ∧ h'.capacity = h.capacity ∧ h'.cursor + 1 = h.cursor := by
  obtain ⟨entries, cursor, capacity, _, _⟩ := h
  obtain ⟨entries', cursor', capacity', _, _⟩ := h'
  simp only [undo?, canUndo, decide_eq_true_eq]
  constructor
  · intro e
    split at e
    · rename_i pos
      cases e
      exact ⟨rfl, rfl, Nat.sub_add_cancel pos⟩
    · cases e
  · rintro ⟨rfl, rfl, rfl⟩
    rw [if_pos (Nat.succ_pos cursor')]
    rfl

theorem redo?_eq_some_iff {h' : History} :
    h.redo? = some h' ↔
      h'.entries = h.entries ∧ h'.capacity = h.capacity ∧ h'.cursor = h.cursor + 1 := by
  obtain ⟨entries, cursor, capacity, _, _⟩ := h
  obtain ⟨entries', cursor', capacity', _, lt⟩ := h'
  simp only [redo?]
  constructor
  · intro e
    split at e
    · cases e
      exact ⟨rfl, rfl, rfl⟩
    · cases e
  · rintro ⟨rfl, rfl, rfl⟩
    rw [dif_pos lt]

theorem redo?_of_undo? {h' : History} (e : h.undo? = some h') : h'.redo? = some h := by
  obtain ⟨entries, capacity, cursor⟩ := undo?_eq_some_iff.1 e
  exact redo?_eq_some_iff.2 ⟨entries.symm, capacity.symm, cursor.symm⟩

theorem undo?_of_redo? {h' : History} (e : h.redo? = some h') : h'.undo? = some h := by
  obtain ⟨entries, capacity, cursor⟩ := redo?_eq_some_iff.1 e
  exact undo?_eq_some_iff.2 ⟨entries.symm, capacity.symm, cursor.symm⟩

/-- Only the snapshots and the capacity matter. -/
theorem Kept.congr {h' : History} (kept : Kept limit h) (entries : h'.entries = h.entries)
    (capacity : h'.capacity = h.capacity) : Kept limit h' where
  capacity_eq := capacity.trans kept.capacity_eq
  size_le := by
    rw [size, entries]
    exact kept.size_le
  differ := by
    rw [texts, entries]
    exact kept.differ
  fits := by
    rw [entries]
    exact kept.fits

theorem Kept.undo? {h' : History} (kept : Kept limit h) (e : h.undo? = some h') :
    Kept limit h' := by
  obtain ⟨entries, capacity, _⟩ := undo?_eq_some_iff.1 e
  exact kept.congr entries capacity

theorem Kept.redo? {h' : History} (kept : Kept limit h) (e : h.redo? = some h') :
    Kept limit h' := by
  obtain ⟨entries, capacity, _⟩ := redo?_eq_some_iff.1 e
  exact kept.congr entries capacity

/-- A step back changes the text. -/
theorem Kept.text_ne_of_undo? {h' : History} (kept : Kept limit h) (e : h.undo? = some h') :
    h'.current.text ≠ h.current.text := by
  obtain ⟨entries, _, cursor⟩ := undo?_eq_some_iff.1 e
  have here := h.texts_cursor
  have before := h'.texts_cursor
  rw [texts, entries, ← texts] at before
  rw [← cursor] at here
  obtain ⟨lt, here⟩ := List.getElem?_eq_some_iff.1 here
  obtain ⟨_, before⟩ := List.getElem?_eq_some_iff.1 before
  rw [← here, ← before]
  exact kept.differ.getElem h'.cursor lt

end Folio.History
