import Folio.Proofs.History.Kept
import Mathlib.Data.List.Destutter
import Mathlib.Data.List.DropRight

/-!
# Histories that were only told

A history that was told one text after another, and never went back, holds the latest of them.
`Holds ts h` says so of the texts `ts`: each that equals the one before it is left out, and of the
others there are as many as the history has room for. Main statement: recording keeps this.
-/

namespace Folio.History

/-! ### Lists of texts -/

section Lists

variable {α : Type*}

/-- The latest of some entries and one more. -/
theorem rtake_concat (l : List α) (a : α) {n : Nat} (pos : 0 < n) :
    (l.rtake n ++ [a]).rtake n = (l ++ [a]).rtake n := by
  obtain ⟨n, rfl⟩ := Nat.exists_eq_succ_of_ne_zero (Nat.ne_of_gt pos)
  rw [List.rtake_concat_succ, List.rtake_concat_succ, List.rtake, List.rtake, List.rtake,
    List.drop_drop, List.length_drop]
  congr 2
  omega

theorem getLast?_rtake (l : List α) {n : Nat} (pos : 0 < n) : (l.rtake n).getLast? = l.getLast? := by
  rw [List.rtake, List.getLast?_drop]
  split
  · rename_i short
    have empty : l = [] := List.length_eq_zero_iff.1 (by omega)
    rw [empty]
    rfl
  · rfl

variable [DecidableEq α]

theorem getLast?_destutter' (a : α) (l : List α) :
    (l.destutter' (· ≠ ·) a).getLast? = (a :: l).getLast? := by
  induction l generalizing a with
  | nil => rfl
  | cons b l ih =>
    rw [List.getLast?_cons_cons]
    by_cases same : a = b
    · rw [List.destutter'_cons_neg _ (not_not.2 same), ih, same]
    · rw [List.destutter'_cons_pos _ same, ← ih b]
      cases rest : l.destutter' (· ≠ ·) b with
      | nil => exact absurd rest (List.destutter'_ne_nil l _)
      | cons c rest => rw [List.getLast?_cons_cons]

theorem destutter'_concat (a : α) (l : List α) (b : α) :
    (l ++ [b]).destutter' (· ≠ ·) a =
      if (a :: l).getLast? = some b then l.destutter' (· ≠ ·) a
      else l.destutter' (· ≠ ·) a ++ [b] := by
  induction l generalizing a with
  | nil =>
    by_cases same : a = b
    · simp [same]
    · simp [same]
  | cons c l ih =>
    rw [List.cons_append, List.getLast?_cons_cons]
    by_cases same : a = c
    · rw [List.destutter'_cons_neg _ (not_not.2 same), List.destutter'_cons_neg _ (not_not.2 same),
        ih, same]
    · rw [List.destutter'_cons_pos _ same, List.destutter'_cons_pos _ same, ih]
      split <;> rfl

end Lists

/-! ### What recording keeps -/

/-- The history has room for some states and was told some texts, the first of them at its start: it
holds the latest ones, and its newest state is the current one. -/
structure Holds (room : Nat) (ts : List Text) (h : History) : Prop where
  capacity_eq : h.capacity = room
  texts_eq : h.texts = (ts.destutter (· ≠ ·)).rtake room
  newest : h.cursor + 1 = h.size

variable {room : Nat} {h : History} {ts : List Text} {t : Text}

theorem Holds.start (initial : Snapshot) (pos : 0 < room) :
    Holds room [initial.text] (start initial room) where
  capacity_eq := Nat.max_eq_left pos
  texts_eq := by
    obtain ⟨n, rfl⟩ := Nat.exists_eq_succ_of_ne_zero (Nat.ne_of_gt pos)
    rw [List.destutter_singleton, ← List.nil_append [initial.text], List.rtake_concat_succ,
      List.rtake_nil]
    rfl
  newest := rfl

/-- At the newest state all texts are those up to the current one. -/
theorem take_texts_of_newest (newest : h.cursor + 1 = h.size) :
    h.texts.take (h.cursor + 1) = h.texts := by
  rw [newest, size, texts, ← List.length_map (f := Snapshot.text), List.take_length]

namespace Holds

variable (holds : Holds room (t :: ts) h)

include holds

/-- The current text is the one that was told last. -/
theorem current_text : (t :: ts).getLast? = some h.current.text := by
  have last : h.texts.getLast? = some h.current.text := by
    rw [← take_texts_of_newest holds.newest, take_texts, List.getLast?_concat]
  have pos : 0 < room := holds.capacity_eq ▸ h.capacity_pos
  rwa [holds.texts_eq, getLast?_rtake _ pos, List.destutter_cons', getLast?_destutter'] at last

theorem record (s : Snapshot) : Holds room (t :: ts ++ [s.text]) (h.record s) := by
  have told : (t :: ts ++ [s.text]).destutter (· ≠ ·) =
      if (t :: ts).getLast? = some s.text then (t :: ts).destutter (· ≠ ·)
      else (t :: ts).destutter (· ≠ ·) ++ [s.text] := destutter'_concat t ts s.text
  have capacity := holds.capacity_eq
  rw [holds.current_text] at told
  by_cases new : h.isNew s = true
  · have other : some h.current.text ≠ some s.text := fun same =>
      isNew_iff.1 new (Option.some.inj same).symm
    refine ⟨(record_capacity h s).trans capacity, ?_, ?_⟩
    · rw [texts_record_new new, take_texts_of_newest holds.newest, told, if_neg other, holds.texts_eq,
        capacity, ← rtake_concat _ _ (capacity ▸ h.capacity_pos)]
      rfl
    · have pos := h.entriesWith_length_pos s
      simp only [History.record, if_pos new, size]
      omega
  · refine ⟨(record_capacity h s).trans capacity, ?_, ?_⟩
    · rw [texts_record_old new, told, if_pos (congrArg some (text_eq_of_old new).symm), holds.texts_eq]
    · simpa [History.record, if_neg new, size] using holds.newest

end Holds

end Folio.History
