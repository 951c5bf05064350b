import Folio.Proofs.History.Kept

/-!
# Histories as zippers

A *zipper* is the picture that an author has of a history: the states before the current one, the
current one, and the states that were undone. What a history does with a list and a cursor, a zipper
does at its two open ends. `History.zipper` is the picture of a history. Main statements:

* `zipper_record`, `map_zipper_undo?` and `map_zipper_redo?`: one lemma for each operation, that it
  does to the history what it does to the picture; `zipper_apply` puts them together;
* `Zipper.Within.apply`: a zipper keeps to its room;
* `after_undos_redos`: undos and as many redos, at the newest state, lead back to it;
* `observe_eq_zipper`: a history and its picture cannot be told apart by what they answer and show.
-/

namespace Folio

/-! ### Operations and what they show -/

namespace History

/-- An operation on a history. -/
inductive Op
  | record (s : Snapshot)
  | undo
  | redo
  | reset (initial : Snapshot)
  deriving DecidableEq, Repr

/-- What an operation answers: whether a recorded state was new, the state that a step led to, or
nothing. -/
inductive Answer
  | recorded (isNew : Bool)
  | stepped (to? : Option Snapshot)
  | started
  deriving DecidableEq, Repr

/-- What can be asked at any time: the current state, the number of states, of older and of newer
ones, and whether there are any. -/
structure View where
  current : Snapshot
  size : Nat
  undoLevels : Nat
  redoLevels : Nat
  canUndo : Bool
  canRedo : Bool
  deriving DecidableEq, Repr

/-- The history after an operation, and its answer. -/
def apply (h : History) : Op → History × Answer
  | .record s => (h.record s, .recorded (h.isNew s))
  | .undo => (h.undo?.getD h, .stepped (h.undo?.map current))
  | .redo => (h.redo?.getD h, .stepped (h.redo?.map current))
  | .reset initial => (h.reset initial, .started)

/-- What a history shows. -/
def view (h : History) : View where
  current := h.current
  size := h.size
  undoLevels := h.undoLevels
  redoLevels := h.redoLevels
  canUndo := h.canUndo
  canRedo := h.canRedo

/-- The history after some operations. -/
def after (h : History) (ops : List Op) : History := ops.foldl (fun h op => (h.apply op).1) h

/-- The answer to each of some operations, and what the history shows after it. -/
def observe (h : History) : List Op → List (Answer × View)
  | [] => []
  | op :: ops => ((h.apply op).2, (h.apply op).1.view) :: observe (h.apply op).1 ops

end History

open History (Op Answer View)

/-- The states around the current one: those before it, the newest first, and those that were
undone, the nearest first. -/
structure Zipper where
  past : List Snapshot
  present : Snapshot
  future : List Snapshot
  deriving DecidableEq, Repr

namespace Zipper

/-- The zipper of a state that has not changed. -/
def start (initial : Snapshot) : Zipper := { past := [], present := initial, future := [] }

/-- Records a state in a zipper with room for some states. One with the current text only replaces
the selection; any other makes the present the newest of the past, and forgets the future. -/
def record (room : Nat) (z : Zipper) (s : Snapshot) : Zipper :=
  if s.text = z.present.text then
    { z with present := { z.present with selection := s.selection } }
  else { past := (z.present :: z.past).take (room - 1), present := s, future := [] }

/-- Takes the newest state of the past as the present, if there is one. -/
def undo? (z : Zipper) : Option Zipper :=
  match z.past with
  | [] => none
  | s :: past => some { past, present := s, future := z.present :: z.future }

/-- Takes the nearest state of the future as the present, if there is one. -/
def redo? (z : Zipper) : Option Zipper :=
  match z.future with
  | [] => none
  | s :: future => some { past := z.present :: z.past, present := s, future }

/-- The zipper after an operation, and its answer. -/
def apply (room : Nat) (z : Zipper) : Op → Zipper × Answer
  | .record s => (z.record room s, .recorded (s.text != z.present.text))
  | .undo => (z.undo?.getD z, .stepped (z.undo?.map present))
  | .redo => (z.redo?.getD z, .stepped (z.redo?.map present))
  | .reset initial => (start initial, .started)

/-- The number of states. -/
def size (z : Zipper) : Nat := z.past.length + 1 + z.future.length

/-- What a zipper shows. -/
def view (z : Zipper) : View where
  current := z.present
  size := z.size
  undoLevels := z.past.length
  redoLevels := z.future.length
  canUndo := !z.past.isEmpty
  canRedo := !z.future.isEmpty

/-- The answer to each of some operations, and what the zipper shows after it. -/
def observe (room : Nat) (z : Zipper) : List Op → List (Answer × View)
  | [] => []
  | op :: ops =>
    ((z.apply room op).2, (z.apply room op).1.view) :: observe room (z.apply room op).1 ops

/-! ### Room -/

/-- A zipper keeps to its room. -/
def Within (room : Nat) (z : Zipper) : Prop := z.size ≤ room

variable {room : Nat} {z : Zipper}

theorem Within.record (pos : 0 < room) (within : z.Within room) (s : Snapshot) :
    (z.record room s).Within room := by
  unfold Zipper.record
  split
  · exact within
  · have kept : ((z.present :: z.past).take (room - 1)).length ≤ room - 1 := List.length_take_le ..
    simp only [Within, size, List.length_nil]
    omega

/-- A step back moves one state to the other side. -/
theorem size_of_undo? {z' : Zipper} (e : z.undo? = some z') : z'.size = z.size := by
  obtain ⟨past, present, future⟩ := z
  cases past with
  | nil => cases e
  | cons s past =>
    cases e
    simp only [size, List.length_cons]
    omega

theorem size_of_redo? {z' : Zipper} (e : z.redo? = some z') : z'.size = z.size := by
  obtain ⟨past, present, future⟩ := z
  cases future with
  | nil => cases e
  | cons s future =>
    cases e
    simp only [size, List.length_cons]
    omega

theorem Within.apply (pos : 0 < room) (within : z.Within room) (op : Op) :
    (z.apply room op).1.Within room := by
  cases op with
  | record s => exact within.record pos s
  | reset initial => exact pos
  | undo =>
    cases e : z.undo? with
    | none => simpa [Zipper.apply, e] using within
    | some z' => simpa [Zipper.apply, e, Within, size_of_undo? e] using within
  | redo =>
    cases e : z.redo? with
    | none => simpa [Zipper.apply, e] using within
    | some z' => simpa [Zipper.apply, e, Within, size_of_redo? e] using within

end Zipper

/-! ### The picture of a history -/

namespace History

/-- The picture of a history. -/
def zipper (h : History) : Zipper where
  past := (h.entries.take h.cursor).reverse
  present := h.current
  future := h.entries.drop (h.cursor + 1)

variable (h : History)

@[simp] theorem zipper_present : h.zipper.present = h.current := rfl

@[simp] theorem length_zipper_past : h.zipper.past.length = h.undoLevels := by
  have := h.cursor_lt
  simp only [zipper, undoLevels, List.length_reverse, List.length_take]
  omega

@[simp] theorem length_zipper_future : h.zipper.future.length = h.redoLevels := by
  simp only [zipper, redoLevels, List.length_drop]
  omega

@[simp] theorem size_zipper : h.zipper.size = h.size := by
  have := h.cursor_lt
  simp only [Zipper.size, length_zipper_past, length_zipper_future, undoLevels, redoLevels, size]
  omega

theorem isEmpty_zipper_past : (!h.zipper.past.isEmpty) = h.canUndo := by
  rw [canUndo, Bool.eq_iff_iff]
  simp [← List.length_pos_iff, undoLevels]

theorem isEmpty_zipper_future : (!h.zipper.future.isEmpty) = h.canRedo := by
  rw [canRedo, Bool.eq_iff_iff]
  simp only [Bool.not_eq_true', List.isEmpty_eq_false_iff, ← List.length_pos_iff,
    length_zipper_future, redoLevels, decide_eq_true_eq]
  omega

/-- A history shows what its picture shows. -/
theorem view_zipper : h.zipper.view = h.view := by
  simp only [Zipper.view, view, zipper_present, size_zipper, length_zipper_past,
    length_zipper_future, isEmpty_zipper_past, isEmpty_zipper_future]

/-! ### Operations on the picture -/

variable {h : History} {z : Zipper}

/-- A picture tells the snapshots and the cursor. -/
theorem zipper_eq_iff :
    h.zipper = z ↔
      h.entries = z.past.reverse ++ z.present :: z.future ∧ h.cursor = z.past.length := by
  constructor
  · rintro rfl
    refine ⟨?_, (length_zipper_past h).symm⟩
    rw [zipper, List.reverse_reverse, current, List.get_eq_getElem, ← List.drop_eq_getElem_cons,
      List.take_append_drop]
  · rintro ⟨entries, cursor⟩
    obtain ⟨past, present, future⟩ := z
    dsimp only at entries cursor
    have stands : h.current = present := by simp [current, entries, cursor]
    have rest : (past.reverse ++ present :: future).drop (past.length + 1) = future := by
      rw [← List.length_reverse, List.drop_length_add_append]
      rfl
    simp [zipper, entries, cursor, stands, rest]

theorem zipper_start (initial : Snapshot) (capacity : Nat) :
    (start initial capacity).zipper = Zipper.start initial := rfl

theorem zipper_reset (h : History) (initial : Snapshot) :
    (h.reset initial).zipper = Zipper.start initial := rfl

/-- A new snapshot comes last; what stays before it is the newest part of what was there. -/
theorem entriesWith_eq (h : History) (s : Snapshot) :
    h.entriesWith s = ((h.current :: h.zipper.past).take (h.capacity - 1)).reverse ++ [s] := by
  have pos := h.capacity_pos
  obtain ⟨entries, cursor⟩ := zipper_eq_iff.1 (Eq.refl h.zipper)
  have kept : h.entries.take (h.cursor + 1) = (h.current :: h.zipper.past).reverse := by
    rw [entries, cursor, ← List.length_reverse, List.take_length_add_append]
    simp
  -- The past has its newest state first, so what is dropped from the list is what `take` leaves out.
  have excess : ((h.current :: h.zipper.past).reverse ++ [s]).length - h.capacity =
      (h.current :: h.zipper.past).length - (h.capacity - 1) := by
    simp only [List.length_append, List.length_reverse, List.length_singleton]
    omega
  rw [entriesWith, kept, excess, List.drop_append_of_le_length (by simp), List.reverse_take]

theorem zipper_record (h : History) (s : Snapshot) :
    (h.record s).zipper = h.zipper.record h.capacity s := by
  by_cases new : h.isNew s = true
  · have other : s.text ≠ h.zipper.present.text := isNew_iff.1 new
    rw [Zipper.record, if_neg other, zipper_eq_iff]
    simp [record, if_pos new, entriesWith_eq]
  · have same : s.text = h.zipper.present.text := text_eq_of_old new
    obtain ⟨entries, cursor⟩ := zipper_eq_iff.1 (Eq.refl h.zipper)
    rw [Zipper.record, if_pos same, zipper_eq_iff]
    simp only [record, if_neg new]
    refine ⟨?_, cursor⟩
    -- The cursor is where the reversed past ends, so the place that is set is the present.
    rw [cursor, entries, ← List.length_reverse, List.set_append_right _ _ (Nat.le_refl _)]
    simp

theorem map_zipper_undo? (h : History) : h.undo?.map zipper = h.zipper.undo? := by
  obtain ⟨entries, cursor⟩ := zipper_eq_iff.1 (Eq.refl h.zipper)
  cases past : h.zipper.past with
  | nil =>
    rw [past, List.length_nil] at cursor
    simp [undo?, canUndo, cursor, Zipper.undo?, past]
  | cons s older =>
    rw [past] at entries cursor
    have able : h.canUndo = true := by simp [canUndo, cursor]
    rw [undo?, if_pos able, Option.map_some, Zipper.undo?, past]
    refine congrArg some (zipper_eq_iff.2 ⟨?_, ?_⟩)
    · simp [entries]
    · simp [cursor]

theorem map_zipper_redo? (h : History) : h.redo?.map zipper = h.zipper.redo? := by
  obtain ⟨entries, cursor⟩ := zipper_eq_iff.1 (Eq.refl h.zipper)
  have count : h.entries.length = h.cursor + 1 + h.zipper.future.length := by
    rw [entries, cursor]
    simp
    omega
  cases future : h.zipper.future with
  | nil =>
    rw [future, List.length_nil] at count
    simp [redo?, count, Zipper.redo?, future]
  | cons s newer =>
    rw [future, List.length_cons] at count
    rw [future] at entries
    have able : h.cursor + 1 < h.entries.length := by omega
    rw [redo?, dif_pos able, Option.map_some, Zipper.redo?, future]
    refine congrArg some (zipper_eq_iff.2 ⟨?_, ?_⟩)
    · simp [entries]
    · simp [cursor]

/-- An undo moves the cursor only, unless it stands at the oldest state. -/
theorem apply_undo (h : History) :
    (h.apply .undo).1.entries = h.entries ∧ (h.apply .undo).1.capacity = h.capacity ∧
      (h.apply .undo).1.cursor = h.cursor - 1 := by
  by_cases able : h.canUndo = true
  · simp [apply, undo?, able]
  · have first : h.cursor = 0 := by simpa [canUndo] using able
    simp [apply, undo?, able, first]

/-- A redo moves the cursor only, unless it stands at the newest state. -/
theorem apply_redo (h : History) :
    (h.apply .redo).1.entries = h.entries ∧ (h.apply .redo).1.capacity = h.capacity ∧
      (h.apply .redo).1.cursor = min (h.cursor + 1) (h.entries.length - 1) := by
  have := h.cursor_lt
  by_cases able : h.cursor + 1 < h.entries.length
  · simp only [apply, redo?, dif_pos able, Option.getD_some]
    exact ⟨trivial, trivial, by omega⟩
  · simp only [apply, redo?, dif_neg able, Option.getD_none]
    exact ⟨trivial, trivial, by omega⟩

@[simp] theorem apply_capacity (h : History) (op : Op) : (h.apply op).1.capacity = h.capacity := by
  cases op with
  | record s => exact record_capacity h s
  | reset initial => rfl
  | undo => exact (apply_undo h).2.1
  | redo => exact (apply_redo h).2.1

/-- An operation does to the picture what it does to the history. -/
theorem zipper_apply (h : History) (op : Op) :
    (h.apply op).1.zipper = (h.zipper.apply h.capacity op).1 := by
  cases op with
  | record s => exact zipper_record h s
  | reset initial => exact zipper_reset h initial
  | undo =>
    simp only [apply, Zipper.apply]
    rw [← map_zipper_undo?, Option.getD_map]
  | redo =>
    simp only [apply, Zipper.apply]
    rw [← map_zipper_redo?, Option.getD_map]

/-- An operation answers for a history what it answers for the picture. -/
theorem answer_apply (h : History) (op : Op) :
    (h.apply op).2 = (h.zipper.apply h.capacity op).2 := by
  cases op with
  | record s => rfl
  | reset initial => rfl
  | undo =>
    simp only [apply, Zipper.apply]
    rw [← map_zipper_undo?, Option.map_map]
    rfl
  | redo =>
    simp only [apply, Zipper.apply]
    rw [← map_zipper_redo?, Option.map_map]
    rfl

/-! ### Runs -/

theorem observe_zipper (h : History) (ops : List Op) :
    h.zipper.observe h.capacity ops = h.observe ops := by
  induction ops generalizing h with
  | nil => rfl
  | cons op ops ih =>
    rw [Zipper.observe, observe, ← zipper_apply, ← answer_apply, view_zipper]
    rw [← ih, apply_capacity]

theorem size_after_le (h : History) (fits : h.size ≤ h.capacity) (ops : List Op) :
    (h.after ops).size ≤ h.capacity := by
  induction ops generalizing h with
  | nil => exact fits
  | cons op ops ih =>
    have within : h.zipper.Within h.capacity := by
      rw [Zipper.Within, size_zipper]
      exact fits
    have next := within.apply h.capacity_pos op
    rw [← zipper_apply, Zipper.Within, size_zipper] at next
    rw [← apply_capacity h op] at next ⊢
    exact ih _ next

/-! ### Back and forth -/

/-- Undos leave the states alone and go back, as far as there are any. -/
theorem after_undos (h : History) (n : Nat) :
    (h.after (.replicate n .undo)).entries = h.entries ∧
      (h.after (.replicate n .undo)).capacity = h.capacity ∧
      (h.after (.replicate n .undo)).cursor = h.cursor - n := by
  induction n generalizing h with
  | zero => exact ⟨rfl, rfl, rfl⟩
  | succ n ih =>
    obtain ⟨entries, capacity, cursor⟩ := ih (h.apply .undo).1
    obtain ⟨entries', capacity', cursor'⟩ := apply_undo h
    rw [List.replicate_succ]
    refine ⟨entries.trans entries', capacity.trans capacity', cursor.trans ?_⟩
    rw [cursor']
    omega

/-- Redos leave the states alone and go on, as far as there are any. -/
theorem after_redos (h : History) (n : Nat) :
    (h.after (.replicate n .redo)).entries = h.entries ∧
      (h.after (.replicate n .redo)).capacity = h.capacity ∧
      (h.after (.replicate n .redo)).cursor = min (h.cursor + n) (h.entries.length - 1) := by
  have lt := h.cursor_lt
  induction n generalizing h with
  | zero => exact ⟨rfl, rfl, by rw [Nat.add_zero, Nat.min_eq_left (Nat.le_sub_one_of_lt lt)]; rfl⟩
  | succ n ih =>
    obtain ⟨entries, capacity, cursor⟩ := ih (h.apply .redo).1 (cursor_lt _)
    obtain ⟨entries', capacity', cursor'⟩ := apply_redo h
    rw [List.replicate_succ]
    refine ⟨entries.trans entries', capacity.trans capacity', cursor.trans ?_⟩
    rw [cursor', entries']
    omega

/-- The snapshots, the capacity and the cursor are all that there is to a history. -/
theorem eq_of_entries {h' : History} (entries : h.entries = h'.entries)
    (capacity : h.capacity = h'.capacity) (cursor : h.cursor = h'.cursor) : h = h' := by
  obtain ⟨_, _, _, _, _⟩ := h
  obtain ⟨_, _, _, _, _⟩ := h'
  cases entries
  cases capacity
  cases cursor
  rfl

theorem after_append (h : History) (ops more : List Op) :
    h.after (ops ++ more) = (h.after ops).after more :=
  List.foldl_append ..

/-- At the newest state, undos are taken back by as many redos, also when there are fewer states to
go back to. -/
theorem after_undos_redos (h : History) (newest : h.canRedo = false) (n : Nat) :
    h.after (.replicate n .undo ++ .replicate n .redo) = h := by
  have last : h.cursor + 1 = h.entries.length := by
    have := h.cursor_lt
    simp only [canRedo, decide_eq_false_iff_not] at newest
    omega
  obtain ⟨entries, capacity, cursor⟩ := after_undos h n
  obtain ⟨entries', capacity', cursor'⟩ := after_redos (h.after (.replicate n .undo)) n
  rw [after_append]
  refine eq_of_entries (entries'.trans entries) (capacity'.trans capacity) ?_
  rw [cursor', cursor, entries]
  omega

/-! ### Histories and zippers -/

/-- **A history is a bounded zipper.** Whatever is recorded, undone, redone and started over, a
history answers and shows after each operation what a zipper with the same room answers and shows.
It never holds more states than it has room for, and at its newest state any number of undos is
taken back by as many redos. -/
theorem observe_eq_zipper (initial : Snapshot) (capacity : Nat) (ops : List Op) :
    (start initial capacity).view = (Zipper.start initial).view ∧
      (start initial capacity).observe ops =
        (Zipper.start initial).observe (max capacity 1) ops ∧
      ((start initial capacity).after ops).size ≤ max capacity 1 ∧
      ∀ n, ((start initial capacity).after ops).canRedo = false →
        ((start initial capacity).after ops).after (.replicate n .undo ++ .replicate n .redo) =
          (start initial capacity).after ops := by
  refine ⟨?_, ?_, ?_, ?_⟩
  · rw [← view_zipper, zipper_start]
  · rw [← observe_zipper, zipper_start]
    rfl
  · exact size_after_le _ (Nat.le_max_right ..) ops
  · exact fun n newest => after_undos_redos _ newest n

/-- A branch that is given up, the oldest state without room, and more undos than states. -/
theorem observe_eq_zipper_evicted :
    let h := (start ⟨[], .cursor 0⟩ 3).after
      [.record ⟨['a'], .cursor 1⟩, .record ⟨['b'], .cursor 1⟩, .undo, .record ⟨['c'], .cursor 1⟩,
        .record ⟨['d'], .cursor 1⟩]
    h.texts = [['a'], ['c'], ['d']] ∧ h.canRedo = false ∧ h.size ≤ 3 ∧
      h.after (.replicate 5 .undo ++ .replicate 5 .redo) = h := by
  intro h
  have newest : h.canRedo = false := by decide
  obtain ⟨-, -, size, back⟩ := observe_eq_zipper ⟨[], .cursor 0⟩ 3
    [.record ⟨['a'], .cursor 1⟩, .record ⟨['b'], .cursor 1⟩, .undo, .record ⟨['c'], .cursor 1⟩,
      .record ⟨['d'], .cursor 1⟩]
  exact ⟨by decide, newest, size, back 5 newest⟩

end History
end Folio
