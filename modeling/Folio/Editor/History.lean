import Folio.Editor.Selection

/-!
# Histories

The states that a text went through, for undo and redo. A history holds a bounded number of
snapshots, the oldest first, and a cursor on the current one. A new state takes the place of those
that were undone; when there are too many, the oldest go.
-/

namespace Folio

/-- A text with its selection. -/
structure Snapshot where
  text : Text
  selection : Selection
  deriving DecidableEq, Repr

/-- Snapshots around the current one. -/
structure History where
  entries : List Snapshot
  cursor : Nat
  capacity : Nat
  capacity_pos : 0 < capacity
  cursor_lt : cursor < entries.length
  deriving DecidableEq, Repr

namespace History

/-- The history of a text that has not changed. There is room for the current state at least. -/
def start (initial : Snapshot) (capacity : Nat) : History where
  entries := [initial]
  cursor := 0
  capacity := max capacity 1
  capacity_pos := by omega
  cursor_lt := by simp

/-- The current state. -/
def current (h : History) : Snapshot := h.entries.get ⟨h.cursor, h.cursor_lt⟩

/-- The number of snapshots. -/
def size (h : History) : Nat := h.entries.length

/-- Whether a snapshot would be a new state: its text is not the current one. -/
def isNew (h : History) (s : Snapshot) : Bool := s.text != h.current.text

/-- The snapshots once a new one follows the current one, without the oldest that have no room. -/
def entriesWith (h : History) (s : Snapshot) : List Snapshot :=
  let kept := h.entries.take (h.cursor + 1) ++ [s]
  kept.drop (kept.length - h.capacity)

theorem entriesWith_length_pos (h : History) (s : Snapshot) : 0 < (h.entriesWith s).length := by
  have := h.capacity_pos
  simp [entriesWith]
  omega

/-- Records a state. One with the current text only takes its selection over. -/
def record (h : History) (s : Snapshot) : History :=
  if h.isNew s then
    { h with
      entries := h.entriesWith s
      cursor := (h.entriesWith s).length - 1
      cursor_lt := by have := h.entriesWith_length_pos s; omega }
  else
    { h with
      entries := h.entries.set h.cursor { h.current with selection := s.selection }
      cursor_lt := by simpa using h.cursor_lt }

/-- Whether there is an older state. -/
def canUndo (h : History) : Bool := 0 < h.cursor

/-- Whether there is a newer state. -/
def canRedo (h : History) : Bool := h.cursor + 1 < h.entries.length

/-- The number of older states. -/
def undoLevels (h : History) : Nat := h.cursor

/-- The number of newer states. -/
def redoLevels (h : History) : Nat := h.entries.length - h.cursor - 1

/-- Steps back to the state before, if there is one. -/
def undo? (h : History) : Option History :=
  if h.canUndo then
    some { h with cursor := h.cursor - 1, cursor_lt := by have := h.cursor_lt; omega }
  else none

/-- Steps forward to the next state, if there is one. -/
def redo? (h : History) : Option History :=
  if lt : h.cursor + 1 < h.entries.length then
    some { h with cursor := h.cursor + 1, cursor_lt := lt }
  else none

/-- Forgets everything and starts over. -/
def reset (h : History) (initial : Snapshot) : History :=
  { h with entries := [initial], cursor := 0, cursor_lt := by simp }

end History
end Folio
