import Folio.Markup.Block
import Folio.Proofs.Text.Boundary

/-!
# Parts of regions

A part of a region can be taken exactly if its ends are boundaries of the region's text, in order.

* `Region.cutCells?_isSome_iff` and `Region.slice?_isSome_iff` say that such parts, and no others,
  can be taken, and `Region.text_of_slice?` what is in them;
* `Block.slice_eq_error_iff` and `Block.gather_eq_error_iff` say when reading halts at a part.
-/

namespace Folio

namespace Region

variable {r : Region}

theorem splitCells?_append (p q : List Placed) :
    splitCells? (p ++ q) (Text.bytes (p.map Placed.char)) = some (p, q) := by
  induction p with
  | nil => cases q <;> rfl
  | cons c p ih =>
    have pos := c.char.utf8Size_pos
    obtain ⟨n, size⟩ : ∃ n, c.char.utf8Size + Text.bytes (p.map Placed.char) = n + 1 :=
      ⟨_, (Nat.sub_add_cancel (by omega)).symm⟩
    have rest : n + 1 - c.char.utf8Size = Text.bytes (p.map Placed.char) := by omega
    rw [List.cons_append, List.map_cons, Text.bytes_cons, size, splitCells?, if_pos (by omega),
      rest, ih]
    rfl

theorem eq_append_of_splitCells? {ps p q : List Placed} {n : Nat}
    (h : splitCells? ps n = some (p, q)) :
    ps = p ++ q ∧ Text.bytes (p.map Placed.char) = n := by
  induction ps generalizing n p with
  | nil =>
    cases n with
    | zero =>
      cases h
      exact ⟨rfl, rfl⟩
    | succ n => cases h
  | cons c ps ih =>
    cases n with
    | zero =>
      cases h
      exact ⟨rfl, rfl⟩
    | succ n =>
      rw [splitCells?] at h
      split at h
      · rename_i le
        obtain ⟨⟨p', q'⟩, h', e⟩ := Option.map_eq_some_iff.1 h
        cases e
        obtain ⟨rfl, size⟩ := ih h'
        refine ⟨rfl, ?_⟩
        rw [List.map_cons, Text.bytes_cons, size]
        omega
      · cases h

/-- What is taken from a region lies in it, between the two offsets. -/
theorem cutCells?_eq_some_iff {start stop : Nat} {inside : List Placed} :
    r.cutCells? start stop = some inside ↔
      ∃ before after, r.cells = before ++ (inside ++ after) ∧
        Text.bytes (before.map Placed.char) = start ∧
        Text.bytes (before.map Placed.char) + Text.bytes (inside.map Placed.char) = stop := by
  constructor
  · intro h
    unfold cutCells? at h
    split at h
    · cases h
    · rename_i le
      obtain ⟨⟨before, rest⟩, first, h⟩ := Option.bind_eq_some_iff.1 h
      obtain ⟨⟨inside', after⟩, second, h⟩ := Option.bind_eq_some_iff.1 h
      cases h
      obtain ⟨cells, rfl⟩ := eq_append_of_splitCells? first
      obtain ⟨rfl, size⟩ := eq_append_of_splitCells? second
      exact ⟨before, after, cells, rfl, by omega⟩
  · rintro ⟨before, after, cells, rfl, rfl⟩
    have first : splitCells? r.cells (Text.bytes (before.map Placed.char)) =
        some (before, inside ++ after) := cells ▸ splitCells?_append before (inside ++ after)
    have second := splitCells?_append inside after
    simp [cutCells?, first, second]

theorem cutCells?_isSome_iff {start stop : Nat} :
    (r.cutCells? start stop).isSome = true ↔ Text.IsCut r.text start stop := by
  rw [Option.isSome_iff_exists]
  constructor
  · rintro ⟨inside, h⟩
    obtain ⟨before, after, cells, rfl, rfl⟩ := cutCells?_eq_some_iff.1 h
    rw [text, cells, List.map_append, List.map_append]
    exact Text.isCut_of_parts ..
  · intro h
    obtain ⟨before, inside, after, text_eq, rfl, rfl⟩ := h.exists_parts
    obtain ⟨before, rest, cells, rfl, tail⟩ := List.map_eq_append_iff.1 text_eq
    obtain ⟨inside, after, rfl, rfl, rfl⟩ := List.map_eq_append_iff.1 tail
    exact ⟨inside, cutCells?_eq_some_iff.2 ⟨before, after, cells, rfl, rfl⟩⟩

theorem slice?_isSome_iff {start stop : Nat} :
    (r.slice? start stop).isSome = true ↔ Text.IsCut r.text start stop := by
  rw [slice?, Option.isSome_map, cutCells?_isSome_iff]

/-- The text of a part of a region. -/
theorem text_of_slice? {start stop : Nat} {inner : Region} (h : r.slice? start stop = some inner) :
    ∃ before after, r.text = before ++ (inner.text ++ after) ∧ Text.bytes before = start ∧
      Text.bytes before + Text.bytes inner.text = stop := by
  obtain ⟨inside, cut, rfl⟩ := Option.map_eq_some_iff.1 h
  obtain ⟨before, after, cells, rfl, rfl⟩ := cutCells?_eq_some_iff.1 cut
  refine ⟨before.map Placed.char, after.map Placed.char, ?_, rfl, rfl⟩
  rw [text, cells, List.map_append, List.map_append]
  rfl

theorem isSome_mapM_iff {α β : Type} {f : α → Option β} {l : List α} :
    (l.mapM f).isSome = true ↔ ∀ a ∈ l, (f a).isSome = true := by
  induction l with
  | nil => simp
  | cons a l ih =>
    rw [List.mapM_cons, List.forall_mem_cons, ← ih]
    cases f a with
    | none => simp
    | some b => cases l.mapM f <;> simp

/-- Pieces can be joined exactly if each of them lies between two boundaries, in order. -/
theorem fromPieces?_isSome_iff {pieces : List (Nat × Nat)} :
    (r.fromPieces? pieces).isSome = true ↔
      ∀ piece ∈ pieces, Text.IsCut r.text piece.1 piece.2 := by
  have parts : ∀ piece : Nat × Nat,
      ((r.cutCells? piece.1 piece.2).bind fun cells =>
        some (r.toSource piece.1, cells.map Placed.char)).isSome = true ↔
      Text.IsCut r.text piece.1 piece.2 := by
    intro piece
    rw [← cutCells?_isSome_iff]
    cases r.cutCells? piece.1 piece.2 <;> simp
  simp only [← parts]
  rw [← isSome_mapM_iff, fromPieces?]
  simp only [Option.pure_def, Option.bind_eq_bind]
  cases pieces.mapM fun piece => (r.cutCells? piece.1 piece.2).bind fun cells =>
    some (r.toSource piece.1, cells.map Placed.char) <;> rfl

end Region

namespace Block

variable {r : Region}

/-- A part of a region is refused exactly if it does not lie between two boundaries, in order. -/
theorem slice_eq_error_iff {start stop : Nat} {h : Halt} :
    slice r start stop = .error h ↔ ¬ Text.IsCut r.text start stop ∧ h = .badCut start stop := by
  rw [← Region.slice?_isSome_iff, slice]
  cases r.slice? start stop with
  | none => simp [eq_comm]
  | some inner => simp

/-- Of the pieces that do not lie between two boundaries, in order, the first one is reported. -/
theorem gather_eq_error_iff {pieces : List (Nat × Nat)} {h : Halt} :
    gather r pieces = .error h ↔
      ∃ piece, pieces.find? (fun p => !decide (Text.IsCut r.text p.1 p.2)) = some piece ∧
        h = .badCut piece.1 piece.2 := by
  have isNone_eq : (fun p : Nat × Nat => (r.cutCells? p.1 p.2).isNone) =
      fun p => !decide (Text.IsCut r.text p.1 p.2) := by
    funext p
    simp only [← Region.cutCells?_isSome_iff, Bool.decide_eq_true, Option.not_isSome]
  rw [gather]
  cases joined : r.fromPieces? pieces with
  | some inner =>
    have cuts := Region.fromPieces?_isSome_iff.1 (Option.isSome_of_eq_some joined)
    have none_found : pieces.find? (fun p => !decide (Text.IsCut r.text p.1 p.2)) = none := by
      rw [List.find?_eq_none]
      intro p mem
      simpa using cuts p mem
    simp [none_found]
  | none =>
    cases found : pieces.find? fun p => !decide (Text.IsCut r.text p.1 p.2) with
    | none =>
      -- no piece is at fault, so that the pieces could have been joined
      have cuts : ∀ p ∈ pieces, Text.IsCut r.text p.1 p.2 := by
        intro p mem
        simpa using List.find?_eq_none.1 found p mem
      have := Region.fromPieces?_isSome_iff.2 cuts
      rw [joined] at this
      cases this
    | some piece =>
      have first : badPiece r pieces = piece := by
        rw [badPiece, isNone_eq, found]
        rfl
      simp [first, eq_comm]

theorem gather_isOk {pieces : List (Nat × Nat)}
    (cuts : ∀ p ∈ pieces, Text.IsCut r.text p.1 p.2) : ∃ inner, gather r pieces = .ok inner := by
  obtain ⟨inner, joined⟩ := Option.isSome_iff_exists.1 (Region.fromPieces?_isSome_iff.2 cuts)
  exact ⟨inner, by rw [gather, joined]⟩

theorem slice_isOk {start stop : Nat} (cut : Text.IsCut r.text start stop) :
    ∃ inner, slice r start stop = .ok inner := by
  obtain ⟨inner, taken⟩ := Option.isSome_iff_exists.1 (Region.slice?_isSome_iff.2 cut)
  exact ⟨inner, by rw [slice, taken]⟩

end Block
end Folio
