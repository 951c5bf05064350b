import Folio.Proofs.Region.Places

/-!
# Parts of faithful regions

A contiguous part of a faithful region is faithful, and so are parts of lines that are joined with
line feeds, when they come in order and white space follows each of them before the next one
starts. Main statements: `Region.Faithful.of_slice?` and `Region.Faithful.of_fromPieces?`; both
also say where the part starts and ends in the source.
-/

namespace Folio

/-- White space stands in a text at an offset, and another offset comes after it. -/
def Text.Gap (s : Text) (start stop : Nat) : Prop :=
  ∃ c, isBlankChar c = true ∧ s.Holds start [c] ∧ start + c.utf8Size ≤ stop

theorem Text.Gap.lt {s : Text} {start stop : Nat} (h : s.Gap start stop) : start < stop := by
  obtain ⟨c, -, -, le⟩ := h
  have := c.utf8Size_pos
  omega

theorem Text.Gap.mono {s : Text} {start stop stop' : Nat} (h : s.Gap start stop)
    (le : stop ≤ stop') : s.Gap start stop' := by
  obtain ⟨c, blank, held, before⟩ := h
  exact ⟨c, blank, held, Nat.le_trans before le⟩

/-- A piece of a text is a part of a line. -/
def Text.IsPiece (s : Text) (piece : Nat × Nat) : Prop :=
  ∃ w, s.Holds piece.1 w ∧ '\n' ∉ w ∧ piece.1 + bytes w = piece.2

theorem Text.IsPiece.isCut {s : Text} {piece : Nat × Nat} (h : s.IsPiece piece) :
    s.IsCut piece.1 piece.2 := by
  obtain ⟨w, held, -, stop⟩ := h
  rw [← stop]
  exact held.isCut

theorem Placed.along_append (pos : Nat) (s t : Text) :
    along pos (s ++ t) = along pos s ++ along (pos + Text.bytes s) t := by
  induction s generalizing pos with
  | nil => rfl
  | cons c s ih => rw [List.cons_append, along, along, ih, Text.bytes_cons, Nat.add_assoc]; rfl

namespace Region

variable {source : Text} {r inner : Region}

/-- A contiguous part of a faithful region is faithful. -/
theorem Faithful.of_slice? {start stop : Nat} (h : Faithful source r)
    (taken : r.slice? start stop = some inner) :
    Faithful source inner ∧ inner.toSource 0 = r.toSource start ∧ inner.stop = r.toSource stop := by
  obtain ⟨cells, cut, rfl⟩ := Option.map_eq_some_iff.1 taken
  have is_cut := cutCells?_isSome_iff.1 (Option.isSome_of_eq_some cut)
  obtain ⟨inside, after, cut', -, -, follows, -, start_eq, -⟩ := h.exists_cells is_cut
  rw [cut] at cut'
  cases cut'
  refine ⟨follows, ?_, rfl⟩
  rw [toSource_zero, start_eq]

/-! ### Joined pieces -/

/-- The text of a piece, with the place of its start. -/
theorem Faithful.cut_piece {piece : Nat × Nat} (h : Faithful source r)
    (is_piece : r.text.IsPiece piece) :
    ∃ w, (r.cutCells? piece.1 piece.2).map (·.map Placed.char) = some w ∧
      source.Holds (r.toSource piece.1) w ∧
      r.toSource piece.2 = r.toSource piece.1 + Text.bytes w := by
  obtain ⟨w, held, visible, stop⟩ := is_piece
  obtain ⟨stands, stop_eq⟩ := h.holds held visible
  obtain ⟨inside, after, cut, there, size, -⟩ := h.exists_cells held.isCut
  have same : inside.map Placed.char = w := there.unique held (Nat.add_left_cancel size)
  rw [stop] at cut stop_eq
  exact ⟨w, by rw [cut, Option.map_some, same], stands, stop_eq⟩

/-- White space after a piece leaves room for a line feed. -/
theorem Faithful.joins_of_gap {start stop : Nat} (h : Faithful source r)
    (gap : r.text.Gap start stop) (boundary : Text.isBoundary r.text stop = true) :
    (⟨'\n', r.toSource start⟩ : Placed).Joins source (r.toSource stop) := by
  obtain ⟨c, blank, held, le⟩ := gap
  obtain ⟨d, white, stands, before⟩ := (h.joins held).exists_blank blank
  have end_boundary := held.isBoundary_stop
  rw [Text.bytes_cons, Text.bytes_nil, Nat.add_zero] at end_boundary
  have ordered : r.toSource (start + c.utf8Size) ≤ r.toSource stop :=
    h.toSource_le ⟨le, end_boundary, boundary⟩
  exact ⟨d, stands, .inr ⟨rfl, white, Nat.le_trans before ordered⟩⟩

/-- What the pieces of a region are cut to. -/
abbrev parts? (r : Region) (pieces : List (Nat × Nat)) : Option (List (Nat × Text)) :=
  pieces.mapM fun (start, stop) => do
    let cells ← r.cutCells? start stop
    return (r.toSource start, cells.map Placed.char)

theorem parts?_cons_eq (r : Region) (piece : Nat × Nat) (pieces : List (Nat × Nat)) :
    r.parts? (piece :: pieces) = (r.cutCells? piece.1 piece.2).bind fun cells =>
      (r.parts? pieces).map fun parts => (r.toSource piece.1, cells.map Placed.char) :: parts := by
  rw [parts?, List.mapM_cons]
  dsimp only [Option.bind_eq_bind, Option.pure_def]
  rw [Option.bind_assoc]
  refine Option.bind_congr fun cells _ => ?_
  rw [Option.bind_some, Option.map_eq_bind]
  rfl

theorem parts?_cons {piece : Nat × Nat} {pieces : List (Nat × Nat)} {parts : List (Nat × Text)}
    {w : Text} (cut : (r.cutCells? piece.1 piece.2).map (·.map Placed.char) = some w)
    (taken : r.parts? (piece :: pieces) = some parts) :
    ∃ rest, r.parts? pieces = some rest ∧ parts = (r.toSource piece.1, w) :: rest := by
  obtain ⟨cells, cut_eq, rfl⟩ := Option.map_eq_some_iff.1 cut
  rw [parts?_cons_eq, cut_eq, Option.bind_some] at taken
  obtain ⟨rest, others, rfl⟩ := Option.map_eq_some_iff.1 taken
  exact ⟨rest, others, rfl⟩

/-- Pieces that are joined come from the source one after another. -/
theorem Faithful.follows_joinPieces {piece : Nat × Nat} {pieces : List (Nat × Nat)}
    {parts : List (Nat × Text)} (h : Faithful source r)
    (are_pieces : ∀ p ∈ piece :: pieces, r.text.IsPiece p)
    (apart : (piece :: pieces).Pairwise fun p q => r.text.Gap p.2 q.1)
    (taken : r.parts? (piece :: pieces) = some parts) {last : Nat × Nat}
    (last_eq : (piece :: pieces).getLast? = some last) :
    Follows source (r.toSource last.2) (joinPieces parts) ∧
      place (r.toSource last.2) (joinPieces parts) = r.toSource piece.1 := by
  induction pieces generalizing piece parts with
  | nil =>
    obtain ⟨w, cut, stands, stop⟩ := h.cut_piece (are_pieces piece List.mem_cons_self)
    obtain ⟨rest, others, rfl⟩ := parts?_cons cut taken
    cases others
    obtain rfl : piece = last := Option.some.inj last_eq
    rw [stop]
    exact follows_along stands
  | cons next pieces ih =>
    obtain ⟨w, cut, stands, stop⟩ := h.cut_piece (are_pieces piece List.mem_cons_self)
    obtain ⟨rest, others, rfl⟩ := parts?_cons cut taken
    rw [List.forall_mem_cons] at are_pieces
    rw [List.pairwise_cons] at apart
    obtain ⟨follows, start⟩ := ih are_pieces.2 apart.2 others last_eq
    obtain ⟨w', cut', -⟩ := h.cut_piece (are_pieces.2 next List.mem_cons_self)
    obtain ⟨rest', -, rfl⟩ := parts?_cons cut' others
    -- the piece, the line feed after it, and the pieces after that
    have eol : (⟨'\n', r.toSource piece.2⟩ : Placed).Joins source (r.toSource next.1) :=
      h.joins_of_gap (apart.1 next List.mem_cons_self)
        (are_pieces.2 next List.mem_cons_self).isCut.start
    obtain ⟨first, first_start⟩ := follows_along stands
    have cells : joinPieces ((r.toSource piece.1, w) :: (r.toSource next.1, w') :: rest') =
        Placed.along (r.toSource piece.1) w ++
          (⟨'\n', r.toSource piece.2⟩ :: joinPieces ((r.toSource next.1, w') :: rest')) := by
      rw [joinPieces, Placed.along_append, stop, List.append_assoc]
      · rfl
      · rintro ⟨⟩
    rw [cells, follows_append_iff, place_append, place_cons, stop]
    refine ⟨⟨first, ?_, follows⟩, first_start⟩
    rwa [start, ← stop]

/-- Parts of lines of a faithful region, joined, are faithful. -/
theorem Faithful.of_fromPieces? {piece : Nat × Nat} {pieces : List (Nat × Nat)}
    (h : Faithful source r) (are_pieces : ∀ p ∈ piece :: pieces, r.text.IsPiece p)
    (apart : (piece :: pieces).Pairwise fun p q => r.text.Gap p.2 q.1) {last : Nat × Nat}
    (last_eq : (piece :: pieces).getLast? = some last)
    (joined : r.fromPieces? (piece :: pieces) = some inner) :
    Faithful source inner ∧ inner.toSource 0 = r.toSource piece.1 ∧
      inner.stop = r.toSource last.2 := by
  obtain ⟨parts, taken, made⟩ := Option.bind_eq_some_iff.1 joined
  cases made
  obtain ⟨follows, start⟩ := h.follows_joinPieces are_pieces apart taken last_eq
  rw [Faithful, toSource_zero, last_eq]
  exact ⟨follows, start, rfl⟩

end Region
end Folio
