import Folio.Proofs.Markup.LinePieces
import Mathlib.Data.List.Forall2

/-!
# Texts of parts

The text of a part of a region is what stands between the two ends of the part, and the text of
joined pieces is what stands in each of them, with line feeds between. Main statements:

* `Block.fills_of_slice` and `Block.exists_fills_of_gather`;
* `Block.mem_of_gather`: joining adds no characters but line feeds;
* `Block.text_of_gather_lines`: lines without their beginnings, joined.
-/

namespace Folio

theorem eq_or_exists_of_mem_intercalate {α : Type} {sep a : α} {pieces : List (List α)}
    (mem : a ∈ [sep].intercalate pieces) : a = sep ∨ ∃ piece ∈ pieces, a ∈ piece := by
  induction pieces with
  | nil => cases mem
  | cons x pieces ih =>
    cases pieces with
    | nil => exact .inr ⟨x, List.mem_cons_self, by simpa using mem⟩
    | cons y pieces =>
      rw [List.intercalate_cons_cons, List.append_assoc, List.mem_append, List.mem_append,
        List.mem_singleton] at mem
      rcases mem with first | between | later
      · exact .inr ⟨x, List.mem_cons_self, first⟩
      · exact .inl between
      · refine (ih later).imp_right ?_
        rintro ⟨piece, among, mem⟩
        exact ⟨piece, List.mem_cons_of_mem x among, mem⟩

/-- A text with a given size stands in a piece. -/
def Text.Fills (s : Text) (piece : Nat × Nat) (w : Text) : Prop :=
  s.Holds piece.1 w ∧ piece.1 + bytes w = piece.2

/-- A piece is empty exactly if its text is. -/
theorem Text.Fills.eq_iff {s w : Text} {piece : Nat × Nat} (h : s.Fills piece w) :
    piece.1 = piece.2 ↔ w = [] := by
  rw [← h.2]
  cases w with
  | nil => simp
  | cons c w =>
    have := c.utf8Size_pos
    simp only [bytes_cons, reduceCtorEq, iff_false]
    omega

namespace Region

theorem map_char_joinPieces (parts : List (Nat × Text)) :
    (joinPieces parts).map Placed.char = ['\n'].intercalate (parts.map Prod.snd) := by
  induction parts with
  | nil => rfl
  | cons part parts ih =>
    cases parts with
    | nil => simp [joinPieces, List.intercalate]
    | cons next parts =>
      rw [joinPieces, List.map_append, ih, Placed.map_char_along]
      · simp [List.intercalate]
      · exact fun h => List.cons_ne_nil _ _ h

variable {r : Region}

theorem fills_of_cutCells? {piece : Nat × Nat} {cells : List Placed}
    (cut : r.cutCells? piece.1 piece.2 = some cells) : r.text.Fills piece (cells.map Placed.char) := by
  obtain ⟨before, after, cells_eq, start, stop⟩ := cutCells?_eq_some_iff.1 cut
  refine ⟨⟨after.map Placed.char, before.map Placed.char, ?_, start⟩, start ▸ stop⟩
  rw [text, cells_eq, List.map_append, List.map_append]

theorem fills_of_parts? {pieces : List (Nat × Nat)} {parts : List (Nat × Text)}
    (taken : r.parts? pieces = some parts) : List.Forall₂ r.text.Fills pieces (parts.map Prod.snd) := by
  induction pieces generalizing parts with
  | nil =>
    cases taken
    exact .nil
  | cons piece pieces ih =>
    rw [parts?, List.mapM_cons] at taken
    obtain ⟨part, first, taken⟩ := Option.bind_eq_some_iff.1 taken
    obtain ⟨rest, others, taken⟩ := Option.bind_eq_some_iff.1 taken
    obtain ⟨cells, cut, first⟩ := Option.bind_eq_some_iff.1 first
    cases first
    cases taken
    exact .cons (fills_of_cutCells? cut) (ih others)

end Region

namespace Block

variable {r inner : Region}

theorem fills_of_slice {start stop : Nat} (h : slice r start stop = .ok inner) :
    r.text.Fills (start, stop) inner.text := by
  unfold slice at h
  split at h
  · rename_i taken
    cases h
    obtain ⟨before, after, text_eq, start_eq, stop_eq⟩ := Region.text_of_slice? taken
    exact ⟨⟨after, before, text_eq, start_eq⟩, start_eq ▸ stop_eq⟩
  · cases h

/-- The texts of joined pieces. -/
theorem exists_fills_of_gather {pieces : List (Nat × Nat)} (h : gather r pieces = .ok inner) :
    ∃ texts, List.Forall₂ r.text.Fills pieces texts ∧ inner.text = ['\n'].intercalate texts := by
  unfold gather at h
  split at h
  · rename_i joined
    cases h
    obtain ⟨parts, taken, made⟩ := Option.bind_eq_some_iff.1 joined
    cases made
    exact ⟨parts.map Prod.snd, Region.fills_of_parts? taken, Region.map_char_joinPieces parts⟩
  · cases h

end Block

/-! ### Parts of lines -/

/-- What stands in a piece of a line stands in the text. -/
theorem Line.fills {s w : Text} {l : Line} {start stop : Nat} (mem : l ∈ split s)
    (h : l.text.Fills (start, stop) w) : s.Fills (l.start + start, l.start + stop) w := by
  obtain ⟨⟨after, before, text_eq, rfl⟩, stop_eq⟩ := h
  have held := Line.holds mem
  rw [text_eq] at held
  exact ⟨(Text.holds_append_iff.1 (Text.holds_append_iff.1 held).2).1,
    (Nat.add_assoc _ _ _).trans (congrArg (l.start + ·) stop_eq)⟩

/-- What stands in a line from an offset on. -/
theorem Line.fills_dropBytes {s : Text} {l : Line} {n : Nat} (mem : l ∈ split s)
    (boundary : Text.isBoundary l.text n = true) :
    s.Fills (l.start + n, l.stop) (Text.dropBytes l.text n) := by
  have rest : l.text.Fills (n, Text.bytes l.text) (Text.dropBytes l.text n) := by
    obtain ⟨v, w, text_eq, rfl⟩ := Text.isBoundary_iff.1 boundary
    rw [text_eq, Text.dropBytes_append]
    exact ⟨⟨[], v, by rw [List.append_nil], rfl⟩, (Text.bytes_append v w).symm⟩
  exact Line.fills mem rest

namespace Text.Fills

variable {s v w : Text} {piece : Nat × Nat}

theorem unique (h : s.Fills piece v) (h' : s.Fills piece w) : v = w :=
  h.1.unique h'.1 (Nat.add_left_cancel (h.2.trans h'.2.symm))

theorem isInfix (h : s.Fills piece w) : w <:+: s := by
  obtain ⟨after, before, rfl, -⟩ := h.1
  exact ⟨before, after, by rw [List.append_assoc]⟩

/-- What stands in some pieces are parts of the text. -/
theorem isInfix_of_mem {pieces : List (Nat × Nat)} {texts : List Text}
    (fills : List.Forall₂ s.Fills pieces texts) : ∀ w ∈ texts, w <:+: s := by
  induction fills with
  | nil => exact nofun
  | cons first _ ih => exact List.forall_mem_cons.2 ⟨first.isInfix, ih⟩

end Text.Fills

/-- Joined pieces are made of the characters of the text and line feeds. -/
theorem Block.mem_of_gather {r inner : Region} {pieces : List (Nat × Nat)} {c : Char}
    (h : gather r pieces = .ok inner) (mem : c ∈ inner.text) : c = '\n' ∨ c ∈ r.text := by
  obtain ⟨texts, fills, text_eq⟩ := exists_fills_of_gather h
  rw [text_eq] at mem
  refine (eq_or_exists_of_mem_intercalate mem).imp_right ?_
  rintro ⟨w, among, mem⟩
  exact (Text.Fills.isInfix_of_mem fills w among).subset mem

/-- Lines without their beginnings, joined. -/
theorem Block.text_of_gather_lines {r inner : Region} {ls : List Line} {from_ : Line → Nat}
    (lines : ∀ m ∈ ls, m ∈ r.lines) (boundary : ∀ m ∈ ls, Text.isBoundary m.text (from_ m) = true)
    (h : gather r (ls.map fun m => (m.start + from_ m, m.stop)) = .ok inner) :
    inner.text = ['\n'].intercalate (ls.map fun m => Text.dropBytes m.text (from_ m)) := by
  obtain ⟨texts, fills, text_eq⟩ := exists_fills_of_gather h
  have filled : List.Forall₂ r.text.Fills (ls.map fun m => (m.start + from_ m, m.stop))
      (ls.map fun m => Text.dropBytes m.text (from_ m)) := by
    rw [List.forall₂_map_left_iff, List.forall₂_map_right_iff, List.forall₂_same]
    exact fun m mem => Line.fills_dropBytes (lines m mem) (boundary m mem)
  have unique : Relator.RightUnique r.text.Fills := fun _ _ _ => Text.Fills.unique
  rw [text_eq, List.right_unique_forall₂' unique fills filled]

end Folio
