import Folio.Proofs.Text.Boundary
import Folio.Text.Location
import Mathlib.Data.Prod.Lex
import Mathlib.Order.Bounds.Defs

/-!
# What locations say

A location has a line and a column, which are counted, and an offset, which is pulled back to a boundary. All
say the same: the line and the column lead to the offset, and they are ordered as the offsets are.

* `Location.walk`: the offset that a number of lines and of characters leads to;
* `Location.walk_eq_some_iff`: it is the one that has this line and column;
* `Location.identify_positions`: the order of locations, where they lead, and offsets that are no boundaries.
-/

namespace Folio

namespace Text

variable {s : Text} {n : Nat}

theorem floor_le (s : Text) (n : Nat) : floor s n ≤ n := by
  induction s generalizing n with
  | nil => exact Nat.zero_le n
  | cons c s ih =>
    rw [floor]
    split
    · have := ih (n - c.utf8Size)
      omega
    · exact Nat.zero_le n

/-- The text up to a greater offset goes on from that up to a smaller one. -/
theorem floor_mono (s : Text) : Monotone (floor s) := by
  intro m n le
  induction s generalizing m n with
  | nil => exact Nat.le_refl 0
  | cons c s ih =>
    rw [floor, floor]
    split
    · rw [if_pos (by omega)]
      exact Nat.add_le_add_left (ih (by omega)) _
    · exact Nat.zero_le _

/-- An offset is pulled back to the nearest boundary. -/
theorem isGreatest_floor (s : Text) (n : Nat) : IsGreatest {m | s.isBoundary m = true ∧ m ≤ n} (floor s n) := by
  refine ⟨⟨isBoundary_floor s n, floor_le s n⟩, ?_⟩
  rintro m ⟨boundary, le⟩
  have reached := floor_mono s le
  rwa [floor_of_isBoundary boundary] at reached

theorem floor_of_le (past : bytes s ≤ n) : floor s n = bytes s :=
  Nat.le_antisymm (le_bytes_of_isBoundary (isBoundary_floor s n))
    ((isGreatest_floor s n).2 ⟨isBoundary_bytes s, past⟩)

end Text

namespace Location

variable {source : Text} {lines columns n : Nat}

/-! ### Counting -/

theorem advance_append (at_ : Nat × Nat) (s t : Text) :
    advance at_ (s ++ t) = advance (advance at_ s) t := by
  fun_induction advance at_ s with
  | case1 => rfl
  | case2 line column s ih => rw [List.cons_append, advance, ih]
  | case3 line column c s eol ih => rw [List.cons_append, advance, ih]; exact eol

theorem advance_of_eol_not_mem {s : Text} (eol : '\n' ∉ s) (line column : Nat) :
    advance (line, column) s = (line, column + s.length) := by
  induction s generalizing column with
  | nil => rfl
  | cons c s ih =>
    rw [List.mem_cons, not_or] at eol
    rw [advance, ih eol.2, List.length_cons, Nat.add_assoc, Nat.add_comm 1]
    exact eol.1 ∘ Eq.symm

/-- Reading leads to a later line, or to a later column of the same line. -/
theorem le_advance (at_ : Nat × Nat) (s : Text) :
    at_.1 < (advance at_ s).1 ∨
      at_.1 = (advance at_ s).1 ∧ (advance at_ s).2 = at_.2 + s.length := by
  fun_induction advance at_ s with
  | case1 => exact .inr ⟨rfl, rfl⟩
  | case2 line column s ih =>
    left
    omega
  | case3 line column c s eol ih =>
    rw [List.length_cons]
    omega

/-- The location just past a beginning of a text. -/
theorem ofOffset_append (p q : Text) :
    ofOffset (p ++ q) (Text.bytes p) = ⟨(advance (1, 1) p).1, (advance (1, 1) p).2, Text.bytes p⟩ := by
  rw [ofOffset, Text.floor_of_isBoundary (Text.isBoundary_append p q), Text.split?_append, Option.map_some,
    Option.getD_some]

theorem ofOffset_floor (source : Text) (n : Nat) : ofOffset source (Text.floor source n) = ofOffset source n := by
  unfold ofOffset
  rw [Text.floor_of_isBoundary (Text.isBoundary_floor source n)]

/-! ### The order of locations -/

/-- Locations are ordered by their lines, and those on one line by their columns. -/
def key (l : Location) : ℕ ×ₗ ℕ := toLex (l.line, l.column)

theorem strictMonoOn_key (source : Text) :
    StrictMonoOn (fun n => (ofOffset source n).key) {n | source.isBoundary n = true} := by
  intro a first b last lt
  obtain ⟨p, between, q, rfl, rfl, rfl⟩ := Text.IsCut.exists_parts ⟨Nat.le_of_lt lt, first, last⟩
  have filled : 0 < between.length := by
    cases between with
    | nil => exact absurd lt (Nat.lt_irrefl _)
    | cons c between => exact Nat.succ_pos _
  have further := le_advance (advance (1, 1) p) between
  have place := ofOffset_append (p ++ between) q
  rw [List.append_assoc, Text.bytes_append, advance_append] at place
  show (ofOffset _ _).key < (ofOffset _ _).key
  rw [place, ofOffset_append, key, key, Prod.Lex.toLex_lt_toLex]
  dsimp only
  omega

/-! ### Where a line and a column lead -/

/-- The offset past a number of line feeds and then a number of characters, none of which is a line feed, from
the start of a text. -/
def walk : Nat → Nat → Text → Option Nat
  | 0, 0, _ => some 0
  | 0, _ + 1, [] => none
  | 0, columns + 1, c :: s => if c = '\n' then none else (walk 0 columns s).map (c.utf8Size + ·)
  | _ + 1, _, [] => none
  | lines + 1, columns, c :: s =>
    (walk (if c = '\n' then lines else lines + 1) columns s).map (c.utf8Size + ·)

/-- The induction is on the text that is read. Columns are counted from `column` as long as the line of the start
is not left. -/
theorem exists_walk (line column : Nat) (p q : Text) :
    ∃ lines columns, walk lines columns (p ++ q) = some (Text.bytes p) ∧
      advance (line, column) p = (line + lines, (if lines = 0 then column else 1) + columns) := by
  induction p generalizing line column with
  | nil => exact ⟨0, 0, by rw [walk.eq_def]; rfl, rfl⟩
  | cons c p ih =>
    by_cases eol : c = '\n'
    · subst eol
      obtain ⟨lines, columns, walked, read⟩ := ih (line + 1) 1
      refine ⟨lines + 1, columns, ?_, ?_⟩
      · rw [List.cons_append, walk, if_pos rfl, walked]
        rfl
      · rw [advance, read, ite_self, if_neg (Nat.succ_ne_zero lines), Nat.add_assoc, Nat.add_comm 1]
    · obtain ⟨lines, columns, walked, read⟩ := ih line (column + 1)
      cases lines with
      | zero =>
        refine ⟨0, columns + 1, ?_, ?_⟩
        · rw [List.cons_append, walk, if_neg eol, walked]
          rfl
        · rw [advance, read, if_pos rfl, if_pos rfl, Nat.add_assoc, Nat.add_comm 1]
          exact eol
      | succ lines =>
        refine ⟨lines + 1, columns, ?_, ?_⟩
        · rw [List.cons_append, walk, if_neg eol, walked]
          rfl
        · rw [advance, read, if_neg (Nat.succ_ne_zero lines), if_neg (Nat.succ_ne_zero lines)]
          exact eol

theorem exists_ofOffset (boundary : source.isBoundary n = true) :
    ∃ lines columns, walk lines columns source = some n ∧ ofOffset source n = ⟨lines + 1, columns + 1, n⟩ := by
  obtain ⟨p, q, rfl, rfl⟩ := Text.isBoundary_iff.1 boundary
  obtain ⟨lines, columns, walked, read⟩ := exists_walk 1 1 p q
  rw [ite_self] at read
  exact ⟨lines, columns, walked, by rw [ofOffset_append, read, Nat.add_comm 1, Nat.add_comm 1]⟩

/-- What is walked over is a beginning of the text. -/
theorem exists_of_walk (walked : walk lines columns source = some n) :
    ∃ p q, source = p ++ q ∧ Text.bytes p = n ∧ ∀ line column,
      advance (line, column) p = (line + lines, (if lines = 0 then column else 1) + columns) := by
  fun_induction walk lines columns source generalizing n with
  | case1 s =>
    cases walked
    exact ⟨[], s, rfl, rfl, fun _ _ => rfl⟩
  | case2 => cases walked
  | case3 => cases walked
  | case4 columns c s eol ih =>
    obtain ⟨m, rest, rfl⟩ := Option.map_eq_some_iff.1 walked
    obtain ⟨p, q, rfl, rfl, read⟩ := ih rest
    refine ⟨c :: p, q, rfl, rfl, fun line column => ?_⟩
    rw [advance, read, if_pos rfl, if_pos rfl, Nat.add_assoc, Nat.add_comm 1]
    exact eol
  | case5 => cases walked
  | case6 lines columns c s ih =>
    obtain ⟨m, rest, rfl⟩ := Option.map_eq_some_iff.1 walked
    obtain ⟨p, q, rfl, rfl, read⟩ := ih rest
    refine ⟨c :: p, q, rfl, rfl, fun line column => ?_⟩
    rw [if_neg (Nat.succ_ne_zero lines)]
    by_cases eol : c = '\n'
    · subst eol
      rw [advance, read, if_pos rfl, ite_self, Nat.add_assoc, Nat.add_comm 1]
    · rw [advance, read, if_neg eol, if_neg (Nat.succ_ne_zero lines)]
      exact eol

/-- The offset that a line and a column lead to is the one that has them. -/
theorem walk_eq_some_iff :
    walk lines columns source = some n ↔
      source.isBoundary n = true ∧ ofOffset source n = ⟨lines + 1, columns + 1, n⟩ := by
  constructor
  · intro walked
    obtain ⟨p, q, rfl, rfl, read⟩ := exists_of_walk walked
    have place := ofOffset_append p q
    rw [read 1 1, ite_self, Nat.add_comm 1, Nat.add_comm 1] at place
    exact ⟨Text.isBoundary_append p q, place⟩
  · rintro ⟨boundary, place⟩
    obtain ⟨lines', columns', walked, place'⟩ := exists_ofOffset boundary
    rw [place] at place'
    cases place'
    exact walked

/-- **Locations order and identify positions.** Of two boundaries the greater one is on a later line or in a later
column. The location of a boundary has it as its offset, and its line and column, both counted from one, lead
there, as no others do. Any other offset has the location of the nearest boundary before it, which is the end of the text when it
is past that. -/
theorem identify_positions (source : Text) :
    StrictMonoOn (fun n => (ofOffset source n).key) {n | source.isBoundary n = true} ∧
      (∀ n, source.isBoundary n = true →
        let l := ofOffset source n
        l.offset = n ∧ 1 ≤ l.line ∧ 1 ≤ l.column ∧ walk (l.line - 1) (l.column - 1) source = some n ∧
          ∀ lines columns, walk lines columns source = some n →
            l.line = lines + 1 ∧ l.column = columns + 1) ∧
      ∀ n, ∃ m, IsGreatest {m | source.isBoundary m = true ∧ m ≤ n} m ∧
        ofOffset source n = ofOffset source m ∧ (Text.bytes source ≤ n → m = Text.bytes source) := by
  refine ⟨strictMonoOn_key source, fun n boundary => ?_, fun n => ?_⟩
  · obtain ⟨lines, columns, walked, place⟩ := exists_ofOffset boundary
    rw [place]
    refine ⟨rfl, Nat.succ_pos lines, Nat.succ_pos columns, walked, fun lines' columns' walked' => ?_⟩
    have place' := (walk_eq_some_iff.1 walked').2
    rw [place] at place'
    cases place'
    exact ⟨rfl, rfl⟩
  · exact ⟨Text.floor source n, Text.isGreatest_floor source n, (ofOffset_floor source n).symm, Text.floor_of_le⟩

/-- After a letter of two bytes, the line feed, the character after it and the end of the text. -/
theorem identify_positions_accent :
    let source : Text := "é\nb".toList
    (ofOffset source 2).key < (ofOffset source 3).key ∧
      source.isBoundary 3 = true ∧ ofOffset source 3 = ⟨2, 1, 3⟩ ∧ walk 1 0 source = some 3 ∧
      ∃ m, IsGreatest {m | source.isBoundary m = true ∧ m ≤ 9} m ∧ m = 4 := by
  intro source
  have line_end : source.isBoundary 2 = true := by decide
  have line_start : source.isBoundary 3 = true := by decide
  have place : ofOffset source 3 = ⟨2, 1, 3⟩ := by decide
  obtain ⟨ordered, leads, back⟩ := identify_positions source
  obtain ⟨-, -, -, walked, -⟩ := leads 3 line_start
  rw [place] at walked
  obtain ⟨m, greatest, -, past⟩ := back 9
  exact ⟨ordered line_end line_start (by decide), line_start, place, walked, m, greatest, past (by decide)⟩

end Location
end Folio
