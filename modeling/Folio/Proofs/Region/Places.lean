import Folio.Proofs.Region.Cut
import Folio.Proofs.Text.Holds
import Folio.Text.Blank

/-!
# Places in the source

The characters of a region come from the source, in their order, and each of them is placed where
it stands there. Only the line feeds that join pieces need not: such a line feed is placed at white
space of the source, the end of a line or the start of a blank one, and what follows it may be
further on. `Region.Faithful` says this of a region. Main statements:

* `Region.Faithful.joins`: where a character of a region stands in the source;
* `Region.Faithful.toSource_lt`: places are in order;
* `Region.Faithful.holds`: a part of a line stands in the source as it does in the region;
* `Region.Faithful.span_eq`: the span of a range in terms of its last character.
-/

namespace Folio

/-- A placed character stands in the source at its place and `next` comes right after it, or it is
a line feed at the place of white space and `next` comes after that. -/
def Placed.Joins (source : Text) (p : Placed) (next : Nat) : Prop :=
  ∃ c, source.Holds p.pos [c] ∧
    (p.char = c ∧ p.pos + c.utf8Size = next ∨
      p.char = '\n' ∧ Text.isBlankChar c = true ∧ p.pos + c.utf8Size ≤ next)

namespace Placed.Joins

variable {source : Text} {p : Placed} {next : Nat}

theorem lt (h : p.Joins source next) : p.pos < next := by
  obtain ⟨c, -, ⟨-, rfl⟩ | ⟨-, -, le⟩⟩ := h
  · exact Nat.lt_add_of_pos_right c.utf8Size_pos
  · have := c.utf8Size_pos
    omega

theorem isBoundary (h : p.Joins source next) : Text.isBoundary source p.pos = true := by
  obtain ⟨c, held, -⟩ := h
  exact held.isBoundary

theorem holds (h : p.Joins source next) (visible : p.char ≠ '\n') :
    source.Holds p.pos [p.char] ∧ p.pos + p.char.utf8Size = next := by
  obtain ⟨c, held, ⟨rfl, next_eq⟩ | ⟨eol, -⟩⟩ := h
  · exact ⟨held, next_eq⟩
  · exact absurd eol visible

/-- White space is placed at white space. -/
theorem exists_blank (h : p.Joins source next) (blank : Text.isBlankChar p.char = true) :
    ∃ c, Text.isBlankChar c = true ∧ source.Holds p.pos [c] ∧ p.pos + c.utf8Size ≤ next := by
  obtain ⟨c, held, ⟨rfl, next_eq⟩ | ⟨-, white, le⟩⟩ := h
  · exact ⟨_, blank, held, Nat.le_of_eq next_eq⟩
  · exact ⟨c, white, held, le⟩

end Placed.Joins

namespace Region

variable {source : Text} {r : Region} {ps qs : List Placed} {stop m n : Nat} {c : Char}

/-! ### Placed characters -/

/-- The place where some placed characters start that are followed by `stop`. -/
def place (stop : Nat) : List Placed → Nat
  | [] => stop
  | p :: _ => p.pos

@[simp] theorem place_cons (p : Placed) : place stop (p :: ps) = p.pos := rfl

theorem place_append : place stop (ps ++ qs) = place (place stop qs) ps := by
  cases ps <;> rfl

theorem locate_append : locate stop (ps ++ qs) (Text.bytes (ps.map Placed.char) + n) =
    locate stop qs n := by
  induction ps with
  | nil => simp
  | cons p ps ih =>
    have past : ¬ p.char.utf8Size + Text.bytes (ps.map Placed.char) + n < p.char.utf8Size := by
      omega
    have rest : p.char.utf8Size + Text.bytes (ps.map Placed.char) + n - p.char.utf8Size =
        Text.bytes (ps.map Placed.char) + n := by omega
    rw [List.cons_append, List.map_cons, Text.bytes_cons, locate, if_neg past, rest, ih]

theorem locate_zero : locate stop ps 0 = place stop ps := by
  cases ps with
  | nil => rfl
  | cons p ps => rw [locate, if_pos p.char.utf8Size_pos, place_cons, Nat.add_zero]

/-- Placed characters that are followed by `stop` come from the source. -/
def Follows (source : Text) (stop : Nat) : List Placed → Prop
  | [] => Text.isBoundary source stop = true
  | p :: ps => p.Joins source (place stop ps) ∧ Follows source stop ps

namespace Follows

theorem isBoundary_place (h : Follows source stop ps) :
    Text.isBoundary source (place stop ps) = true := by
  cases ps with
  | nil => exact h
  | cons p ps => exact h.1.isBoundary

theorem isBoundary_stop (h : Follows source stop ps) : Text.isBoundary source stop = true := by
  induction ps with
  | nil => exact h
  | cons p ps ih => exact ih h.2

theorem place_le (h : Follows source stop ps) : place stop ps ≤ stop := by
  induction ps with
  | nil => exact Nat.le_refl _
  | cons p ps ih => exact Nat.le_trans (Nat.le_of_lt h.1.lt) (ih h.2)

/-- Characters without a line feed stand in the source one after another. -/
theorem holds (h : Follows source stop ps) (visible : '\n' ∉ ps.map Placed.char) :
    source.Holds (place stop ps) (ps.map Placed.char) ∧
      place stop ps + Text.bytes (ps.map Placed.char) = stop := by
  induction ps with
  | nil => exact ⟨Text.holds_nil_iff.2 h, rfl⟩
  | cons p ps ih =>
    rw [List.map_cons, List.mem_cons, not_or] at visible
    obtain ⟨held, next_eq⟩ := h.1.holds (Ne.symm visible.1)
    obtain ⟨rest, size⟩ := ih h.2 visible.2
    rw [← next_eq] at rest size
    refine ⟨Text.holds_cons_iff.2 ⟨held, rest⟩, ?_⟩
    rw [place_cons, List.map_cons, Text.bytes_cons, ← size, Nat.add_assoc]

end Follows

theorem follows_append_iff :
    Follows source stop (ps ++ qs) ↔ Follows source (place stop qs) ps ∧ Follows source stop qs := by
  induction ps with
  | nil =>
    constructor
    · intro h
      exact ⟨h.isBoundary_place, h⟩
    · exact And.right
  | cons p ps ih => rw [List.cons_append, Follows, Follows, ih, place_append, and_assoc]

/-- Characters that stand in the source can be placed there. -/
theorem follows_along {s : Text} {pos : Nat} (h : source.Holds pos s) :
    Follows source (pos + Text.bytes s) (Placed.along pos s) ∧
      place (pos + Text.bytes s) (Placed.along pos s) = pos := by
  induction s generalizing pos with
  | nil => exact ⟨h.isBoundary, rfl⟩
  | cons c s ih =>
    obtain ⟨held, rest⟩ := Text.holds_cons_iff.1 h
    obtain ⟨follows, start⟩ := ih rest
    rw [Nat.add_assoc, ← Text.bytes_cons] at follows start
    exact ⟨⟨⟨c, held, .inl ⟨rfl, start.symm⟩⟩, follows⟩, rfl⟩

/-! ### Regions -/

/-- The characters of a region come from the source. -/
def Faithful (source : Text) (r : Region) : Prop := Follows source r.stop r.cells

theorem faithful_root (source : Text) : Faithful source (root source) := by
  have whole : source.Holds 0 source := ⟨[], by simpa using Text.IsRest.refl source⟩
  have follows := (follows_along whole).1
  rwa [Nat.zero_add] at follows

theorem toSource_eq_place {before rest : List Placed} (cells : r.cells = before ++ rest) :
    r.toSource (Text.bytes (before.map Placed.char)) = place r.stop rest := by
  rw [toSource, cells, ← Nat.add_zero (Text.bytes _), locate_append, locate_zero]

theorem toSource_bytes (r : Region) : r.toSource (Text.bytes r.text) = r.stop :=
  toSource_eq_place (List.append_nil r.cells).symm

theorem toSource_zero (r : Region) : r.toSource 0 = place r.stop r.cells :=
  toSource_eq_place (List.nil_append r.cells).symm

namespace Faithful

variable (h : Faithful source r)

include h

/-- The characters between two boundaries, and where they and what follows them are placed. -/
theorem exists_cells (cut : Text.IsCut r.text m n) :
    ∃ inside after, r.cutCells? m n = some inside ∧ r.text.Holds m (inside.map Placed.char) ∧
      m + Text.bytes (inside.map Placed.char) = n ∧ Follows source (r.toSource n) inside ∧
      Follows source r.stop after ∧ r.toSource m = place (r.toSource n) inside ∧
      r.toSource n = place r.stop after := by
  obtain ⟨inside, taken⟩ := Option.isSome_iff_exists.1 (cutCells?_isSome_iff.2 cut)
  obtain ⟨before, after, cells, rfl, rfl⟩ := cutCells?_eq_some_iff.1 taken
  have start := toSource_eq_place cells
  have cells' : r.cells = (before ++ inside) ++ after := by rw [cells, List.append_assoc]
  have stop := toSource_eq_place cells'
  rw [List.map_append, Text.bytes_append] at stop
  have follows : Follows source r.stop (before ++ (inside ++ after)) := cells ▸ h
  obtain ⟨-, follows⟩ := follows_append_iff.1 follows
  obtain ⟨first, second⟩ := follows_append_iff.1 follows
  refine ⟨inside, after, taken, ⟨after.map Placed.char, before.map Placed.char, ?_, rfl⟩, rfl,
    ?_, second, ?_, stop⟩
  · rw [text, cells, List.map_append, List.map_append]
  · rwa [stop]
  · rw [start, stop, place_append]

theorem isBoundary_toSource (boundary : Text.isBoundary r.text n = true) :
    Text.isBoundary source (r.toSource n) = true := by
  obtain ⟨inside, after, -, -, -, first, -⟩ := h.exists_cells ⟨Nat.le_refl n, boundary, boundary⟩
  exact first.isBoundary_stop

theorem toSource_le (cut : Text.IsCut r.text m n) : r.toSource m ≤ r.toSource n := by
  obtain ⟨inside, after, -, -, -, first, -, start, -⟩ := h.exists_cells cut
  rw [start]
  exact first.place_le

theorem toSource_le_stop (boundary : Text.isBoundary r.text n = true) :
    r.toSource n ≤ r.stop := by
  rw [← toSource_bytes]
  exact h.toSource_le ⟨Text.le_bytes_of_isBoundary boundary, boundary, Text.isBoundary_bytes _⟩

theorem toSource_zero_le (boundary : Text.isBoundary r.text n = true) :
    r.toSource 0 ≤ r.toSource n :=
  h.toSource_le ⟨Nat.zero_le n, Text.isBoundary_zero _, boundary⟩

/-- A character of a region comes from the source. -/
theorem joins (held : r.text.Holds n [c]) :
    (⟨c, r.toSource n⟩ : Placed).Joins source (r.toSource (n + c.utf8Size)) := by
  have cut := held.isCut
  rw [Text.bytes_cons, Text.bytes_nil, Nat.add_zero] at cut
  obtain ⟨inside, after, -, there, size, first, -, start, -⟩ := h.exists_cells cut
  have same : inside.map Placed.char = [c] := by
    refine there.unique held ?_
    rw [Text.bytes_cons, Text.bytes_nil]
    omega
  obtain ⟨p, rfl, rfl⟩ := List.map_eq_singleton_iff.1 same
  rw [start]
  exact first.1

/-- A part of a line stands in the source as it does in the region. -/
theorem holds {w : Text} (held : r.text.Holds n w) (visible : '\n' ∉ w) :
    source.Holds (r.toSource n) w ∧ r.toSource (n + Text.bytes w) = r.toSource n + Text.bytes w := by
  obtain ⟨inside, after, -, there, size, first, -, start, -⟩ := h.exists_cells held.isCut
  have same : inside.map Placed.char = w := there.unique held (Nat.add_left_cancel size)
  obtain ⟨stands, stop⟩ := first.holds (same.symm ▸ visible)
  rw [same, ← start] at stands stop
  exact ⟨stands, stop.symm⟩

end Faithful

/-! ### Spans -/

theorem sizeAt_append {s t : Text} : sizeAt (s ++ t) (Text.bytes s + n) = sizeAt t n := by
  induction s with
  | nil => simp
  | cons d s ih =>
    have past : ¬ d.utf8Size + Text.bytes s + n < d.utf8Size := by omega
    have rest : d.utf8Size + Text.bytes s + n - d.utf8Size = Text.bytes s + n := by omega
    rw [List.cons_append, Text.bytes_cons, sizeAt, if_neg past, rest, ih]

/-- The last byte of a character. -/
theorem toSource_last (held : r.text.Holds n [c]) :
    r.toSource (n + c.utf8Size - 1) = r.toSource n + (c.utf8Size - 1) ∧
      sizeAt r.text (n + c.utf8Size - 1) = c.utf8Size := by
  have pos := c.utf8Size_pos
  have within : c.utf8Size - 1 < c.utf8Size := by omega
  obtain ⟨after, before, text_eq, rfl⟩ := held
  obtain ⟨before, rest, cells, rfl, tail⟩ := List.map_eq_append_iff.1 text_eq
  obtain ⟨p, rest, rfl, rfl, -⟩ := List.map_eq_cons_iff.1 tail
  rw [Nat.add_sub_assoc pos]
  constructor
  · rw [toSource_eq_place cells, toSource, cells, locate_append, locate, if_pos within, place_cons]
  · rw [text_eq, sizeAt_append, List.singleton_append, sizeAt, if_pos within]

/-- A span runs past the place of its last character by twice the size of that, less one. -/
theorem Faithful.span_eq {start : Nat} (h : Faithful source r)
    (boundary : Text.isBoundary r.text start = true) (held : r.text.Holds n [c])
    (le : start ≤ n) :
    r.span start (n + c.utf8Size) =
      ⟨r.toSource start, r.toSource n + (2 * c.utf8Size - 1)⟩ := by
  have pos := c.utf8Size_pos
  have nonempty : start < n + c.utf8Size := by omega
  have ordered : r.toSource start ≤ r.toSource n := h.toSource_le ⟨le, boundary, held.isBoundary⟩
  obtain ⟨last, size⟩ := toSource_last held
  have stop_eq : r.toSource n + (c.utf8Size - 1) + c.utf8Size =
      r.toSource n + (2 * c.utf8Size - 1) := by omega
  rw [span, if_pos nonempty, last, size, stop_eq, Nat.max_eq_left (by omega)]

end Region
end Folio
