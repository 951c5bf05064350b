import Folio.Markup.Block
import Folio.Proofs.Markup.Lines
import Mathlib.Data.List.Find

/-!
# Dedenting

The lines of a widget's body lose the indentation that those with content have in common. A line
without content may be shorter than that, and is then left empty; but its white space need not be
made of characters of one byte, so that the offset may lie within one of them. Main statement:
`Block.dedent_eq_error_iff` says that a region is refused to be dedented exactly then.
-/

namespace Folio

namespace Text

theorem isBoundary_append_iff {s t : Text} {n : Nat} :
    isBoundary (s ++ t) (bytes s + n) = true ↔ isBoundary t n = true := by
  rw [isBoundary_iff, isBoundary_iff]
  constructor
  · rintro ⟨p, q, e, size⟩
    obtain ⟨p, rfl⟩ := prefix_of_bytes_le e (by omega)
    rw [List.append_assoc, List.append_cancel_left_eq] at e
    rw [bytes_append, Nat.add_left_cancel_iff] at size
    exact ⟨p, q, e, size⟩
  · rintro ⟨p, q, rfl, rfl⟩
    exact ⟨s ++ p, q, by rw [List.append_assoc], by rw [bytes_append]⟩

theorem isBoundary_of_append {s t : Text} {n : Nat} (h : isBoundary (s ++ t) n = true)
    (le : n ≤ bytes s) : isBoundary s n = true := by
  obtain ⟨p, q, e, rfl⟩ := isBoundary_iff.1 h
  obtain ⟨u, rfl⟩ := prefix_of_bytes_le e.symm le
  exact isBoundary_append p u

/-- An offset of a text is no boundary exactly if it lies within a character. -/
theorem isBoundary_eq_false_iff {s : Text} {n : Nat} :
    n < bytes s ∧ isBoundary s n = false ↔
      ∃ p c q, s = p ++ c :: q ∧ bytes p < n ∧ n < bytes p + c.utf8Size := by
  constructor
  · rintro ⟨lt, inside⟩
    induction s generalizing n with
    | nil => cases lt
    | cons c s ih =>
      -- the offset lies within the first character, or the character is passed over
      rcases Nat.lt_or_ge n c.utf8Size with first | ge
      · refine ⟨[], c, s, rfl, Nat.pos_of_ne_zero ?_, by rwa [bytes_nil, Nat.zero_add]⟩
        rintro rfl
        rw [isBoundary_zero] at inside
        cases inside
      · obtain ⟨n, rfl⟩ := Nat.exists_eq_add_of_le ge
        have rest : isBoundary s n = false := by
          rw [← Bool.not_eq_true, ← isBoundary_append_iff (s := [c]), bytes_cons, bytes_nil,
            Nat.add_zero, Bool.not_eq_true]
          exact inside
        obtain ⟨p, d, q, rfl, gt, lt⟩ := ih (by rw [bytes_cons] at lt; omega) rest
        exact ⟨c :: p, d, q, rfl, by rw [bytes_cons]; omega, by rw [bytes_cons]; omega⟩
  · rintro ⟨p, c, q, rfl, gt, lt⟩
    refine ⟨by rw [bytes_append, bytes_cons]; omega, Bool.not_eq_true _ ▸ fun boundary => ?_⟩
    -- a boundary after the beginning `p` is at least one character further
    obtain ⟨p', q', e, rfl⟩ := isBoundary_iff.1 boundary
    obtain ⟨t, rfl⟩ := prefix_of_bytes_le e (Nat.le_of_lt gt)
    rw [bytes_append] at gt lt
    rw [List.append_assoc, List.append_cancel_left_eq] at e
    cases t with
    | nil => rw [bytes_nil] at gt; omega
    | cons d t =>
      obtain ⟨rfl, -⟩ := List.cons.inj e
      rw [bytes_cons] at lt
      omega

end Text

namespace Line

/-- Where a line can be cut in its text, it can be cut. -/
theorem isBoundary_of_isCut {s : Text} {l : Line} {n : Nat} (mem : l ∈ split s)
    (le : n ≤ Text.bytes l.text) (cut : Text.IsCut s (l.start + n) l.stop) :
    Text.isBoundary l.text n = true := by
  obtain ⟨before, after, lines⟩ := List.append_of_mem mem
  have boundary := cut.start
  rw [eq_join_append lines, start_of_split lines, Text.isBoundary_append_iff, join,
    List.flatMap_cons, raw, List.append_assoc] at boundary
  exact Text.isBoundary_of_append boundary le

end Line

namespace Block

variable {r : Region} {l : Line}

/-- The indentation that the lines of a region with content have in common. -/
def margin (r : Region) : Nat :=
  (((r.lines.filter fun l => !Text.isBlank l.text).map fun l => indentation l.text).min?).getD 0

/-- Whether a margin ends within a character of a line. -/
def straddles (margin : Nat) (l : Line) : Bool :=
  margin < Text.bytes l.text && !Text.isBoundary l.text margin

theorem straddles_iff {margin : Nat} :
    straddles margin l = true ↔ ∃ p c q, l.text = p ++ c :: q ∧ Text.bytes p < margin ∧
      margin < Text.bytes p + c.utf8Size := by
  rw [← Text.isBoundary_eq_false_iff, straddles, Bool.and_eq_true, decide_eq_true_eq,
    Bool.not_eq_true']

/-- The margin ends within white space, if within a character. -/
theorem isBlank_of_straddles (mem : l ∈ r.lines) (h : straddles (margin r) l = true) :
    Text.isBlank l.text = true := by
  rw [← Bool.not_eq_false]
  intro content
  have le : margin r ≤ indentation l.text :=
    List.min?_getD_le_of_mem
      (List.mem_map.2 ⟨l, List.mem_filter.2 ⟨mem, by rw [content]; rfl⟩, rfl⟩)
  rw [straddles, isBoundary_of_le_indentation le, Bool.not_true, Bool.and_false] at h
  cases h

theorem isCut_margin_iff {n : Nat} (mem : l ∈ r.lines) :
    Text.IsCut r.text (min (l.start + n) l.stop) l.stop ↔ straddles n l = false := by
  rw [straddles, Bool.and_eq_false_iff, decide_eq_false_iff_not, Bool.not_eq_false', Nat.not_lt]
  constructor
  · intro cut
    rcases Nat.lt_or_ge n (Text.bytes l.text) with lt | le
    · have in_line : min (l.start + n) l.stop = l.start + n :=
        Nat.min_eq_left (Nat.add_le_add_left (Nat.le_of_lt lt) _)
      rw [in_line] at cut
      exact .inr (Line.isBoundary_of_isCut mem (Nat.le_of_lt lt) cut)
    · exact .inl le
  · rintro (le | boundary)
    · have past : min (l.start + n) l.stop = l.stop := Nat.min_eq_right (Nat.add_le_add_left le _)
      rw [past]
      exact Line.isCut_stop mem (Text.isBoundary_bytes l.text)
    · rw [Line.min_stop boundary]
      exact Line.isCut_stop mem boundary

theorem dedent_eq (r : Region) :
    dedent r = if margin r = 0 then .ok r
      else gather r (r.lines.map fun l => (min (l.start + margin r) l.stop, l.stop)) := by
  unfold dedent
  dsimp only
  split
  · rename_i zero
    exact (if_pos zero).symm
  · rename_i pos
    exact (if_neg pos).symm

/-- A region stays as it is if no line of it is indented. -/
theorem dedent_of_flush (flush : ∀ l ∈ r.lines, indentation l.text = 0) : dedent r = .ok r := by
  have zero : margin r = 0 := by
    unfold margin
    cases least : ((r.lines.filter fun l => !Text.isBlank l.text).map fun l => indentation l.text).min?
      with
    | none => rfl
    | some n =>
      obtain ⟨l, mem, rfl⟩ := List.mem_map.1 (List.min?_mem least)
      exact flush l (List.mem_filter.1 mem).1
  rw [dedent_eq, if_pos zero]

/-- A region cannot be dedented exactly if its margin ends within a character of one of its lines,
and the first such line is reported. -/
theorem dedent_eq_error_iff {h : Halt} :
    dedent r = .error h ↔
      ∃ l, r.lines.find? (straddles (margin r)) = some l ∧
        h = .badCut (l.start + margin r) l.stop := by
  rw [dedent_eq]
  split
  · rename_i zero
    have none_straddles : r.lines.find? (straddles (margin r)) = none := by
      rw [List.find?_eq_none]
      intro l mem
      rw [zero, straddles, Text.isBoundary_zero, Bool.not_true, Bool.and_false]
      exact Bool.false_ne_true
    simp [none_straddles]
  · have same : ∀ l ∈ r.lines,
        (!decide (Text.IsCut r.text (min (l.start + margin r) l.stop) l.stop)) =
          straddles (margin r) l := by
      intro l mem
      simp only [isCut_margin_iff mem]
      cases straddles (margin r) l <;> rfl
    rw [gather_eq_error_iff, List.find?_map]
    simp only [Function.comp_def, List.find?_congr same]
    cases found : r.lines.find? (straddles (margin r)) with
    | none => simp
    | some l =>
      have inside := List.find?_some found
      rw [straddles, Bool.and_eq_true, decide_eq_true_eq] at inside
      have in_line : min (l.start + margin r) l.stop = l.start + margin r :=
        Nat.min_eq_left (Nat.add_le_add_left (Nat.le_of_lt inside.1) _)
      simp [in_line]

end Block
end Folio
