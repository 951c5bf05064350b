import Folio.Proofs.Markup.Reading
import Folio.Proofs.Region.Content

/-!
# What is read of a line

What a line has besides its content is made of marks: its indentation, the marks of quotes and
list items, fences, the hashes of headings and thematic breaks. So a line and what is read of it
have the same characters of a class that no mark is made of. Main statements:

* `startsInMarks_of_quoteMark?` and `startsInMarks_of_listMark`: what comes before the content;
* `HeadingMark.filter_fills`: the content of a heading;
* `Fence.filter_open?` and `Fence.filter_closes`: the lines of a fence;
* `filter_isThematicBreak`.
-/

namespace Folio

variable {p : Char → Bool} {line rest : Text}

/-! ### Beginnings of marks -/

namespace Text

/-- A beginning of a text of at least some size is made of marks. -/
def StartsInMarks (s : Text) (n : Nat) : Prop :=
  ∃ v w, s = v ++ w ∧ (∀ c ∈ v, isMark c = true) ∧ n ≤ bytes v

/-- The text from an offset on, where only marks come before. -/
theorem StartsInMarks.filter_dropBytes {s : Text} {n : Nat} (h : s.StartsInMarks n)
    (unmarked : IsUnmarked p) : (dropBytes s n).filter p = s.filter p := by
  obtain ⟨v, w, rfl, marks, le⟩ := h
  induction v generalizing n with
  | nil =>
    obtain rfl : n = 0 := Nat.le_zero.1 le
    exact congrArg _ (dropBytes_append [] w)
  | cons c v ih =>
    rw [List.forall_mem_cons] at marks
    rw [bytes_cons] at le
    rw [List.cons_append, dropBytes]
    split
    · rw [ih marks.2 (by omega), List.filter_cons_of_neg (by simp [unmarked c marks.1])]
    · rfl

end Text

theorem isMark_of_isIndent {c : Char} (h : isIndent c = true) : Text.isMark c = true := by
  rw [Text.isMark, isBlankChar_of_isIndent h, Bool.true_or, Bool.true_or]

theorem isMark_of_mem_indent {c : Char} (mem : c ∈ line.takeWhile isIndent) :
    Text.isMark c = true :=
  isMark_of_isIndent (List.all_eq_true.1 List.all_takeWhile c mem)

theorem startsInMarks_of_le_indentation {n : Nat} (le : n ≤ indentation line) :
    line.StartsInMarks n := by
  refine ⟨line.takeWhile isIndent, line.dropWhile isIndent,
    List.takeWhile_append_dropWhile.symm, fun c => isMark_of_mem_indent, ?_⟩
  rwa [Text.bytes_eq_length fun c => utf8Size_of_mem_indent]

/-- A beginning of a line of its indentation and marks of one byte. -/
theorem startsInMarks_of_unindent? (mark : Text) {n : Nat}
    (h : unindent? line = some (mark ++ rest)) (marks : ∀ c ∈ mark, Text.isMark c = true)
    (small : ∀ c ∈ mark, c.utf8Size = 1) (le : n ≤ mark.length) :
    line.StartsInMarks (indentation line + n) := by
  refine ⟨line.takeWhile isIndent ++ mark, rest, ?_, ?_, ?_⟩
  · rw [List.append_assoc]
    exact eq_append_of_unindent? h
  · exact List.forall_mem_append.2 ⟨fun c => isMark_of_mem_indent, marks⟩
  · rw [Text.bytes_append, Text.bytes_eq_length fun c => utf8Size_of_mem_indent,
      Text.bytes_eq_length small]
    exact Nat.add_le_add_left le _

theorem startsInMarks_of_quoteMark? {n : Nat} (h : quoteMark? line = some n) :
    line.StartsInMarks n := by
  unfold quoteMark? at h
  obtain ⟨rest, unindented, h⟩ := Option.bind_eq_some_iff.1 h
  split at h
  · cases h
    exact startsInMarks_of_unindent? ['>', ' '] unindented (List.all_eq_true.1 rfl)
      (List.forall_mem_cons.2 ⟨rfl, List.forall_mem_singleton.2 rfl⟩) (Nat.le_refl _)
  · cases h
    exact startsInMarks_of_unindent? ['>'] unindented (List.all_eq_true.1 rfl)
      (List.forall_mem_singleton.2 rfl) (Nat.le_refl _)
  · cases h

theorem ListMark.isMark_of_isBulletChar {c : Char} (h : isBulletChar c = true) :
    Text.isMark c = true := by
  rw [isBulletChar, Bool.or_eq_true] at h
  rcases h with digit | other
  · rw [Text.isMark, digit, Bool.or_true, Bool.true_or]
  · simp only [List.contains_cons, List.contains_nil, Bool.or_eq_true, beq_iff_eq,
      Bool.or_false] at other
    rcases other with rfl | rfl | rfl | rfl | rfl <;> rfl

theorem startsInMarks_of_listMark {mark : ListMark} (h : ListMark.ofLine? line = some mark) :
    line.StartsInMarks mark.content := by
  obtain ⟨bullet, after, unindented, chars, ⟨rfl, content⟩ | content⟩ := ListMark.exists_of_ofLine? h
  · -- an item without content
    rw [List.append_nil] at unindented
    refine ⟨line, [], (List.append_nil _).symm, ?_, Nat.le_of_eq content⟩
    rw [eq_append_of_unindent? unindented]
    exact List.forall_mem_append.2
      ⟨fun c => isMark_of_mem_indent, fun c mem => ListMark.isMark_of_isBulletChar (chars c mem)⟩
  · rw [← List.takeWhile_append_dropWhile (p := isIndent) (l := after), ← List.append_assoc]
      at unindented
    rw [content]
    refine startsInMarks_of_unindent? _ unindented ?_ ?_ ?_
    · exact List.forall_mem_append.2
        ⟨fun c mem => ListMark.isMark_of_isBulletChar (chars c mem), fun c => isMark_of_mem_indent⟩
    · exact List.forall_mem_append.2
        ⟨fun c mem => ListMark.utf8Size_of_isBulletChar (chars c mem),
          fun c => utf8Size_of_mem_indent⟩
    · rw [List.length_append]
      exact Nat.add_le_add_left (Nat.min_le_right ..) _

/-! ### Lines of marks -/

section Marks

variable (unmarked : Text.IsUnmarked p)

include unmarked

theorem filter_unindent? (h : unindent? line = some rest) : line.filter p = rest.filter p := by
  rw [eq_append_of_unindent? h, List.filter_append,
    unmarked.filter_eq_nil fun c => isMark_of_mem_indent, List.nil_append]

theorem filter_outdent (indent : Nat) : (Block.outdent indent line).filter p = line.filter p := by
  have marks : ∀ c ∈ line.take (min (indentation line) indent), Text.isMark c = true := by
    intro c mem
    have among : c ∈ line.takeWhile isIndent := by
      rw [List.prefix_iff_eq_take.1 (List.takeWhile_prefix isIndent)]
      exact List.take_subset_take_left line (Nat.min_le_left ..) mem
    exact isMark_of_mem_indent among
  conv_rhs => rw [← List.take_append_drop (min (indentation line) indent) line]
  rw [List.filter_append, unmarked.filter_eq_nil marks, List.nil_append, Block.outdent]

theorem filter_isBlank (h : Text.isBlank line = true) : line.filter p = [] :=
  unmarked.filter_eq_nil fun c mem => by rw [Text.isMark, List.all_eq_true.1 h c mem]; rfl

theorem filter_isThematicBreak (h : isThematicBreak line = true) : line.filter p = [] := by
  unfold isThematicBreak at h
  rw [Bool.and_eq_true] at h
  refine unmarked.filter_eq_nil fun c mem => ?_
  by_cases blank : Text.isBlankChar c = true
  · rw [Text.isMark, blank]
    rfl
  · have among : c ∈ line.filter fun c => !Text.isBlankChar c := by
      rw [List.mem_filter]
      exact ⟨mem, by simpa using blank⟩
    have shape := h.2
    split at shape
    · rename_i none
      rw [none] at among
      cases among
    · rename_i d ds marks
      rw [Bool.and_eq_true, Bool.and_eq_true, List.all_eq_true, Bool.or_eq_true, Bool.or_eq_true,
        beq_iff_eq, beq_iff_eq, beq_iff_eq] at shape
      obtain rfl : c = d := beq_iff_eq.1 (shape.2 c among)
      rcases shape.1.1 with (rfl | rfl) | rfl <;> rfl

theorem HeadingMark.filter_title (after : Text) : (title after).filter p = after.filter p := by
  have hash : ∀ c : Char, (c == '#') = true → p c = false := by
    intro c is_hash
    rw [beq_iff_eq.1 is_hash]
    exact unmarked '#' rfl
  unfold title
  dsimp only
  split
  · rw [Text.trimEnd, Text.filter_trimEndOf fun _ => unmarked.blank, Text.filter_trimEndOf hash,
      unmarked.filter_trim]
  · exact unmarked.filter_trim

/-- What stands in the range of a heading's content. -/
theorem HeadingMark.filter_fills {mark : HeadingMark} {content : Text}
    (h : ofLine? line = some mark) (fills : line.Fills (mark.start, mark.stop) content) :
    content.filter p = line.filter p := by
  obtain ⟨rest, before, after, unindented, line_eq, start, stop⟩ := exists_title h
  have title_fills : line.Fills (mark.start, mark.stop) (title (rest.dropWhile (· == '#'))) :=
    ⟨⟨after, before, line_eq, start⟩, stop⟩
  have hash : ∀ c : Char, (c == '#') = true → p c = false := by
    intro c is_hash
    rw [beq_iff_eq.1 is_hash]
    exact unmarked '#' rfl
  rw [fills.unique title_fills, filter_title unmarked, Text.filter_dropWhile hash,
    filter_unindent? unmarked unindented]

namespace Fence

variable {f : Fence}

/-- What a fence says besides its marks is its info string. -/
theorem filter_open? (h : open? line = some f) :
    Text.isMark f.marker = true ∧ line.filter p = (f.info.getD "").toList.filter p := by
  unfold open? at h
  obtain ⟨rest, unindented, h⟩ := Option.bind_eq_some_iff.1 h
  obtain ⟨marker, first, h⟩ := Option.bind_eq_some_iff.1 h
  simp only [Text.drop_length_takeWhile] at h
  split at h
  · cases h
  · rename_i fence
    have mark : Text.isMark marker = true := by
      simp only [bne_iff_ne, Bool.and_eq_true, not_and_or, not_not] at fence
      rcases fence with rfl | rfl <;> rfl
    have outside : ∀ c, (c == marker) = true → p c = false := by
      intro c same
      rw [beq_iff_eq.1 same]
      exact unmarked marker mark
    have whole : line.filter p = (Text.trim (rest.dropWhile (· == marker))).filter p := by
      rw [unmarked.filter_trim, Text.filter_dropWhile outside, filter_unindent? unmarked unindented]
    split at h
    · cases h
    · split at h
      · cases h
      · cases h
        refine ⟨mark, whole.trans ?_⟩
        dsimp only
        split
        · rename_i empty
          rw [List.isEmpty_iff.1 empty]
          rfl
        · rw [Option.getD_some, String.toList_ofList]

theorem filter_closes (mark : Text.isMark f.marker = true) (h : f.closes line = true) :
    line.filter p = [] := by
  have outside : ∀ c, (c == f.marker) = true → p c = false := by
    intro c same
    rw [beq_iff_eq.1 same]
    exact unmarked f.marker mark
  unfold closes at h
  dsimp only at h
  rw [Text.drop_length_takeWhile, Bool.and_eq_true] at h
  rw [← Text.filter_dropWhile fun _ => unmarked.blank, ← Text.filter_dropWhile outside]
  exact filter_isBlank unmarked h.2

end Fence
end Marks
end Folio
