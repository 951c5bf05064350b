import Folio.Markup.LineKind
import Folio.Proofs.Region.Cut

/-!
# Offsets in lines

A line's mark is recognised by characters of one byte, so that the offsets found with it are
boundaries of the line, and with the line's start they are boundaries of the text. Main statements:

* `Line.start_of_split` and `Line.isCut`: where the lines of a text lie in it;
* `HeadingMark.isCut_of_ofLine?`, `isBoundary_of_quoteMark?` and `ListMark.isBoundary_of_ofLine?`:
  the content after a mark starts at a boundary.
-/

namespace Folio

/-! ### Lines of a text -/

namespace Line

theorem join_append (ls ms : List Line) : join (ls ++ ms) = join ls ++ join ms :=
  List.flatMap_append

theorem join_cons (l : Line) (ls : List Line) : join (l :: ls) = l.raw ++ join ls :=
  List.flatMap_cons

theorem start_of_place {start : Nat} {ps : List (Text × LineEnding)} {before after : List Line}
    {l : Line} (h : place start ps = before ++ l :: after) :
    l.start = start + Text.bytes (join before) := by
  induction ps generalizing start before with
  | nil => simp [place] at h
  | cons p ps ih =>
    cases before with
    | nil =>
      obtain ⟨rfl, -⟩ := List.cons.inj h
      simp [join]
    | cons m before =>
      obtain ⟨rfl, rest⟩ := List.cons.inj h
      rw [ih rest]
      simp [join, raw, next, stop, Nat.add_assoc]

/-- A line starts at the size of the text that the lines before it make up. -/
theorem start_of_split {s : Text} {before after : List Line} {l : Line}
    (h : split s = before ++ l :: after) : l.start = Text.bytes (join before) := by
  rw [start_of_place h, Nat.zero_add]

theorem eq_join_append {s : Text} {before after : List Line}
    (h : split s = before ++ after) : s = join before ++ join after := by
  rw [← join_append, ← h, join_split]

/-- A cut of a line is one of the text, from the line's start. -/
theorem isCut {s : Text} {l : Line} {i j : Nat} (mem : l ∈ split s) (cut : Text.IsCut l.text i j) :
    Text.IsCut s (l.start + i) (l.start + j) := by
  obtain ⟨before, after, lines⟩ := List.append_of_mem mem
  obtain ⟨p, inside, q, text_eq, rfl, rfl⟩ := cut.exists_parts
  have s_eq : s = (join before ++ p) ++ (inside ++ (q ++ (l.ending.text ++ join after))) := by
    rw [eq_join_append lines, join, join, List.flatMap_cons, raw, text_eq]
    simp only [join, List.append_assoc]
  rw [start_of_split lines, s_eq, ← Nat.add_assoc, ← Text.bytes_append]
  exact Text.isCut_of_parts ..

/-- From a boundary of a line to its end is a cut of the text. -/
theorem isCut_stop {s : Text} {l : Line} {n : Nat} (mem : l ∈ split s)
    (h : Text.isBoundary l.text n = true) : Text.IsCut s (l.start + n) l.stop :=
  isCut mem ⟨Text.le_bytes_of_isBoundary h, h, Text.isBoundary_bytes l.text⟩

/-- A cut that is made at a boundary of a line stays in the line. -/
theorem min_stop {l : Line} {n : Nat} (h : Text.isBoundary l.text n = true) :
    min (l.start + n) l.stop = l.start + n :=
  Nat.min_eq_left (Nat.add_le_add_left (Text.le_bytes_of_isBoundary h) _)

end Line

/-! ### Indentation -/

namespace Text

/-- Characters of one byte take as many bytes as they are. -/
theorem bytes_eq_length {s : Text} (h : ∀ c ∈ s, c.utf8Size = 1) : bytes s = s.length := by
  induction s with
  | nil => rfl
  | cons c s ih =>
    rw [List.forall_mem_cons] at h
    rw [bytes_cons, h.1, ih h.2, List.length_cons, Nat.add_comm]

/-- All offsets in a beginning of one-byte characters are boundaries. -/
theorem isBoundary_of_eq_append {text s t : Text} {n : Nat} (e : text = s ++ t)
    (h : ∀ c ∈ s, c.utf8Size = 1) (le : n ≤ s.length) : isBoundary text n = true := by
  refine isBoundary_iff.2 ⟨s.take n, s.drop n ++ t, ?_, ?_⟩
  · rw [← List.append_assoc, List.take_append_drop, e]
  · rw [bytes_eq_length fun c mem => h c (List.mem_of_mem_take mem), List.length_take]
    omega

/-- Visible characters of one byte are not white space. -/
theorem isBlankChar_of_toNat {c : Char} (low : 33 ≤ c.toNat) (high : c.toNat ≤ 126) :
    isBlankChar c = false := by
  rw [Char.toNat] at low high
  simp only [isBlankChar, Bool.or_eq_false_iff, Bool.and_eq_false_iff, decide_eq_false_iff_not,
    beq_eq_false_iff_ne, ne_eq, UInt32.le_iff_toNat_le, ← UInt32.toNat_inj, UInt32.reduceToNat]
  omega

theorem isBlankChar_of_isDigit {c : Char} (digit : c.isDigit = true) : isBlankChar c = false := by
  rw [Char.isDigit, Bool.and_eq_true, decide_eq_true_eq, decide_eq_true_eq] at digit
  have low : 48 ≤ c.toNat := UInt32.le_iff_toNat_le.1 digit.1
  have high : c.toNat ≤ 57 := UInt32.le_iff_toNat_le.1 digit.2
  exact isBlankChar_of_toNat (Nat.le_trans (by decide) low) (Nat.le_trans high (by decide))

theorem drop_length_takeWhile (p : Char → Bool) (s : Text) :
    s.drop (s.takeWhile p).length = s.dropWhile p := by
  induction s with
  | nil => rfl
  | cons c s ih =>
    rw [List.takeWhile_cons, List.dropWhile_cons]
    split
    · exact ih
    · rfl

end Text

theorem utf8Size_of_isIndent {c : Char} (h : isIndent c = true) : c.utf8Size = 1 := by
  rw [isIndent, Bool.or_eq_true, beq_iff_eq, beq_iff_eq] at h
  rcases h with rfl | rfl <;> rfl

theorem utf8Size_of_mem_indent {line : Text} {c : Char} (mem : c ∈ line.takeWhile isIndent) :
    c.utf8Size = 1 :=
  utf8Size_of_isIndent (List.all_eq_true.1 List.all_takeWhile c mem)

theorem isBlankChar_of_isIndent {c : Char} (h : isIndent c = true) : Text.isBlankChar c = true := by
  rw [isIndent, Bool.or_eq_true, beq_iff_eq, beq_iff_eq] at h
  rcases h with rfl | rfl <;> rfl

theorem isBoundary_of_le_indentation {line : Text} {n : Nat} (le : n ≤ indentation line) :
    Text.isBoundary line n = true := by
  exact Text.isBoundary_of_eq_append List.takeWhile_append_dropWhile.symm
    (fun c => utf8Size_of_mem_indent) le

theorem eq_append_of_unindent? {line rest : Text} (h : unindent? line = some rest) :
    line = line.takeWhile isIndent ++ rest := by
  unfold unindent? at h
  split at h
  · cases h
  · cases h
    exact List.takeWhile_append_dropWhile.symm

/-- A boundary after the indentation and one-byte characters. -/
theorem isBoundary_of_unindent? {line rest : Text} (mark : Text) {n : Nat}
    (h : unindent? line = some (mark ++ rest)) (small : ∀ c ∈ mark, c.utf8Size = 1)
    (le : n ≤ mark.length) : Text.isBoundary line (indentation line + n) = true := by
  have line_eq := eq_append_of_unindent? h
  rw [← List.append_assoc] at line_eq
  -- the indentation and the mark together are a beginning of one-byte characters
  refine Text.isBoundary_of_eq_append line_eq ?_ ?_
  · intro c mem
    rcases List.mem_append.1 mem with mem | mem
    · exact utf8Size_of_mem_indent mem
    · exact small c mem
  · rw [List.length_append]
    exact Nat.add_le_add_left le _

/-! ### Marks -/

theorem isBoundary_of_quoteMark? {line : Text} {n : Nat} (h : quoteMark? line = some n) :
    Text.isBoundary line n = true := by
  unfold quoteMark? at h
  obtain ⟨rest, unindented, h⟩ := Option.bind_eq_some_iff.1 h
  split at h
  · rename_i rest
    cases h
    exact isBoundary_of_unindent? ['>', ' '] unindented
      (List.forall_mem_cons.2 ⟨rfl, List.forall_mem_singleton.2 rfl⟩) (Nat.le_refl _)
  · rename_i rest _
    cases h
    exact isBoundary_of_unindent? ['>'] unindented (List.forall_mem_singleton.2 rfl)
      (Nat.le_refl _)
  · cases h

namespace ListMark

theorem utf8Size_of_isDigit {c : Char} (h : c.isDigit = true) : c.utf8Size = 1 := by
  rw [Char.utf8Size_eq_one_iff]
  rw [Char.isDigit, Bool.and_eq_true, decide_eq_true_eq, decide_eq_true_eq] at h
  exact UInt32.le_trans h.2 (by decide)

/-- The characters of bullets and numbers. -/
def isBulletChar (c : Char) : Bool := c.isDigit || ['-', '*', '+', '.', ')'].contains c

theorem utf8Size_of_isBulletChar {c : Char} (h : isBulletChar c = true) : c.utf8Size = 1 := by
  rw [isBulletChar, Bool.or_eq_true] at h
  rcases h with digit | other
  · exact utf8Size_of_isDigit digit
  · simp only [List.contains_cons, List.contains_nil, Bool.or_eq_true, beq_iff_eq,
      Bool.or_false] at other
    rcases other with rfl | rfl | rfl | rfl | rfl <;> rfl

theorem exists_of_digits {rest after : Text} {c : Char}
    (e : rest.dropWhile Char.isDigit = c :: after) (ends : isBulletChar c = true) :
    ∃ mark after, rest = mark ++ after ∧ (∀ c ∈ mark, isBulletChar c = true) ∧
      mark.length = (rest.takeWhile Char.isDigit).length + 1 := by
  refine ⟨rest.takeWhile Char.isDigit ++ [c], after, ?_, ?_, by simp⟩
  · rw [List.append_assoc, List.singleton_append, ← e, List.takeWhile_append_dropWhile]
  · intro d mem
    rcases List.mem_append.1 mem with mem | mem
    · have digit : d.isDigit = true := List.all_eq_true.1 List.all_takeWhile d mem
      rw [isBulletChar, digit, Bool.true_or]
    · rwa [List.mem_singleton.1 mem]

/-- What a bullet is made of. -/
theorem exists_of_bullet? {rest : Text} {number : Option Nat} {width : Nat}
    (h : bullet? rest = some (number, width)) :
    ∃ mark after, rest = mark ++ after ∧ (∀ c ∈ mark, isBulletChar c = true) ∧
      mark.length = width := by
  unfold bullet? at h
  split at h
  · cases h
    exact ⟨['-'], _, rfl, List.forall_mem_singleton.2 rfl, rfl⟩
  · cases h
    exact ⟨['*'], _, rfl, List.forall_mem_singleton.2 rfl, rfl⟩
  · cases h
    exact ⟨['+'], _, rfl, List.forall_mem_singleton.2 rfl, rfl⟩
  · simp only [Bool.or_eq_true, decide_eq_true_eq, Text.drop_length_takeWhile] at h
    split at h
    · cases h
    · split at h
      · rename_i after e
        cases h
        exact exists_of_digits e rfl
      · rename_i after e
        cases h
        exact exists_of_digits e rfl
      · cases h

/-- A line with a list item's mark: its indentation, the bullet, and the indentation after that. -/
theorem exists_of_ofLine? {line : Text} {mark : ListMark} (h : ofLine? line = some mark) :
    ∃ bullet after, unindent? line = some (bullet ++ after) ∧
      (∀ c ∈ bullet, isBulletChar c = true) ∧
        (after = [] ∧ mark.content = Text.bytes line ∨
          mark.content = indentation line + (bullet.length + min 4 (indentation after))) := by
  unfold ofLine? at h
  obtain ⟨rest, unindented, h⟩ := Option.bind_eq_some_iff.1 h
  obtain ⟨⟨number, width⟩, found, h⟩ := Option.bind_eq_some_iff.1 h
  obtain ⟨bullet, after, rfl, chars, rfl⟩ := exists_of_bullet? found
  simp only [List.drop_left] at h
  refine ⟨bullet, after, unindented, chars, ?_⟩
  split at h
  · cases h
    exact .inl ⟨rfl, rfl⟩
  · split at h
    · cases h
      exact .inr (Nat.add_assoc _ _ _)
    · cases h

theorem isBoundary_of_ofLine? {line : Text} {mark : ListMark} (h : ofLine? line = some mark) :
    Text.isBoundary line mark.content = true := by
  obtain ⟨bullet, after, unindented, chars, ⟨-, content⟩ | content⟩ := exists_of_ofLine? h
  · rw [content]
    exact Text.isBoundary_bytes line
  · rw [← List.takeWhile_append_dropWhile (p := isIndent) (l := after), ← List.append_assoc]
      at unindented
    rw [content]
    refine isBoundary_of_unindent? _ unindented ?_ ?_
    · intro c mem
      rcases List.mem_append.1 mem with mem | mem
      · exact utf8Size_of_isBulletChar (chars c mem)
      · exact utf8Size_of_mem_indent mem
    · rw [List.length_append]
      exact Nat.add_le_add_left (Nat.min_le_right ..) _

end ListMark

namespace Text

theorem isPrefix_trimEndOf (p : Char → Bool) (s : Text) : trimEndOf p s <+: s := by
  rw [trimEndOf, ← List.reverse_suffix, List.reverse_reverse]
  exact List.dropWhile_suffix p

end Text

namespace HeadingMark

variable {line rest : Text} {mark : HeadingMark}

/-- What a heading says, in the text after its hashes. -/
def title (after : Text) : Text :=
  let inner := Text.trim after
  let unclosed := Text.trimEndOf (· == '#') inner
  if unclosed.isEmpty || Text.endsWith unclosed ' ' then Text.trimEnd unclosed else inner

/-- A title begins the text after the hashes and the white space there. -/
theorem isPrefix_title (after : Text) : title after <+: after.dropWhile Text.isBlankChar := by
  have trimmed : Text.trim after <+: after.dropWhile Text.isBlankChar := Text.isPrefix_trimEndOf _ _
  unfold title
  dsimp only
  split
  · exact ((Text.isPrefix_trimEndOf _ _).trans (Text.isPrefix_trimEndOf _ _)).trans trimmed
  · exact trimmed

/-- What comes before a title in its line. -/
theorem exists_before_title (unindented : unindent? line = some rest) :
    ∃ before after, line = before ++ (title (rest.dropWhile (· == '#')) ++ after) ∧
      Text.bytes before =
        if (title (rest.dropWhile (· == '#'))).isEmpty then Text.bytes line
        else indentation line + (rest.takeWhile (· == '#')).length +
          Text.bytes ((rest.dropWhile (· == '#')).takeWhile Text.isBlankChar) := by
  split
  · -- an empty title stands at the end of the line
    rename_i empty
    rw [List.isEmpty_iff.1 empty]
    exact ⟨line, [], by simp, rfl⟩
  · obtain ⟨closing, title_eq⟩ := isPrefix_title (rest.dropWhile (· == '#'))
    have hashes : ∀ c ∈ rest.takeWhile (· == '#'), c.utf8Size = 1 := by
      intro c mem
      have hash : (c == '#') = true :=
        List.all_eq_true.1 (List.all_takeWhile (p := (· == '#'))) c mem
      rw [beq_iff_eq.1 hash]
      rfl
    refine ⟨line.takeWhile isIndent ++ rest.takeWhile (· == '#') ++
      (rest.dropWhile (· == '#')).takeWhile Text.isBlankChar, closing, ?_, ?_⟩
    · rw [title_eq, List.append_assoc, List.append_assoc, List.takeWhile_append_dropWhile,
        List.takeWhile_append_dropWhile]
      exact eq_append_of_unindent? unindented
    · rw [Text.bytes_append, Text.bytes_append,
        Text.bytes_eq_length fun c => utf8Size_of_mem_indent, Text.bytes_eq_length hashes,
        ← indentation]

/-- The range of a heading's content is where its title stands. -/
theorem exists_title (h : ofLine? line = some mark) :
    ∃ rest before after, unindent? line = some rest ∧
      line = before ++ (title (rest.dropWhile (· == '#')) ++ after) ∧
        Text.bytes before = mark.start ∧
          mark.start + Text.bytes (title (rest.dropWhile (· == '#'))) = mark.stop := by
  unfold ofLine? at h
  obtain ⟨rest, unindented, h⟩ := Option.bind_eq_some_iff.1 h
  simp only [Text.drop_length_takeWhile] at h
  obtain ⟨before, after, line_eq, start⟩ := exists_before_title unindented
  split at h
  · cases h
  · split at h
    · cases h
    · cases h
      exact ⟨rest, before, after, unindented, line_eq, start, rfl⟩

/-- The content of a heading is a part of its line. -/
theorem isCut_of_ofLine? (h : ofLine? line = some mark) :
    Text.IsCut line mark.start mark.stop := by
  obtain ⟨rest, before, after, -, line_eq, start, stop⟩ := exists_title h
  have parts := Text.isCut_of_parts before (title (rest.dropWhile (· == '#'))) after
  rwa [← line_eq, start, stop] at parts

end HeadingMark
end Folio
