import Folio.Proofs.Markup.Alike
import Folio.Proofs.Markup.Paragraphs
import Folio.Proofs.Markup.Prose
import Folio.Proofs.Markup.StrippedBlocks

/-!
# Documents of paragraphs

A text in which no line begins another block is read to paragraphs, one for each run of lines
without a blank line.

* `IsQuiet` says of a line that it begins no block, and `isQuiet_of_head?`, `isQuiet_of_star` and
  `isQuiet_of_tildes` say which lines are quiet;
* `Rows` are lines with what is read from them, and `paragraphs` are the blocks that they make up;
* `Block.exists_blocksFrom_rows`: rows are read to their paragraphs, whatever block comes after them;
* `Document.exists_parse_line`: a line of its own.
-/

namespace Folio

open Text (isBlankChar isBlank)

/-! ### Lines that begin nothing -/

/-- A line of a paragraph, which begins no other block. -/
structure IsQuiet (line : Text) : Prop where
  filled : isBlank line = false
  starts : startsBlock line = false
  list : ListMark.ofLine? line = none

/-- The characters that a line begins with that is not a line of a paragraph. -/
def isOpener (c : Char) : Bool :=
  c.isDigit || ['\x60', '~', '#', '-', '*', '_', '>', '<', '+'].contains c

theorem HeadingMark.head?_of_ofLine? {line : Text} {mark : HeadingMark}
    (h : ofLine? line = some mark) : (Text.trimStart line).head? = some '#' := by
  unfold ofLine? at h
  obtain ⟨rest, unindented, h⟩ := Option.bind_eq_some_iff.1 h
  cases rest with
  | nil => cases h
  | cons c rest =>
    by_cases hash : c = '#'
    · subst hash
      exact head?_trimStart unindented rfl
    · have none : ((c :: rest).takeWhile (· == '#')).length = 0 := by
        rw [List.takeWhile_cons_of_neg (by simpa using hash)]
        rfl
      dsimp only at h
      rw [none] at h
      cases h

theorem ListMark.head?_of_ofLine? {line : Text} {mark : ListMark} (h : ofLine? line = some mark) :
    ∃ c, (Text.trimStart line).head? = some c ∧
      (c.isDigit = true ∨ c = '-' ∨ c = '*' ∨ c = '+') := by
  unfold ofLine? at h
  obtain ⟨rest, unindented, h⟩ := Option.bind_eq_some_iff.1 h
  obtain ⟨⟨number, width⟩, found, -⟩ := Option.bind_eq_some_iff.1 h
  unfold bullet? at found
  split at found
  · exact ⟨'-', head?_trimStart unindented rfl, by simp⟩
  · exact ⟨'*', head?_trimStart unindented rfl, by simp⟩
  · exact ⟨'+', head?_trimStart unindented rfl, by simp⟩
  · cases rest with
    | nil => cases found
    | cons c rest =>
      by_cases digit : c.isDigit = true
      · exact ⟨c, head?_trimStart unindented (Text.isBlankChar_of_isDigit digit), .inl digit⟩
      · dsimp only at found
        rw [List.takeWhile_cons_of_neg digit] at found
        cases found

section Quiet

variable {line : Text} {c : Char}

theorem isBlank_of_head? (first : (Text.trimStart line).head? = some c) : isBlank line = false := by
  rw [← Bool.not_eq_true]
  intro blank
  have nothing : Text.trimStart line = [] := List.dropWhile_eq_nil_iff.2 (List.all_eq_true.1 blank)
  rw [nothing] at first
  cases first

/-- A line without the marks of headings, quotes and tags: its first visible character tells. -/
theorem marks_eq_none (first : (Text.trimStart line).head? = some c)
    (other : ['#', '>', '<'].contains c = false) :
    HeadingMark.ofLine? line = none ∧ (quoteMark? line).isSome = false ∧ isWidgetStart line = false ∧
      closingTagName? line = none := by
  simp only [List.contains_eq_mem, List.mem_cons, List.not_mem_nil, or_false,
    decide_eq_false_iff_not, not_or] at other
  refine ⟨?_, ?_, ?_, ?_⟩
  · by_contra h
    obtain ⟨mark, h⟩ := Option.ne_none_iff_exists'.1 h
    rw [HeadingMark.head?_of_ofLine? h] at first
    exact other.1 (Option.some.inj first).symm
  · rw [← Bool.not_eq_true]
    intro h
    rw [head?_of_quoteMark? h] at first
    exact other.2.1 (Option.some.inj first).symm
  · rw [← Bool.not_eq_true]
    intro h
    rw [head?_of_isWidgetStart h] at first
    exact other.2.2 (Option.some.inj first).symm
  · by_contra h
    obtain ⟨name, h⟩ := Option.ne_none_iff_exists'.1 h
    rw [Block.head?_of_closingTagName? h] at first
    exact other.2.2 (Option.some.inj first).symm

theorem startsBlock_of_marks (first : (Text.trimStart line).head? = some c)
    (fence : Fence.open? line = none) (thematic : isThematicBreak line = false)
    (other : ['#', '>', '<'].contains c = false) :
    startsBlock line = (ListMark.ofLine? line).any fun m => m.content < Text.bytes line := by
  obtain ⟨heading, quote, widget, closing⟩ := marks_eq_none first other
  rw [startsBlock, fence, heading, thematic, quote, widget, closing]
  simp

/-- What a line begins is told by its first visible character. -/
theorem isQuiet_of_opening (first : (Text.trimStart line).head? = some c)
    (fence : Fence.open? line = none) (thematic : isThematicBreak line = false)
    (list : ListMark.ofLine? line = none) (other : ['#', '>', '<'].contains c = false) :
    IsQuiet line where
  filled := isBlank_of_head? first
  starts := by
    rw [startsBlock_of_marks first fence thematic other, list]
    rfl
  list := list

theorem open?_eq_none (first : (Text.trimStart line).head? = some c)
    (other : ['\x60', '~'].contains c = false) : Fence.open? line = none := by
  by_contra h
  obtain ⟨fence, h⟩ := Option.ne_none_iff_exists'.1 h
  have marker := Fence.head?_of_open? h
  rw [first, Option.some_inj, Option.some_inj] at marker
  rcases marker with rfl | rfl <;> cases other

theorem isThematicBreak_eq_false (first : (Text.trimStart line).head? = some c)
    (other : ['-', '*', '_'].contains c = false) : isThematicBreak line = false := by
  rw [← Bool.not_eq_true]
  intro h
  obtain ⟨d, head, mark⟩ := head?_of_isThematicBreak h
  rw [first, Option.some_inj] at head
  subst head
  rcases mark with rfl | rfl | rfl <;> cases other

theorem ofLine?_eq_none (first : (Text.trimStart line).head? = some c)
    (other : (c.isDigit || ['-', '*', '+'].contains c) = false) : ListMark.ofLine? line = none := by
  by_contra h
  obtain ⟨mark, h⟩ := Option.ne_none_iff_exists'.1 h
  obtain ⟨d, head, kind⟩ := ListMark.head?_of_ofLine? h
  rw [first, Option.some_inj] at head
  subst head
  rw [Bool.or_eq_false_iff] at other
  rcases kind with digit | rfl | rfl | rfl
  · rw [digit] at other
    cases other.1
  · cases other.2
  · cases other.2
  · cases other.2

/-- A line that begins with no mark is quiet. -/
theorem isQuiet_of_head? (first : (Text.trimStart line).head? = some c)
    (other : isOpener c = false) : IsQuiet line := by
  simp only [isOpener, List.contains_eq_mem, List.mem_cons, List.not_mem_nil, or_false,
    Bool.or_eq_false_iff, decide_eq_false_iff_not, not_or] at other
  refine isQuiet_of_opening first (open?_eq_none first ?_) (isThematicBreak_eq_false first ?_)
    (ofLine?_eq_none first ?_) ?_ <;> simp [other]

/-- A line with another visible character than its first one is no thematic break. -/
theorem isThematicBreak_of_mixed {rest : Text} (visible : isBlankChar c = false)
    (other : ∃ d ∈ rest, isBlankChar d = false ∧ d ≠ c) : isThematicBreak (c :: rest) = false := by
  obtain ⟨d, mem, visible', differs⟩ := other
  have marks : (c :: rest).filter (fun c => !isBlankChar c) = c :: rest.filter fun c => !isBlankChar c :=
    List.filter_cons_of_pos (by rw [visible]; rfl)
  have mixed : (c :: rest.filter fun c => !isBlankChar c).all (· == c) = false := by
    rw [List.all_eq_false]
    refine ⟨d, List.mem_cons_of_mem _ (List.mem_filter.2 ⟨mem, by rw [visible']; rfl⟩), ?_⟩
    simpa using differs
  unfold isThematicBreak
  dsimp only
  rw [marks]
  dsimp only
  rw [mixed, Bool.and_false, Bool.and_false]

/-- Stars directly before something else are no list mark. -/
theorem isQuiet_of_star {rest : Text} (next : ∃ d, rest.head? = some d ∧ isIndent d = false)
    (other : ∃ d ∈ rest, isBlankChar d = false ∧ d ≠ '*') : IsQuiet ('*' :: rest) := by
  have first : (Text.trimStart ('*' :: rest)).head? = some '*' := rfl
  refine isQuiet_of_opening first (open?_eq_none first rfl) (isThematicBreak_of_mixed rfl other) ?_ rfl
  obtain ⟨d, head, visible⟩ := next
  obtain ⟨more, rfl⟩ := List.head?_eq_some_iff.1 head
  have indent : indentation (d :: more) = 0 := by
    rw [indentation, List.takeWhile_cons_of_neg (by rw [visible]; exact Bool.false_ne_true)]
    rfl
  have unindented : unindent? ('*' :: d :: more) = some ('*' :: d :: more) := rfl
  have bullet : ListMark.bullet? ('*' :: d :: more) = some (none, 1) := rfl
  rw [ListMark.ofLine?, unindented, Option.bind_eq_bind, Option.bind_some, bullet,
    Option.bind_eq_bind, Option.bind_some]
  dsimp only [List.drop]
  rw [indent]
  rfl

/-- Two tildes are no fence. -/
theorem isQuiet_of_tildes {rest : Text} (next : rest.head? ≠ some '~') :
    IsQuiet ('~' :: '~' :: rest) := by
  have first : (Text.trimStart ('~' :: '~' :: rest)).head? = some '~' := rfl
  refine isQuiet_of_opening first ?_ (isThematicBreak_eq_false first rfl) (ofLine?_eq_none first rfl)
    rfl
  have unindented : unindent? ('~' :: '~' :: rest) = some ('~' :: '~' :: rest) := rfl
  have short : rest.takeWhile (· == '~') = [] := by
    cases rest with
    | nil => rfl
    | cons d rest => exact List.takeWhile_cons_of_neg (by simpa using next)
  have run : ('~' :: '~' :: rest).takeWhile (· == '~') = ['~', '~'] := by
    rw [List.takeWhile_cons_of_pos rfl, List.takeWhile_cons_of_pos rfl, short]
  unfold Fence.open?
  rw [unindented]
  simp [run]

end Quiet

/-! ### Rows -/

/-- A line without its indentation. -/
def body (line : Text) : Text := line.dropWhile isIndent

theorem dropBytes_indentation (line : Text) : Text.dropBytes line (indentation line) = body line := by
  have whole : line.takeWhile isIndent ++ line.dropWhile isIndent = line :=
    List.takeWhile_append_dropWhile
  have size : indentation line = Text.bytes (line.takeWhile isIndent) :=
    (Text.bytes_eq_length fun _ => utf8Size_of_mem_indent).symm
  have dropped := Text.dropBytes_append (line.takeWhile isIndent) (line.dropWhile isIndent)
  rwa [whole, ← size] at dropped

/-- A line with what is read from it. -/
abbrev Row := Text × List Inline

namespace Row

open Inline (Sentence plain read)
open Style (IsPhrase)

/-- A blank line, of which nothing is read. -/
def IsGap (p : Row) : Prop := isBlank p.1 = true ∧ p.2 = []

/-- A line of a paragraph with its content. -/
structure IsLine (p : Row) : Prop where
  quiet : IsQuiet p.1
  sentence : Sentence (body p.1) p.2
  spanless : Inline.allSpanless p.2 = p.2

/-- Whether a line holds no marks, or nothing at all. -/
def IsPlain (p : Row) : Prop := p.2 ≠ [] → IsPhrase (body p.1) ∧ p.2 = plain (body p.1)

end Row

/-- Lines with what is read from them. At most one of them is more than plain text, so that no mark
in one line finds its other side in another. -/
structure Rows (ps : List Row) : Prop where
  each : ∀ p ∈ ps, p.IsGap ∨ p.IsLine
  single : ps.Pairwise fun p q => p.IsPlain ∨ q.IsPlain

namespace Rows

open Inline (Sentence plain read)
open Style (IsPhrase)

variable {ps qs : List Row}

theorem of_isPlain (each : ∀ p ∈ ps, p.IsGap ∨ p.IsLine) (plain : ∀ p ∈ ps, p.IsPlain) : Rows ps where
  each := each
  single := List.pairwise_of_forall_mem_list fun p mem _ _ => .inl (plain p mem)

theorem sublist (h : Rows ps) (sub : qs.Sublist ps) : Rows qs where
  each := fun p mem => h.each p (sub.subset mem)
  single := h.single.sublist sub

theorem isLine (h : Rows ps) {p : Row} (mem : p ∈ ps) (filled : p.2 ≠ []) : p.IsLine :=
  (h.each p mem).resolve_left fun gap => filled gap.2

theorem isGap (h : Rows ps) {p : Row} (mem : p ∈ ps) (empty : p.2 = []) : p.IsGap :=
  (h.each p mem).resolve_right fun line => line.sentence.ne_nil empty

end Rows

/-- Where of every two members one has a property, all but one have it. -/
theorem exists_single {α : Type} {R : α → Prop} {l : List α} (filled : l ≠ [])
    (single : l.Pairwise fun x y => R x ∨ R y) :
    ∃ before x after, l = before ++ x :: after ∧ (∀ y ∈ before, R y) ∧ ∀ y ∈ after, R y := by
  induction l with
  | nil => contradiction
  | cons x l ih =>
    rw [List.pairwise_cons] at single
    by_cases last : R x ∧ l ≠ []
    · obtain ⟨before, y, after, rfl, earlier, later⟩ := ih last.2 single.2
      exact ⟨x :: before, y, after, rfl, List.forall_mem_cons.2 ⟨last.1, earlier⟩, later⟩
    · refine ⟨[], x, l, rfl, nofun, fun y mem => ?_⟩
      exact (single.1 y mem).resolve_left fun holds => last ⟨holds, List.ne_nil_of_mem mem⟩

open Inline (plain) in
/-- Rows without blank lines are read to their contents, with soft breaks between. -/
theorem Rows.read_eq {ps : List Row} {r : Region} (h : Rows ps) (nonempty : ps ≠ [])
    (filled : ∀ p ∈ ps, p.2 ≠ []) (text : r.text = ['\n'].intercalate (ps.map fun p => body p.1)) :
    Inline.read r = .ok ([.softBreak].intercalate (ps.map Prod.snd)) := by
  obtain ⟨before, p, after, rfl, earlier, later⟩ := exists_single nonempty h.single
  have phrases : ∀ qs : List Row, (∀ q ∈ qs, q ∈ before ++ p :: after) → (∀ q ∈ qs, q.IsPlain) →
      (∀ t ∈ qs.map fun q => body q.1, Style.IsPhrase t) ∧
        (qs.map fun q => body q.1).map plain = qs.map Prod.snd := by
    intro qs among plains
    have each : ∀ q ∈ qs, Style.IsPhrase (body q.1) ∧ q.2 = plain (body q.1) := fun q mem =>
      plains q mem (filled q (among q mem))
    refine ⟨List.forall_mem_map.2 fun q mem => (each q mem).1, ?_⟩
    rw [List.map_map]
    exact List.map_congr_left fun q mem => (each q mem).2.symm
  obtain ⟨phrases₁, contents₁⟩ :=
    phrases before (fun q mem => List.mem_append_left _ mem) earlier
  obtain ⟨phrases₂, contents₂⟩ :=
    phrases after (fun q mem => List.mem_append_right _ (List.mem_cons_of_mem p mem)) later
  have mem : p ∈ before ++ p :: after := List.mem_append_right _ List.mem_cons_self
  rw [List.map_append, List.map_cons] at text
  rw [Inline.read_lines (h.isLine mem (filled p mem)).sentence phrases₁ phrases₂ text, contents₁, contents₂,
    List.map_append, List.map_cons]

/-! ### Paragraphs -/

/-- The paragraphs that lines make up, without spans: one for each run of lines with content. -/
def paragraphs (lines : List (List Inline)) : List Block :=
  ((lines.splitOnP List.isEmpty).filter (!·.isEmpty)).map fun chunk =>
    .paragraph ([.softBreak].intercalate chunk) ⟨0, 0⟩

@[simp] theorem paragraphs_nil : paragraphs [] = [] := rfl

@[simp] theorem paragraphs_gap (lines : List (List Inline)) :
    paragraphs ([] :: lines) = paragraphs lines := by
  simp [paragraphs, List.splitOnP_cons_eq_if_modifyHead]

/-- A line without content divides the paragraphs before it from those after it. -/
theorem paragraphs_append_gap (lines lines' : List (List Inline)) :
    paragraphs (lines ++ [] :: lines') = paragraphs lines ++ paragraphs lines' := by
  rw [paragraphs, List.splitOnP_append_cons lines lines' rfl, List.filter_append, List.map_append]
  rfl

/-- Lines up to the first without content. -/
theorem exists_chunk {α : Type} (ps : List (α × List Inline)) :
    ∃ chunk later, ps = chunk ++ later ∧ (∀ q ∈ chunk, q.2 ≠ []) ∧ ∀ q ∈ later.head?, q.2 = [] := by
  induction ps with
  | nil => exact ⟨[], [], rfl, nofun, nofun⟩
  | cons p ps ih =>
    by_cases empty : p.2 = []
    · exact ⟨[], p :: ps, rfl, nofun, by rintro q ⟨⟩; exact empty⟩
    · obtain ⟨chunk, later, rfl, filled, stops⟩ := ih
      exact ⟨p :: chunk, later, rfl, List.forall_mem_cons.2 ⟨empty, filled⟩, stops⟩

theorem paragraphs_chunk {chunk rest : List (List Inline)} (nonempty : chunk ≠ [])
    (filled : ∀ c ∈ chunk, c ≠ []) (ends : ∀ c ∈ rest.head?, c = []) :
    paragraphs (chunk ++ rest) =
      .paragraph ([.softBreak].intercalate chunk) ⟨0, 0⟩ :: paragraphs rest := by
  have among : ∀ c ∈ chunk, c.isEmpty = false := fun c mem =>
    List.isEmpty_eq_false_iff.2 (filled c mem)
  cases rest with
  | nil => simp [paragraphs, List.splitOnP_eq_singleton among, nonempty]
  | cons c rest =>
    obtain rfl := ends c rfl
    rw [paragraphs_gap, paragraphs, List.splitOnP_append_cons_of_forall_mem among [] rfl]
    simp [paragraphs, nonempty]

/-! ### Reading rows -/

namespace Block

variable {r : Region} {l : Line} {ls rest : List Line} {p : Line × List Inline}
  {ps chunk : List (Line × List Inline)}

/-- A line with what is read from it, as a row. -/
def rowOf (p : Line × List Inline) : Row := (p.1.text, p.2)

theorem opening_of_isQuiet {line : Text} (quiet : IsQuiet line) : opening line = .paragraph := by
  have starts := quiet.starts
  simp only [startsBlock, Bool.or_eq_false_iff] at starts
  obtain ⟨⟨⟨⟨⟨⟨fence, heading⟩, thematic⟩, quote⟩, -⟩, widget⟩, closing⟩ := starts
  rw [Option.isSome_eq_false_iff, Option.isNone_iff_eq_none] at fence heading closing
  simp [opening, fence, heading, thematic, quote, quiet.list, widget, closing]

theorem goesOn_of_isQuiet (quiet : IsQuiet l.text) : goesOn l = true := by
  rw [goesOn, quiet.filled, quiet.starts]
  rfl

/-- A run of lines with content is one paragraph. -/
theorem exists_paragraphAt_rows (lines : ∀ q ∈ p :: chunk, q.1 ∈ r.lines)
    (rows : Rows ((p :: chunk).map rowOf)) (filled : ∀ q ∈ p :: chunk, q.2 ≠ [])
    (ends : ∀ m ∈ rest.head?, goesOn m = false) :
    ∃ span, paragraphAt r p.1 (chunk.map Prod.fst ++ rest) =
      .ok (.paragraph ([.softBreak].intercalate ((p :: chunk).map Prod.snd)) span,
        ((p.1 :: chunk.map Prod.fst).getLast?.getD p.1).next) := by
  have taken : (chunk.map Prod.fst ++ rest).takeWhile goesOn = chunk.map Prod.fst := by
    have stopped : rest.takeWhile goesOn = [] := by
      cases rest with
      | nil => rfl
      | cons m rest =>
        exact List.takeWhile_cons_of_neg (by rw [ends m rfl]; exact Bool.false_ne_true)
    rw [List.takeWhile_append_of_pos, stopped, List.append_nil]
    refine List.forall_mem_map.2 fun q mem => goesOn_of_isQuiet ?_
    have mem := List.mem_cons_of_mem p mem
    exact (rows.isLine (List.mem_map_of_mem mem) (filled q mem)).quiet
  have lines' : ∀ m ∈ (p :: chunk).map Prod.fst, m ∈ r.lines := List.forall_mem_map.2 lines
  have boundary : ∀ m ∈ (p :: chunk).map Prod.fst,
      Text.isBoundary m.text (indentation m.text) = true := fun m _ =>
    isBoundary_of_le_indentation (Nat.le_refl _)
  have cuts : ∀ c ∈ ((p :: chunk).map Prod.fst).map fun m => (m.start + indentation m.text, m.stop),
      Text.IsCut r.text c.1 c.2 := by
    refine List.forall_mem_map.2 fun m mem => ?_
    exact Line.isCut_stop (lines' m mem) (boundary m mem)
  obtain ⟨content, joined⟩ := gather_isOk cuts
  have text := text_of_gather_lines lines' boundary joined
  simp only [dropBytes_indentation, List.map_map] at text
  have read : Inline.read content = .ok ([.softBreak].intercalate ((p :: chunk).map Prod.snd)) := by
    have read := rows.read_eq (by simp) (List.forall_mem_map.2 filled)
      (by rw [text, List.map_map]; rfl)
    rwa [List.map_map] at read
  rw [List.map_cons] at joined
  rw [paragraphAt_eq, taken, joined]
  dsimp only [bind, Except.bind]
  rw [inlines, read]
  exact ⟨_, rfl⟩

theorem spanless_intercalate {contents : List (List Inline)}
    (spanless : ∀ c ∈ contents, Inline.allSpanless c = c) :
    Inline.allSpanless ([.softBreak].intercalate contents) = [.softBreak].intercalate contents := by
  have each : ∀ i ∈ [.softBreak].intercalate contents, i.spanless = i := by
    intro i mem
    obtain rfl | ⟨c, among, mem⟩ := eq_or_exists_of_mem_intercalate mem
    · rfl
    · have same := spanless c among
      rw [Inline.allSpanless_eq_map] at same
      exact List.map_inj_left.1 (same.trans (List.map_id c).symm) i mem
  rw [Inline.allSpanless_eq_map, List.map_congr_left each, List.map_id']

/-- Reading goes on after a run of lines with content. -/
theorem exists_blocksFrom_chunk (inner : Inner) {resume : Nat}
    (suffix : p.1 :: (chunk.map Prod.fst ++ rest) <:+ Line.split r.text)
    (rows : Rows ((p :: chunk).map rowOf)) (filled : ∀ q ∈ p :: chunk, q.2 ≠ [])
    (ends : ∀ m ∈ rest.head?, goesOn m = false) (reached : resume ≤ p.1.start) :
    ∃ span next, (∀ m ∈ rest, next ≤ m.start) ∧
      blocksFrom inner r [] resume (p.1 :: (chunk.map Prod.fst ++ rest)) =
        (blocksFrom inner r [] next rest).map
          (.paragraph ([.softBreak].intercalate ((p :: chunk).map Prod.snd)) span :: ·) := by
  have quiet : IsQuiet p.1.text :=
    (rows.isLine (List.mem_map_of_mem List.mem_cons_self) (filled p List.mem_cons_self)).quiet
  have lines : ∀ q ∈ p :: chunk, q.1 ∈ r.lines := by
    refine List.forall_mem_cons.2 ⟨suffix.subset List.mem_cons_self, fun q mem => ?_⟩
    exact suffix.subset (List.mem_cons_of_mem _ (List.mem_append_left _ (List.mem_map_of_mem mem)))
  obtain ⟨span, block⟩ := exists_paragraphAt_rows lines rows filled ends
  obtain ⟨before, after⟩ := Line.next_of_getLast? suffix
  refine ⟨span, _, after, ?_⟩
  rw [blocksFrom_cons reached rfl quiet.filled, blockAt_eq, opening_of_isQuiet quiet]
  dsimp only
  rw [block]
  dsimp only [bind, Except.bind]
  rw [blocksFrom_of_passed fun m mem => (before m (List.mem_cons_of_mem _ mem)).1]
  cases blocksFrom inner r [] _ rest <;> rfl

/-- No paragraph goes on with rows that start with a blank line, or with what ends one anyway. -/
theorem goesOn_of_gap (rows : Rows (ps.map rowOf)) (gap : ∀ q ∈ ps.head?, q.2 = [])
    (ends : ∀ m ∈ rest.head?, goesOn m = false) :
    ∀ m ∈ (ps.map Prod.fst ++ rest).head?, goesOn m = false := by
  cases ps with
  | nil => exact ends
  | cons q ps =>
    rintro m ⟨⟩
    have blank := (rows.isGap (List.mem_map_of_mem List.mem_cons_self) (gap q rfl)).1
    rw [goesOn, show isBlank q.1.text = true from blank]
    rfl

/-- A run of lines with content is the first of the paragraphs. -/
theorem allSpanless_paragraph_cons {later : List (Line × List Inline)} {span : Span}
    {bs : List Block} (rows : Rows ((p :: chunk).map rowOf)) (filled : ∀ q ∈ p :: chunk, q.2 ≠ [])
    (gap : ∀ q ∈ later.head?, q.2 = [])
    (contents : Block.allSpanless bs = paragraphs (later.map Prod.snd)) :
    Block.allSpanless
        (.paragraph ([.softBreak].intercalate ((p :: chunk).map Prod.snd)) span :: bs) =
      paragraphs ((p :: (chunk ++ later)).map Prod.snd) := by
  have parts : (p :: (chunk ++ later)).map Prod.snd =
      (p :: chunk).map Prod.snd ++ later.map Prod.snd := by simp
  have gap' : ∀ c ∈ (later.map Prod.snd).head?, c = [] := by
    intro c first
    cases later with
    | nil => cases first
    | cons q later =>
      cases first
      exact gap q rfl
  rw [Block.allSpanless, Block.spanless, contents, spanless_intercalate, parts,
    paragraphs_chunk (by simp) (List.forall_mem_map.2 filled) gap']
  exact List.forall_mem_map.2 fun q mem =>
    (rows.isLine (List.mem_map_of_mem mem) (filled q mem)).spanless

theorem exists_blocksFrom_pairs (inner : Inner) {resume : Nat}
    (suffix : ps.map Prod.fst ++ rest <:+ Line.split r.text) (rows : Rows (ps.map rowOf))
    (ends : ∀ m ∈ rest.head?, goesOn m = false)
    (reached : ∀ m ∈ ps.map Prod.fst ++ rest, resume ≤ m.start) :
    ∃ bs next, (∀ m ∈ rest, next ≤ m.start) ∧
      Block.allSpanless bs = paragraphs (ps.map Prod.snd) ∧
      blocksFrom inner r [] resume (ps.map Prod.fst ++ rest) =
        (blocksFrom inner r [] next rest).map (bs ++ ·) := by
  induction size : ps.length using Nat.strong_induction_on generalizing ps resume with
  | _ n ih =>
    subst size
    cases ps with
    | nil =>
      refine ⟨[], resume, reached, rfl, ?_⟩
      rw [List.map_nil, List.nil_append]
      cases blocksFrom inner r [] resume rest <;> rfl
    | cons p ps =>
      have p_reached : resume ≤ p.1.start := reached p.1 (by simp)
      have p_mem : rowOf p ∈ (p :: ps).map rowOf := List.mem_map_of_mem List.mem_cons_self
      by_cases empty : p.2 = []
      · -- a blank line is passed over
        have blank : isBlank p.1.text = true := (rows.isGap p_mem empty).1
        obtain ⟨bs, next, after, contents, blocks⟩ := ih ps.length (by simp)
          ((List.suffix_cons _ _).trans suffix) (rows.sublist (by simp))
          (fun m mem => reached m (List.mem_cons_of_mem _ mem)) rfl
        refine ⟨bs, next, after, ?_, ?_⟩
        · rw [List.map_cons, empty, paragraphs_gap, contents]
        · rw [List.map_cons, List.cons_append, blocksFrom_of_isBlank p_reached blank, blocks]
      · -- a line with content takes the lines up to a blank one
        obtain ⟨chunk, later, rfl, chunk_filled, gap⟩ := exists_chunk ps
        have filled : ∀ q ∈ p :: chunk, q.2 ≠ [] := List.forall_mem_cons.2 ⟨empty, chunk_filled⟩
        have rows₁ : Rows ((p :: chunk).map rowOf) := rows.sublist (by simp)
        have rows₂ : Rows (later.map rowOf) := rows.sublist (by simp)
        rw [List.map_cons, List.map_append, List.cons_append, List.append_assoc] at suffix
        have suffix₂ : later.map Prod.fst ++ rest <:+ Line.split r.text :=
          (List.suffix_append _ _).trans ((List.suffix_cons _ _).trans suffix)
        obtain ⟨span, next, after, block⟩ := exists_blocksFrom_chunk inner suffix rows₁ filled
          (goesOn_of_gap rows₂ gap ends) p_reached
        have shorter : later.length < (p :: (chunk ++ later)).length := by
          rw [List.length_cons, List.length_append]
          omega
        obtain ⟨bs, next', after', contents, blocks⟩ := ih later.length shorter suffix₂ rows₂ after rfl
        refine ⟨.paragraph ([.softBreak].intercalate ((p :: chunk).map Prod.snd)) span :: bs, next',
          after', allSpanless_paragraph_cons rows₁ filled gap contents, ?_⟩
        rw [List.map_cons, List.map_append, List.cons_append, List.append_assoc, block, blocks]
        cases blocksFrom inner r [] next' rest <;> rfl

/-- Rows are read to paragraphs, one for each run of lines with content. What comes after them is
read on its own, unless a paragraph goes on with it. -/
theorem exists_blocksFrom_rows (inner : Inner) {rows : List Row} {resume : Nat}
    (suffix : ls ++ rest <:+ Line.split r.text) (lines : ls.map Line.text = rows.map Prod.fst)
    (are_rows : Rows rows) (ends : ∀ m ∈ rest.head?, goesOn m = false)
    (reached : ∀ m ∈ ls ++ rest, resume ≤ m.start) :
    ∃ bs next, (∀ m ∈ rest, next ≤ m.start) ∧
      Block.allSpanless bs = paragraphs (rows.map Prod.snd) ∧
      blocksFrom inner r [] resume (ls ++ rest) =
        (blocksFrom inner r [] next rest).map (bs ++ ·) := by
  let pairs : List (Line × List Inline) := ls.zip (rows.map Prod.snd)
  have size : ls.length = (rows.map Prod.snd).length := by
    simpa using congrArg List.length lines
  have fst : pairs.map Prod.fst = ls := List.map_fst_zip (Nat.le_of_eq size)
  have snd : pairs.map Prod.snd = rows.map Prod.snd := List.map_snd_zip (Nat.le_of_eq size.symm)
  have row : pairs.map rowOf = rows := by
    have paired : (rows.map Prod.fst).zip (rows.map Prod.snd) = rows :=
      (List.zip_of_prod rfl rfl).symm
    rw [← lines, List.zip_map_left] at paired
    exact paired
  rw [← fst] at suffix reached ⊢
  rw [← row] at are_rows
  rw [← snd]
  exact exists_blocksFrom_pairs inner suffix are_rows ends reached

end Block

/-! ### Texts without declarations -/

namespace Declaration

variable {ls : List Line} {s line : Text}

/-- An import ends in a quote. -/
theorem quote_mem_of_endsImport (h : endsImport line = true) : '"' ∈ line ∨ '\'' ∈ line := by
  have kept : ∀ t : Text, Text.trimEnd t ⊆ t := fun t => (Text.isPrefix_trimEndOf _ t).subset
  unfold endsImport at h
  dsimp only at h
  rw [Bool.or_eq_true] at h
  refine h.imp ?_ ?_ <;>
  · intro last
    rw [Text.endsWith, beq_iff_eq] at last
    have mem := List.mem_of_getLast? last
    split at mem
    · exact kept line (List.dropLast_subset _ (kept _ mem))
    · exact kept line mem

theorem importEnd?_eq_none (imports : ∀ l ∈ ls, endsImport l.text = false) :
    importEnd? ls = none := by
  induction ls with
  | nil => rfl
  | cons l ls ih =>
    rw [List.forall_mem_cons] at imports
    rw [importEnd?, imports.1, ih imports.2]
    exact ite_self none

theorem exportEnd?_eq_none (brace : '{' ∉ Line.join ls) : exportEnd? ls = none := by
  cases ls with
  | nil => rfl
  | cons l ls =>
    have whole : (Line.join (l :: ls)).takeWhile (· != '{') = Line.join (l :: ls) := by
      refine List.takeWhile_eq_self_iff.2 fun c mem => ?_
      rw [bne_iff_ne]
      exact fun eq => brace (eq ▸ mem)
    unfold exportEnd?
    simp [whole]

/-- Lines of which none ends an import and none holds a brace declare nothing. -/
theorem scanFrom_eq_nil {metadata : Bool} {resume : Nat}
    (imports : ∀ l ∈ ls, endsImport l.text = false) (brace : '{' ∉ Line.join ls) :
    scanFrom metadata resume ls = [] := by
  induction ls generalizing metadata resume with
  | nil => rfl
  | cons l ls ih =>
    have later : ∀ {metadata resume}, scanFrom metadata resume ls = [] := by
      refine ih (fun m mem => imports m (List.mem_cons_of_mem l mem)) fun mem => brace ?_
      rw [Line.join_cons]
      exact List.mem_append_right _ mem
    rw [scanFrom, importEnd?_eq_none imports, exportEnd?_eq_none brace, ite_self]
    simp only [later]
    split
    · rfl
    · split
      · rfl
      · split
        · rfl
        · split <;> rfl

/-- A text declares nothing if it holds no braces, no line of it ends an import and its first line does not
start with three dashes. -/
theorem scan_eq_nil (imports : ∀ l ∈ Line.split s, endsImport l.text = false) (brace : '{' ∉ s)
    (dashes : ∀ l ∈ (Line.split s).head?, ¬ "---".toList <+: l.text) : scan s = [] := by
  unfold scan
  dsimp only
  rw [frontMatter?_eq_none_of_dashes dashes]
  exact scanFrom_eq_nil imports (by rwa [Line.join_split])

theorem not_dashes_of_not_mem {t : Text} (dash : '-' ∉ t) : ¬ "---".toList <+: t :=
  fun begins => dash (begins.subset (by decide))

/-- A text without braces and quotes declares nothing if it does not start with three dashes. -/
theorem scan_eq_nil_of_dashes (h : ∀ l ∈ Line.split s, ∀ c ∈ l.text, ['{', '"', '\''].contains c = false)
    (dashes : ∀ l ∈ (Line.split s).head?, ¬ "---".toList <+: l.text) : scan s = [] := by
  refine scan_eq_nil (fun l mem => ?_) (fun mem => ?_) dashes
  · rw [← Bool.not_eq_true]
    intro ends
    rcases quote_mem_of_endsImport ends with quote | quote
    · cases h l mem _ quote
    · cases h l mem _ quote
  · rw [← Line.join_split s] at mem
    obtain ⟨l, among, mem⟩ := List.mem_flatMap.1 mem
    rcases List.mem_append.1 mem with inside | ending
    · cases h l among _ inside
    · cases kind : l.ending <;> rw [kind] at ending <;> exact absurd ending (by decide)

/-- The characters without which a line declares nothing. -/
def isDeclaring (c : Char) : Bool := ['{', '"', '\'', '-'].contains c

theorem scan_eq_nil_of_chars (h : ∀ l ∈ Line.split s, ∀ c ∈ l.text, isDeclaring c = false) :
    scan s = [] := by
  refine scan_eq_nil_of_dashes (fun l mem c among => ?_) fun l first => not_dashes_of_not_mem fun dash => ?_
  · rw [← Bool.not_eq_true, List.contains_iff_mem]
    intro mark
    have declares : isDeclaring c = true := List.contains_iff_mem.2 (List.mem_append_left ['-'] mark)
    rw [h l mem c among] at declares
    cases declares
  · cases h l (List.mem_of_mem_head? first) _ dash

end Declaration

/-! ### Documents -/

/-- A document without its spans. -/
def Document.spanless (d : Document) : Document where
  metadata := d.metadata.map fun m => { m with span := ⟨0, 0⟩ }
  imports := d.imports.map fun i => { i with span := ⟨0, 0⟩ }
  blocks := Block.allSpanless d.blocks

/-- A document that is nothing but blocks. -/
def Document.ofBlocks (blocks : List Block) : Document := { metadata := none, imports := [], blocks }

/-- Rows in a region are read to their paragraphs. -/
theorem Block.exists_parse_rows (levels : Nat) {r : Region} {ps : List Row}
    (lines : (Line.split r.text).map Line.text = ps.map Prod.fst) (rows : Rows ps) :
    ∃ bs, Block.parse (levels + 1) [] r = .ok bs ∧
      Block.allSpanless bs = paragraphs (ps.map Prod.snd) := by
  have suffix : Line.split r.text ++ [] <:+ Line.split r.text := by rw [List.append_nil]
  obtain ⟨bs, next, -, contents, blocks⟩ := exists_blocksFrom_rows
    (Block.parse levels []) suffix lines rows nofun fun _ _ => Nat.zero_le _
  refine ⟨bs, ?_, contents⟩
  rw [List.append_nil] at blocks
  rw [Block.parse, Region.lines, blocks, blocksFrom, Except.map, List.append_nil]

/-- **A document of paragraphs**: rows without declarations are read to their paragraphs. -/
theorem Document.parse_rows (formats : Formats) {s : Text} {ps : List Row}
    (lines : (Line.split s).map Line.text = ps.map Prod.fst) (rows : Rows ps)
    (nothing : Declaration.scan s = []) :
    (parse formats s).map spanless = .ok (ofBlocks (paragraphs (ps.map Prod.snd))) := by
  rw [← Region.text_root s] at lines
  obtain ⟨bs, read, contents⟩ := Block.exists_parse_rows innerNesting lines rows
  rw [parse_of_scan_eq_nil nothing, maxNesting_eq, read, ← contents]
  rfl

/-- A line of its own that begins nothing is a paragraph of what is read of it without its indentation, if
that can be read. -/
theorem Document.exists_parse_line_eq (formats : Formats) {s : Text} (eol : '\n' ∉ s) (quiet : IsQuiet s)
    (nothing : Declaration.scan s = []) :
    ∃ content : Region, content.text = body s ∧ ∃ span,
      parse formats s = (Block.inlines content).map fun is => ofBlocks [.paragraph is span] := by
  have nonempty : s ≠ [] := by
    rintro rfl
    cases quiet.filled
  let l : Line := { start := 0, text := s, ending := .none }
  have lines : Line.split s = [l] := Line.split_of_eol_not_mem eol nonempty
  have lines' : ∀ m ∈ [l], m ∈ (Region.root s).lines := by
    rw [Region.lines, Region.text_root, lines]
    exact fun m mem => mem
  have boundary : ∀ m ∈ [l], Text.isBoundary m.text (indentation m.text) = true := fun m _ =>
    isBoundary_of_le_indentation (Nat.le_refl _)
  have cuts : ∀ c ∈ [l].map fun m => (m.start + indentation m.text, m.stop),
      Text.IsCut (Region.root s).text c.1 c.2 :=
    List.forall_mem_map.2 fun m mem => Line.isCut_stop (lines' m mem) (boundary m mem)
  obtain ⟨content, joined⟩ := Block.gather_isOk cuts
  have text := Block.text_of_gather_lines lines' boundary joined
  rw [List.map_singleton, List.intercalate_singleton, dropBytes_indentation] at text
  refine ⟨content, text, ?_⟩
  have block : Block.blockAt (Block.parse innerNesting []) (Region.root s) l [] =
      (Block.inlines content).map fun is => (.paragraph is ((Region.root s).span l.start l.stop), l.next) := by
    rw [Block.blockAt_eq, Block.opening_of_isQuiet quiet]
    dsimp only
    rw [Block.paragraphAt_eq, List.takeWhile_nil, joined]
    dsimp only [bind, Except.bind]
    cases Block.inlines content <;> rfl
  refine ⟨(Region.root s).span l.start l.stop, ?_⟩
  rw [parse_of_scan_eq_nil nothing, Block.parse_root, lines,
    Block.blocksFrom_cons (Nat.zero_le _) rfl quiet.filled, block]
  cases Block.inlines content <;> rfl

/-- **A line of its own** that begins nothing is a paragraph of what is read of it without its indentation. -/
theorem Document.exists_parse_line (formats : Formats) {s : Text} (eol : '\n' ∉ s) (quiet : IsQuiet s)
    (nothing : Declaration.scan s = []) :
    ∃ content : Region, content.text = body s ∧ ∀ is, Inline.read content = .ok is →
      ∃ span, parse formats s = .ok (ofBlocks [.paragraph is span]) := by
  obtain ⟨content, text, span, paragraph⟩ := exists_parse_line_eq formats eol quiet nothing
  refine ⟨content, text, fun is read => ⟨span, ?_⟩⟩
  rw [paragraph, Block.inlines, read]
  rfl

end Folio
