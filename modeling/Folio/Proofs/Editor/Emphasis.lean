import Folio.Proofs.Editor.Insertion
import Folio.Proofs.Markup.Emphasized

/-!
# Commands for emphasis

Bold, italic and strikethrough put marks around the selection, one inside the other when they come
after each other. What the parser makes of them is said for every document of words, every selection
in a line of it and every sequence of these commands.
-/

namespace Folio

/-- The command that puts marks of a kind around the selection. -/
def Style.command : Style → Command
  | strong => .bold
  | emphasis => .italic
  | strikethrough => .strikethrough

namespace Command

variable {caps : CapabilitySet} {formats : Formats} {s : Text} {xs : List Style}

/-- Commands in a row, each on the text and the selection that the one before leaves. -/
def applyAll (caps : CapabilitySet) (commands : List Command) (edit : Edit) :
    Except CommandError Edit :=
  commands.foldlM (fun e c => c.apply caps e.text e.selection) edit

theorem apply_style (caps : CapabilitySet) (x : Style) (text : Text) (selection : Selection) :
    x.command.apply caps text selection = .ok (Edit.wrap x.mark x.mark text selection) := by
  cases x <;> rfl

/-- Commands for emphasis put their marks around the selection, the first one outermost. -/
theorem exists_applyAll_styles (caps : CapabilitySet) (xs : List Style) (u w v : Text) :
    ∃ selection, applyAll caps (xs.map Style.command)
        { text := u ++ (w ++ v), selection := ⟨Text.bytes u, Text.bytes u + Text.bytes w⟩ } =
      .ok { text := u ++ (Style.marked xs w ++ v), selection } := by
  induction xs generalizing u v with
  | nil => exact ⟨_, rfl⟩
  | cons x xs ih =>
    obtain ⟨selection, done⟩ := ih (u ++ x.mark) (x.mark ++ v)
    refine ⟨selection, ?_⟩
    rw [applyAll, List.map_cons, List.foldlM_cons]
    dsimp only
    rw [apply_style, Edit.wrap_parts, Style.marked]
    simp only [List.append_assoc] at done ⊢
    exact done

end Command

/-! ### The document before and after -/

/-- What is read from lines of words. -/
def lineTexts (ls : List Line) : List (List Inline) := ls.map fun l => texts l.text

section Documents

variable {s : Text} {ls : List Line}

theorem isTail_of_mem (plain : s.IsPlainDocument) (sub : ls ⊆ Line.split s) :
    ∀ t ∈ ls.map Line.text, t.IsTail :=
  List.forall_mem_map.2 fun l mem => (plain l (sub mem)).isTail

theorem map_wordRow (plain : s.IsPlainDocument) (sub : ls ⊆ Line.split s) :
    ((ls.map Line.text).map wordRow).map Prod.snd = lineTexts ls := by
  rw [List.map_map, List.map_map, lineTexts]
  refine List.map_congr_left fun l mem => ?_
  show texts (body l.text) = texts l.text
  rw [body_of_starts (plain l (sub mem)).starts]

theorem map_fst_wordRow (ts : List Text) : (ts.map wordRow).map Prod.fst = ts := by
  rw [List.map_map]
  exact List.map_id ts

theorem isDeclaring_of_isWordChar {c : Char} (h : Text.isWordChar c = true) :
    Declaration.isDeclaring c = false := by
  rw [← Bool.not_eq_true]
  intro declaring
  simp only [Declaration.isDeclaring, List.contains_eq_mem, List.mem_cons, List.not_mem_nil,
    or_false, decide_eq_true_eq] at declaring
  rcases declaring with rfl | rfl | rfl | rfl <;> cases h

/-- A document of words is read to its paragraphs. -/
theorem Document.parse_plain (formats : Formats) (plain : s.IsPlainDocument) :
    (parse formats s).map spanless = .ok (ofBlocks (paragraphs (lineTexts (Line.split s)))) := by
  have rows : Rows (((Line.split s).map Line.text).map wordRow) :=
    rows_of_words (isTail_of_mem plain (List.Subset.refl _))
  have nothing : Declaration.scan s = [] := Declaration.scan_eq_nil_of_chars fun l mem c among =>
    isDeclaring_of_isWordChar ((plain l mem).isWordChar c among)
  rw [parse_rows formats (map_fst_wordRow _).symm rows nothing,
    map_wordRow plain (List.Subset.refl _)]

end Documents

section Emphasis

variable {s : Text} {xs : List Style} {c : Char}

theorem Pick.isPicked (p : Pick s) (plain : s.IsPlainDocument) :
    Style.IsPicked p.before p.inside p.after where
  words := by
    rw [← p.text]
    exact plain p.line (by rw [p.lines]; simp)
  starts := p.starts
  stops := p.stops

/-- The characters of a line of words with marks in it. -/
def isMarkedChar (c : Char) : Bool := Text.isWordChar c || c == '*' || c == '~'

theorem isMarkedChar_of_mem_marked {w : Text} (chars : ∀ c ∈ w, Text.isWordChar c = true) :
    ∀ c ∈ Style.marked xs w, isMarkedChar c = true := by
  induction xs with
  | nil =>
    intro c mem
    rw [isMarkedChar, chars c mem]
    rfl
  | cons x xs ih =>
    have mark : ∀ c ∈ x.mark, isMarkedChar c = true := List.all_eq_true.1 (by cases x <;> rfl)
    rw [Style.marked, List.forall_mem_append, List.forall_mem_append]
    exact ⟨mark, ih, mark⟩

theorem isDeclaring_of_isMarkedChar (h : isMarkedChar c = true) :
    Declaration.isDeclaring c = false := by
  rw [isMarkedChar, Bool.or_eq_true, Bool.or_eq_true, beq_iff_eq, beq_iff_eq] at h
  rcases h with (word | rfl) | rfl
  · exact isDeclaring_of_isWordChar word
  · rfl
  · rfl

/-- The line of a selection with marks around the selection. -/
def Pick.marked (p : Pick s) (xs : List Style) : Text :=
  p.before ++ (Style.marked xs p.inside ++ p.after)

theorem isMarkedChar_of_mem_line (p : Pick s) (plain : s.IsPlainDocument) :
    ∀ c ∈ p.marked xs, isMarkedChar c = true := by
  have word : ∀ c, Text.isWordChar c = true → isMarkedChar c = true := by
    intro c word
    rw [isMarkedChar, word]
    rfl
  have picked := p.isPicked plain
  rw [Pick.marked, List.forall_mem_append, List.forall_mem_append]
  exact ⟨fun c mem => word c (picked.chars_before c mem), isMarkedChar_of_mem_marked picked.chars,
    fun c mem => word c (picked.tail_after.chars c mem)⟩

/-- The lines of a text after marks have been put around a selection. -/
theorem map_text_split_marked (p : Pick s) (plain : s.IsPlainDocument) (xs : List Style) :
    (Line.split (p.front ++ (Style.marked xs p.inside ++ p.back))).map Line.text =
      p.earlier.map Line.text ++ p.marked xs :: p.later.map Line.text := by
  have chars : ∀ c ∈ p.marked xs, isMarkedChar c = true := isMarkedChar_of_mem_line p plain
  have filled : p.marked xs ≠ [] := by
    have filled := (p.isPicked plain).phrase.ne_nil
    obtain ⟨c, mem⟩ := List.exists_mem_of_ne_nil _ filled
    refine List.ne_nil_of_mem (a := c) ?_
    exact List.mem_append_right _ (List.mem_append_left _ (Style.subset_marked xs p.inside mem))
  have divided : Line.Divided ([(p.marked xs, p.line.ending)] ++ p.later.map Line.pair) := by
    refine ⟨⟨fun eol => ?_, fun _ last => ?_⟩, fun none => ⟨filled, ?_⟩, p.divided_later⟩
    · cases chars _ eol
    · cases chars _ (List.mem_of_getLast? last)
    · show p.later.map Line.pair = []
      rw [p.later_eq_nil none]
      rfl
  have text : p.front ++ (Style.marked xs p.inside ++ p.back) = Line.join p.earlier ++
      (([(p.marked xs, p.line.ending)].flatMap fun q => q.1 ++ q.2.text) ++ Line.join p.later) := by
    simp [Pick.front, Pick.back, Pick.marked]
  rw [text, Line.map_text_eq_map_pair, Line.map_pair_split_replace p.lines divided, List.map_append,
    List.map_append, ← Line.map_text_eq_map_pair, ← Line.map_text_eq_map_pair]
  rfl

/-- A document of words with marks around a selection. -/
theorem Document.parse_marked (formats : Formats) (plain : s.IsPlainDocument) (p : Pick s)
    (distinct : xs.Nodup) :
    (parse formats (p.front ++ (Style.marked xs p.inside ++ p.back))).map spanless =
      .ok (ofBlocks (paragraphs
        (lineTexts p.earlier ++ Style.framed xs p.before p.inside p.after :: lineTexts p.later))) := by
  have lines := map_text_split_marked p plain xs
  have earlier : p.earlier ⊆ Line.split s := by rw [p.lines]; simp
  have later : p.later ⊆ Line.split s := by rw [p.lines]; simp
  let rows : List Row := (p.earlier.map Line.text).map wordRow ++
    (p.marked xs, Style.framed xs p.before p.inside p.after) :: (p.later.map Line.text).map wordRow
  have are_rows : Rows rows := rows_around (isTail_of_mem plain earlier) (isTail_of_mem plain later)
    (.inr (Style.isLine_framed (p.isPicked plain) distinct))
  have lines' : (Line.split (p.front ++ (Style.marked xs p.inside ++ p.back))).map Line.text =
      rows.map Prod.fst := by
    rw [lines, List.map_append, List.map_cons, map_fst_wordRow, map_fst_wordRow]
  have contents : rows.map Prod.snd =
      lineTexts p.earlier ++ Style.framed xs p.before p.inside p.after :: lineTexts p.later := by
    rw [List.map_append, List.map_cons, map_wordRow plain earlier, map_wordRow plain later]
  have words : ∀ t ∈ (Line.split s).map Line.text, ∀ c ∈ t, Declaration.isDeclaring c = false :=
    List.forall_mem_map.2 fun l mem c among =>
      isDeclaring_of_isWordChar ((plain l mem).isWordChar c among)
  have each : ∀ t ∈ p.earlier.map Line.text ++ p.marked xs :: p.later.map Line.text, ∀ c ∈ t,
      Declaration.isDeclaring c = false := by
    rw [List.forall_mem_append, List.forall_mem_cons]
    exact ⟨fun t mem => words t (List.map_subset _ earlier mem),
      fun c mem => isDeclaring_of_isMarkedChar (isMarkedChar_of_mem_line p plain c mem),
      fun t mem => words t (List.map_subset _ later mem)⟩
  have nothing : Declaration.scan (p.front ++ (Style.marked xs p.inside ++ p.back)) = [] := by
    refine Declaration.scan_eq_nil_of_chars fun l mem => each l.text ?_
    rw [← lines]
    exact List.mem_map_of_mem mem
  rw [parse_rows formats lines' are_rows nothing, contents]

/-- **Commands for emphasis mean what they say**, unless bold and italic come directly after each
other. For every document of words, every selection in a line that starts and ends on a letter and
every sequence of bold, italic and strikethrough without repetition, the document after it is read like
the one before, but that the text around the selection is divided and the selected text is wrapped in
emphasis of all the kinds, the first one outermost. Where bold and italic are neighbours, the three
stars are read differently: `Style.framed` says how. -/
theorem Command.parse_applyAll_styles (formats : Formats) (caps : CapabilitySet)
    (plain : s.IsPlainDocument) {selection : Selection} (lettered : selection.IsLettered s)
    (distinct : xs.Nodup) :
    (∃ p : Pick s, p.selection = selection) ∧ ∀ p : Pick s, p.selection = selection →
      ∃ edit, applyAll caps (xs.map Style.command) { text := s, selection } = .ok edit ∧
        (Document.parse formats s).map Document.spanless =
          .ok (.ofBlocks (paragraphs
            (lineTexts p.earlier ++ texts p.line.text :: lineTexts p.later))) ∧
        (Document.parse formats edit.text).map Document.spanless =
          .ok (.ofBlocks (paragraphs
            (lineTexts p.earlier ++
              Style.framed xs p.before p.inside p.after :: lineTexts p.later))) := by
  refine ⟨Pick.exists_selection_eq_iff.2 lettered, ?_⟩
  rintro p rfl
  obtain ⟨selection, done⟩ := exists_applyAll_styles caps xs p.front p.inside p.back
  rw [← p.source_eq, ← p.selection_eq] at done
  have original : lineTexts (Line.split s) =
      lineTexts p.earlier ++ texts p.line.text :: lineTexts p.later := by
    rw [p.lines]
    simp [lineTexts]
  refine ⟨_, done, ?_, Document.parse_marked formats plain p distinct⟩
  rw [Document.parse_plain formats plain, original]

/-- Two words, of which the second one is selected. -/
def secondOfTwo : Pick ['o', 'n', ' ', 'm', 'e'] where
  earlier := []
  line := ⟨0, ['o', 'n', ' ', 'm', 'e'], .none⟩
  later := []
  before := ['o', 'n', ' ']
  inside := ['m', 'e']
  after := []
  lines := by decide
  text := rfl
  starts := rfl
  stops := rfl

/-- Bold, strikethrough and italic after each other. -/
theorem Command.parse_bold_strikethrough_italic :
    let formats : Formats := { json := fun _ => .ok .null, yaml := fun _ => .ok .null }
    let s : Text := ['o', 'n', ' ', 'm', 'e']
    s.IsPlainDocument ∧ secondOfTwo.selection.IsLettered s ∧
      [Style.strong, .strikethrough, .emphasis].Nodup ∧
      ∃ edit, applyAll { widgets := [] } [.bold, .strikethrough, .italic]
          { text := s, selection := secondOfTwo.selection } = .ok edit ∧
        (Document.parse formats s).map Document.spanless =
          .ok ⟨none, [], [.paragraph [.text "on me"] ⟨0, 0⟩]⟩ ∧
        (Document.parse formats edit.text).map Document.spanless =
          .ok ⟨none, [], [.paragraph [.text "on ",
            .strong [.strikethrough [.emphasis [.text "me"]]]] ⟨0, 0⟩]⟩ := by
  intro formats s
  have plain : s.IsPlainDocument := by decide
  have distinct : [Style.strong, .strikethrough, .emphasis].Nodup := by decide
  have lettered : secondOfTwo.selection.IsLettered s := ⟨by decide, by decide, rfl, rfl⟩
  obtain ⟨-, read⟩ := parse_applyAll_styles formats { widgets := [] } plain lettered distinct
  obtain ⟨edit, done, before, after⟩ := read secondOfTwo rfl
  exact ⟨plain, lettered, distinct, edit, done, before.trans rfl, after.trans rfl⟩

/-- Bold and italic directly after each other: the selected text is not wrapped in both, in neither
order. -/
theorem Command.parse_bold_italic :
    let formats : Formats := { json := fun _ => .ok .null, yaml := fun _ => .ok .null }
    let s : Text := ['o', 'n', ' ', 'm', 'e']
    ∃ edit, applyAll { widgets := [] } [.bold, .italic] { text := s, selection := ⟨3, 5⟩ } =
        .ok edit ∧
      (Document.parse formats edit.text).map Document.spanless =
        .ok ⟨none, [], [.paragraph [.text "on **", .emphasis [.text "me**"]] ⟨0, 0⟩]⟩ ∧
      ∀ styles ∈ [[Style.strong, .emphasis], [Style.emphasis, .strong]],
        (Document.parse formats edit.text).map Document.spanless ≠
          .ok ⟨none, [], [.paragraph [.text "on ", Style.wrapped styles ['m', 'e']] ⟨0, 0⟩]⟩ := by
  intro formats s
  have plain : s.IsPlainDocument := by decide
  have distinct : [Style.strong, .emphasis].Nodup := by decide
  obtain ⟨selection, done⟩ := exists_applyAll_styles { widgets := [] } [.strong, .emphasis]
    secondOfTwo.front secondOfTwo.inside secondOfTwo.back
  have read : (Document.parse formats (secondOfTwo.front ++
        (Style.marked [.strong, .emphasis] secondOfTwo.inside ++ secondOfTwo.back))).map
          Document.spanless =
      .ok ⟨none, [], [.paragraph [.text "on **", .emphasis [.text "me**"]] ⟨0, 0⟩]⟩ :=
    (Document.parse_marked formats plain secondOfTwo distinct).trans rfl
  rw [← secondOfTwo.source_eq] at done
  refine ⟨_, done, read, fun styles _ same => ?_⟩
  have same := read.symm.trans same
  simp at same

end Emphasis

end Folio
