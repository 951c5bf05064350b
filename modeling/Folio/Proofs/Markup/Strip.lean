import Folio.Markup.Declaration
import Folio.Proofs.Markup.LinePieces
import Mathlib.Data.List.TakeWhile

/-!
# Stripped text

Declarations cover whole lines, so that blanking them out leaves the division into lines as it is:
the lines of the stripped text are those of the source, and those that a declaration covers are
blank. Main statements:

* `Declaration.exists_lines`: the first and the last line of a declaration;
* `split_strip`: the lines of the stripped text;
* `holds_of_strip`: what stands in the stripped text stands in the source, if there is more than
  spaces to it.
-/

namespace Folio

/-! ### The lines of declarations -/

namespace Declaration

variable {source : Text} {d : Declaration} {l last : Line} {ls : List Line}

/-- A declaration runs from the start of a line that is not blank to the end of a line. -/
structure Spans (source : Text) (d : Declaration) (first last : Line) : Prop where
  first_mem : first ∈ Line.split source
  last_mem : last ∈ Line.split source
  le : first.start ≤ last.start
  filled : Text.isBlank first.text = false
  span : d.span = ⟨first.start, last.stop⟩

theorem mem_of_importEnd? (h : importEnd? ls = some last) : last ∈ ls := by
  induction ls with
  | nil => cases h
  | cons l ls ih =>
    rw [importEnd?] at h
    split at h
    · cases h
    · split at h
      · cases h
        exact List.mem_cons_self
      · exact List.mem_cons_of_mem l (ih h)

theorem mem_of_lineAt? {offset : Nat} (h : lineAt? offset ls = some last) : last ∈ ls := by
  induction ls with
  | nil => cases h
  | cons l ls ih =>
    rw [lineAt?] at h
    split at h
    · cases h
      exact List.mem_cons_self
    · exact List.mem_cons_of_mem l (ih h)

theorem mem_of_exportEnd? (h : exportEnd? ls = some last) : last ∈ ls := by
  unfold exportEnd? at h
  obtain ⟨first, -, found⟩ := Option.bind_eq_some_iff.1 h
  dsimp only at found
  split at found
  · cases found
  · split at found
    · exact mem_of_lineAt? found
    · cases found

/-- Lines of a text that a declaration can run over. -/
theorem spans_of_mem {kind : DeclarationKind} (suffix : l :: ls <:+ Line.split source)
    (among : last ∈ l :: ls) (filled : Text.isBlank l.text = false) :
    Spans source { kind, span := ⟨l.start, last.stop⟩ } l last where
  first_mem := suffix.subset List.mem_cons_self
  last_mem := suffix.subset among
  le := Line.start_le_of_mem suffix among
  filled := filled
  span := rfl

theorem exists_lines_of_mem_scanFrom {metadata : Bool} {resume : Nat}
    (suffix : ls <:+ Line.split source) (mem : d ∈ scanFrom metadata resume ls) :
    ∃ first last, d.Spans source first last := by
  induction ls generalizing metadata resume with
  | nil => cases mem
  | cons l ls ih =>
    have suffix' : ls <:+ Line.split source := (List.suffix_cons l ls).trans suffix
    rw [scanFrom] at mem
    split at mem
    · exact ih suffix' mem
    · rename_i reached
      obtain ⟨-, filled⟩ := Bool.or_eq_false_iff.1 (Bool.not_eq_true _ ▸ reached)
      split at mem
      · exact ih suffix' mem
      · split at mem
        · rename_i last ended
          rcases List.mem_cons.1 mem with rfl | mem
          · split at ended
            · exact ⟨l, last, spans_of_mem suffix (mem_of_importEnd? ended) filled⟩
            · cases ended
          · exact ih suffix' mem
        · split at mem
          · split at mem
            · rename_i last ended
              rcases List.mem_cons.1 mem with rfl | mem
              · exact ⟨l, last, spans_of_mem suffix (mem_of_exportEnd? ended) filled⟩
              · exact ih suffix' mem
            · exact ih suffix' mem
          · split at mem
            · exact ih suffix' mem
            · exact ih suffix' mem

theorem trimEnd_of_isBlank {s : Text} (blank : Text.isBlank s = true) : Text.trimEnd s = [] := by
  have all : ∀ c ∈ s.reverse, Text.isBlankChar c = true :=
    fun c mem => List.all_eq_true.1 blank c (List.mem_reverse.1 mem)
  rw [Text.trimEnd, Text.trimEndOf, List.dropWhile_eq_nil_iff.2 all, List.reverse_nil]

/-- Front matter runs from the first line to one that closes it. -/
theorem exists_of_frontMatter? {resume : Nat} (h : frontMatter? ls = some (d, resume)) :
    ∃ first rest close, ls = first :: rest ∧ close ∈ rest ∧ Text.isBlank first.text = false ∧
      d = { kind := .frontMatter, span := ⟨first.start, close.stop⟩ } ∧ resume = close.next := by
  unfold frontMatter? at h
  split at h
  · rename_i first second rest
    split at h
    · rename_i dashes
      rw [Bool.and_eq_true, beq_iff_eq] at dashes
      obtain ⟨close, found, made⟩ := Option.map_eq_some_iff.1 h
      cases made
      refine ⟨first, second :: rest, close, rfl, List.mem_of_find?_eq_some found, ?_, rfl, rfl⟩
      rw [← Bool.not_eq_true]
      intro blank
      rw [trimEnd_of_isBlank blank] at dashes
      cases dashes.1
    · cases h
  · cases h

/-- The lines of a declaration of a source text. -/
theorem exists_lines (mem : d ∈ scan source) : ∃ first last, d.Spans source first last := by
  unfold scan at mem
  dsimp only at mem
  split at mem
  · rename_i d' resume front
    rcases List.mem_cons.1 mem with rfl | mem
    · obtain ⟨first, rest, close, lines, among, filled, rfl, -⟩ := exists_of_frontMatter? front
      have suffix : first :: rest <:+ Line.split source := lines ▸ List.suffix_refl _
      exact ⟨first, close, spans_of_mem suffix (List.mem_cons_of_mem first among) filled⟩
    · exact exists_lines_of_mem_scanFrom (List.suffix_refl _) mem
  · exact exists_lines_of_mem_scanFrom (List.suffix_refl _) mem

/-- A line that a declaration covers is a part of it. -/
theorem Spans.within_of_covers {first last : Line} (spans : d.Spans source first last)
    (mem : l ∈ Line.split source) (covered : d.covers l.start = true) :
    d.span.start ≤ l.start ∧ l.stop ≤ d.span.stop := by
  rw [covers, Bool.and_eq_true, decide_eq_true_eq, decide_eq_true_eq] at covered
  refine ⟨covered.1, ?_⟩
  rw [spans.span] at covered ⊢
  rcases Line.eq_or_lt mem spans.last_mem with rfl | before | after
  · exact Nat.le_refl _
  · exact Nat.le_trans (Nat.le_of_lt before) last.le_stop
  · exact absurd covered.2 (Nat.not_le_of_lt after)

/-- A line that a declaration does not cover is apart from it. -/
theorem Spans.apart_of_not_covers {first last : Line} (spans : d.Spans source first last)
    (mem : l ∈ Line.split source) (bare : d.covers l.start = false) :
    l.stop ≤ d.span.start ∨ d.span.stop ≤ l.start := by
  rw [covers, Bool.and_eq_false_iff, decide_eq_false_iff_not, decide_eq_false_iff_not] at bare
  rcases bare with early | late
  · rw [spans.span] at early ⊢
    rcases Line.eq_or_lt mem spans.first_mem with rfl | before | after
    · exact absurd (Nat.le_refl _) early
    · exact .inl (Nat.le_of_lt before)
    · exact absurd (Nat.le_trans first.le_stop (Nat.le_of_lt after)) early
  · exact .inr (Nat.le_of_not_le late)

end Declaration

/-! ### Blank text -/

theorem blankOut_cons (c : Char) (s : Text) : blankOut (c :: s) = blankOut [c] ++ blankOut s := by
  rw [blankOut, List.flatMap_cons, blankOut, blankOut, List.flatMap_singleton]

/-- What becomes of a character. -/
theorem blankOut_singleton (c : Char) :
    ((c = '\n' ∨ c = '\r') ∧ blankOut [c] = [c]) ∨
      (c ≠ '\n' ∧ c ≠ '\r' ∧ blankOut [c] = List.replicate c.utf8Size ' ') := by
  rw [blankOut, List.flatMap_singleton]
  by_cases eol : c = '\n' ∨ c = '\r'
  · exact .inl ⟨eol, if_pos (by simpa using eol)⟩
  · rw [not_or] at eol
    exact .inr ⟨eol.1, eol.2, if_neg (by simpa using eol)⟩

theorem bytes_replicate_space (n : Nat) : Text.bytes (List.replicate n ' ') = n := by
  induction n with
  | zero => rfl
  | succ n ih =>
    rw [List.replicate_succ, Text.bytes_cons, ih, Nat.add_comm]
    rfl

theorem bytes_blankOut (s : Text) : Text.bytes (blankOut s) = Text.bytes s := by
  induction s with
  | nil => rfl
  | cons c s ih =>
    rw [blankOut_cons, Text.bytes_append, ih, Text.bytes_cons]
    rcases blankOut_singleton c with ⟨-, eq⟩ | ⟨-, -, eq⟩
    · rw [eq, Text.bytes_cons, Text.bytes_nil, Nat.add_zero]
    · rw [eq, bytes_replicate_space]

theorem isSkipped_of_mem_blankOut {c : Char} {s : Text} (mem : c ∈ blankOut s) :
    TagToken.isSkipped c = true := by
  induction s with
  | nil => cases mem
  | cons d s ih =>
    rw [blankOut_cons] at mem
    rcases List.mem_append.1 mem with mem | mem
    · rcases blankOut_singleton d with ⟨rfl | rfl, eq⟩ | ⟨-, -, eq⟩
      · rw [eq, List.mem_singleton] at mem
        rw [mem]
        rfl
      · rw [eq, List.mem_singleton] at mem
        rw [mem]
        rfl
      · rw [eq] at mem
        rw [(List.mem_replicate.1 mem).2]
        rfl
    · exact ih mem

theorem mem_of_mem_blankOut {c : Char} {s : Text} (mem : c ∈ blankOut s) (visible : c ≠ ' ') :
    c ∈ s := by
  induction s with
  | nil => cases mem
  | cons d s ih =>
    rw [blankOut_cons] at mem
    rcases List.mem_append.1 mem with mem | mem
    · rcases blankOut_singleton d with ⟨-, eq⟩ | ⟨-, -, eq⟩
      · rw [eq] at mem
        rw [List.mem_singleton.1 mem]
        exact List.mem_cons_self
      · rw [eq] at mem
        exact absurd (List.mem_replicate.1 mem).2 visible
    · exact List.mem_cons_of_mem d (ih mem)

/-- Blanking out keeps what makes a line whole. -/
theorem isWhole_blankOut {s : Text} {e : LineEnding} (whole : Line.IsWhole s e) :
    Line.IsWhole (blankOut s) e where
  eol := fun mem => whole.eol (mem_of_mem_blankOut mem (by decide))
  ending := by
    intro lf
    have last := whole.ending lf
    by_cases nonempty : s = []
    · rw [nonempty]
      nofun
    · obtain ⟨init, c, rfl⟩ : ∃ init c, s = init ++ [c] :=
        ⟨_, _, (List.dropLast_concat_getLast nonempty).symm⟩
      rw [List.getLast?_concat] at last
      rw [blankOut, List.flatMap_append, ← blankOut, ← blankOut]
      rcases blankOut_singleton c with ⟨-, eq⟩ | ⟨-, -, eq⟩
      · rwa [eq, List.getLast?_concat]
      · obtain ⟨n, size⟩ := Nat.exists_eq_succ_of_ne_zero (Nat.ne_of_gt c.utf8Size_pos)
        rw [eq, size, List.replicate_succ', ← List.append_assoc, List.getLast?_concat]
        decide

theorem stripSpans_append (spans : List Span) (at_ : Nat) (s t : Text) :
    stripSpans spans at_ (s ++ t) =
      stripSpans spans at_ s ++ stripSpans spans (at_ + Text.bytes s) t := by
  induction s generalizing at_ with
  | nil => rfl
  | cons c s ih => rw [List.cons_append, stripSpans, stripSpans, ih, Text.bytes_cons,
      Nat.add_assoc, List.append_assoc]

theorem bytes_stripSpans (spans : List Span) (at_ : Nat) (s : Text) :
    Text.bytes (stripSpans spans at_ s) = Text.bytes s := by
  induction s generalizing at_ with
  | nil => rfl
  | cons c s ih =>
    rw [stripSpans, Text.bytes_append, ih, Text.bytes_cons]
    split
    · rw [bytes_blankOut, Text.bytes_cons, Text.bytes_nil, Nat.add_zero]
    · rw [Text.bytes_cons, Text.bytes_nil, Nat.add_zero]

theorem stripSpans_ending (spans : List Span) (at_ : Nat) (e : LineEnding) :
    stripSpans spans at_ e.text = e.text := by
  cases e <;> simp [stripSpans, blankOut]

theorem stripSpans_of_covered {spans : List Span} {at_ : Nat} {s : Text} {d : Span}
    (mem : d ∈ spans) (start : d.start ≤ at_) (stop : at_ + Text.bytes s ≤ d.stop) :
    stripSpans spans at_ s = blankOut s := by
  induction s generalizing at_ with
  | nil => rfl
  | cons c s ih =>
    have pos := c.utf8Size_pos
    rw [Text.bytes_cons] at stop
    have covered : spans.any (fun d => decide (d.start ≤ at_) && decide (at_ < d.stop)) = true := by
      rw [List.any_eq_true]
      exact ⟨d, mem, by simp; omega⟩
    rw [blankOut_cons, stripSpans, ih (by omega) (by omega)]
    simp [covered]

theorem stripSpans_of_apart {spans : List Span} {at_ : Nat} {s : Text}
    (apart : ∀ d ∈ spans, at_ + Text.bytes s ≤ d.start ∨ d.stop ≤ at_) :
    stripSpans spans at_ s = s := by
  induction s generalizing at_ with
  | nil => rfl
  | cons c s ih =>
    have pos := c.utf8Size_pos
    have bare : spans.any (fun d => decide (d.start ≤ at_) && decide (at_ < d.stop)) = false := by
      rw [List.any_eq_false]
      intro d mem
      have := apart d mem
      rw [Text.bytes_cons] at this
      simp
      omega
    have rest : ∀ d ∈ spans, at_ + c.utf8Size + Text.bytes s ≤ d.start ∨
        d.stop ≤ at_ + c.utf8Size := by
      intro d mem
      have := apart d mem
      rw [Text.bytes_cons] at this
      omega
    rw [stripSpans, ih rest]
    simp [bare]

/-! ### Lines of the stripped text -/

namespace Line

/-- Whether one of some declarations covers a line. -/
def isCovered (ds : List Declaration) (l : Line) : Bool := ds.any (·.covers l.start)

/-- A line as it is in the stripped text. -/
def blanked (ds : List Declaration) (l : Line) : Line :=
  if l.isCovered ds then { l with text := blankOut l.text } else l

variable {ds : List Declaration} {l : Line}

@[simp] theorem start_blanked : (l.blanked ds).start = l.start := by
  unfold blanked
  split <;> rfl

@[simp] theorem ending_blanked : (l.blanked ds).ending = l.ending := by
  unfold blanked
  split <;> rfl

@[simp] theorem stop_blanked : (l.blanked ds).stop = l.stop := by
  unfold blanked
  split
  · rw [stop, stop, bytes_blankOut]
  · rfl

@[simp] theorem next_blanked : (l.blanked ds).next = l.next := by
  rw [next, next, stop_blanked, ending_blanked]

theorem blanked_of_covered (covered : l.isCovered ds = true) :
    l.blanked ds = { l with text := blankOut l.text } := if_pos covered

theorem blanked_of_bare (bare : l.isCovered ds = false) : l.blanked ds = l :=
  if_neg (by rw [bare]; exact Bool.false_ne_true)

theorem bytes_text_blanked : Text.bytes (l.blanked ds).text = Text.bytes l.text := by
  have stop_eq : (l.blanked ds).stop = l.stop := stop_blanked
  rw [stop, stop, start_blanked] at stop_eq
  exact Nat.add_left_cancel stop_eq

theorem bytes_join_blanked (ds : List Declaration) (ls : List Line) :
    Text.bytes (join (ls.map (blanked ds))) = Text.bytes (join ls) := by
  induction ls with
  | nil => rfl
  | cons l ls ih =>
    rw [List.map_cons, join_cons, join_cons, Text.bytes_append, Text.bytes_append, ih, raw, raw,
      Text.bytes_append, Text.bytes_append, bytes_text_blanked, ending_blanked]

theorem isWhole_blanked (whole : IsWhole l.text l.ending) :
    IsWhole (l.blanked ds).text l.ending := by
  unfold blanked
  split
  · exact isWhole_blankOut whole
  · exact whole

/-- The characters and endings of lines, as they are in the stripped text. -/
theorem map_blanked_place (start : Nat) (ps : List (Text × LineEnding)) :
    (place start ps).map (blanked ds) =
      place start ((place start ps).map fun l => ((l.blanked ds).text, l.ending)) := by
  induction ps generalizing start with
  | nil => rfl
  | cons p ps ih =>
    have line_eq : (⟨start, (blanked ds ⟨start, p.1, p.2⟩).text, p.2⟩ : Line) =
        blanked ds ⟨start, p.1, p.2⟩ := by
      unfold blanked
      split <;> rfl
    rw [place, List.map_cons, List.map_cons, place]
    dsimp only
    rw [line_eq, next_blanked, ih]

theorem divided_blanked {start : Nat} {ps : List (Text × LineEnding)} (h : Divided ps) :
    Divided ((place start ps).map fun l => ((l.blanked ds).text, l.ending)) := by
  induction ps generalizing start with
  | nil => trivial
  | cons p ps ih =>
    obtain ⟨whole, last, more⟩ := h
    refine ⟨isWhole_blanked whole, ?_, ih more⟩
    intro none
    obtain ⟨nonempty, rfl⟩ := last none
    refine ⟨?_, rfl⟩
    intro empty
    have size : Text.bytes (blanked ds ⟨start, p.1, p.2⟩).text = Text.bytes p.1 :=
      bytes_text_blanked
    rw [empty] at size
    obtain ⟨c, t, text_eq⟩ := List.exists_cons_of_ne_nil nonempty
    have := c.utf8Size_pos
    rw [text_eq, Text.bytes_cons, Text.bytes_nil] at size
    omega

end Line

theorem stripSpans_raw {source : Text} {l : Line} (mem : l ∈ Line.split source) :
    stripSpans ((Declaration.scan source).map (·.span)) l.start l.raw =
      (l.blanked (Declaration.scan source)).raw := by
  rw [Line.raw, Line.raw, stripSpans_append, stripSpans_ending, Line.ending_blanked]
  congr 1
  by_cases covered : l.isCovered (Declaration.scan source) = true
  · rw [Line.blanked_of_covered covered]
    obtain ⟨d, d_mem, covers⟩ := List.any_eq_true.1 covered
    obtain ⟨first, last, spans⟩ := Declaration.exists_lines d_mem
    obtain ⟨start, stop⟩ := spans.within_of_covers mem covers
    exact stripSpans_of_covered (List.mem_map_of_mem d_mem) start stop
  · rw [Bool.not_eq_true] at covered
    rw [Line.blanked_of_bare covered]
    refine stripSpans_of_apart ?_
    rintro _ span_mem
    obtain ⟨d, d_mem, rfl⟩ := List.mem_map.1 span_mem
    obtain ⟨first, last, spans⟩ := Declaration.exists_lines d_mem
    have bare : d.covers l.start = false :=
      Bool.not_eq_true _ ▸ List.any_eq_false.1 covered d d_mem
    exact spans.apart_of_not_covers mem bare

theorem stripSpans_join {source : Text} {start : Nat} {ps : List (Text × LineEnding)}
    (suffix : Line.place start ps <:+ Line.split source) :
    stripSpans ((Declaration.scan source).map (·.span)) start (Line.join (Line.place start ps)) =
      Line.join ((Line.place start ps).map (Line.blanked (Declaration.scan source))) := by
  induction ps generalizing start with
  | nil => rfl
  | cons p ps ih =>
    rw [Line.place] at suffix ⊢
    generalize line_eq : (⟨start, p.1, p.2⟩ : Line) = l at suffix ⊢
    have start_eq : start = l.start := by rw [← line_eq]
    have raw := stripSpans_raw (suffix.subset List.mem_cons_self)
    have rest := ih ((List.suffix_cons l _).trans suffix)
    have next : l.start + Text.bytes l.raw = l.next := by
      rw [Line.raw, Text.bytes_append, Line.next, Line.stop, Nat.add_assoc]
    rw [Line.join, List.flatMap_cons, ← Line.join, start_eq, stripSpans_append, raw, next, rest,
      List.map_cons]
    rfl

/-- The lines of the stripped text are those of the source, blanked out where declarations cover
them. -/
theorem split_strip (source : Text) :
    Line.split (strip source) =
      (Line.split source).map (Line.blanked (Declaration.scan source)) := by
  have text_eq : strip source =
      Line.join ((Line.split source).map (Line.blanked (Declaration.scan source))) := by
    have joined := stripSpans_join (List.suffix_refl (Line.split source))
    rwa [← Line.split, Line.join_split] at joined
  have divided : Line.Divided ((Line.split source).map fun l =>
      ((l.blanked (Declaration.scan source)).text, l.ending)) :=
    Line.divided_blanked (Line.divided_divide source)
  rw [text_eq, Line.split, Line.split, Line.map_blanked_place, Line.join_place]
  rw [Line.split] at divided
  rw [Line.divide_eq divided]

/-- What stands in a line of the stripped text stands in the source, if there is more to it than
spaces. -/
theorem holds_of_strip {source u : Text} {pos : Nat} (held : (strip source).Holds pos u)
    (eol : '\n' ∉ u) (visible : ∃ c ∈ u, TagToken.isSkipped c = false) :
    source.Holds pos u := by
  obtain ⟨c, c_mem, visible⟩ := visible
  obtain ⟨_, mem, v, w, raw_eq, start⟩ :=
    Line.exists_of_holds held (List.ne_nil_of_mem c_mem) eol
  rw [split_strip] at mem
  obtain ⟨l, l_mem, rfl⟩ := List.mem_map.1 mem
  by_cases covered : l.isCovered (Declaration.scan source) = true
  · -- a line that is blanked out has nothing but spaces
    have among : c ∈ (l.blanked (Declaration.scan source)).raw := by
      rw [raw_eq]
      exact List.mem_append_right v (List.mem_append_left w c_mem)
    rw [Line.raw, Line.ending_blanked, Line.blanked_of_covered covered] at among
    rcases List.mem_append.1 among with inside | ending
    · rw [isSkipped_of_mem_blankOut inside] at visible
      cases visible
    · cases eq : l.ending with
      | none => simp [eq] at ending
      | lf =>
        rw [eq, LineEnding.text_lf, List.mem_singleton] at ending
        rw [ending] at visible
        cases visible
      | crlf =>
        rw [eq] at ending
        simp only [LineEnding.text_crlf, List.mem_cons, List.not_mem_nil, or_false] at ending
        rcases ending with rfl | rfl <;> cases visible
  · rw [Bool.not_eq_true] at covered
    rw [Line.blanked_of_bare covered] at raw_eq start
    have stands := Line.holds_raw l_mem
    rw [raw_eq] at stands
    rw [← start]
    exact (Text.holds_append_iff.1 (Text.holds_append_iff.1 stands).2).1

/-- A visible offset of the stripped text is one of the source. -/
theorem isVisible_of_strip {source : Text} {pos : Nat} (h : (strip source).IsVisible pos) :
    source.IsVisible pos := by
  obtain ⟨start, v, w, held, eol, visible, size⟩ := h
  exact ⟨start, v, w, holds_of_strip held eol visible, eol, visible, size⟩

/-- An error that points into the stripped text points into the source. -/
theorem SyntaxError.Points.of_strip {source : Text} {e : SyntaxError}
    (h : e.Points (strip source)) : e.Points source where
  isVisible := isVisible_of_strip h.isVisible
  marks := by
    obtain ⟨w, marks, eol, visible, held⟩ := h.marks
    refine ⟨w, marks, eol, visible, ?_⟩
    cases w with
    | nil => exact Text.holds_nil_iff.2 (isVisible_of_strip h.isVisible).isBoundary
    | cons c w => exact holds_of_strip held eol ⟨c, List.mem_cons_self, visible c rfl⟩

end Folio
