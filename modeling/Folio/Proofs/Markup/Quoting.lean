import Folio.Proofs.Markup.BlocksAlike
import Folio.Proofs.Markup.EndedBlocks
import Folio.Proofs.Markup.Nesting
import Folio.Proofs.Markup.Restrip

/-!
# Quoting a document

A document in which every line is put after a quote mark is one quote. What is in the quote is the
document, up to spans, with one exception: the lines of a quote are joined without a line feed at
the end, so that fenced code that no line closes loses a last line that is empty. Main statements:

* `Line.divide_blockQuote`: the lines of the quoted text;
* `Declaration.scan_eq_nil_of_quoted`: there are no declarations in it;
* `Document.parse_blockQuote`: its one block is a quote of the blocks of the document.
-/

namespace Folio

/-- A text with a quote mark in front of every line. -/
def Text.blockQuote (s : Text) : Text :=
  (Line.divide s).flatMap fun l => '>' :: ' ' :: (l.1 ++ l.2.text)

/-! ### The lines of a quoted text -/

namespace Line

variable {s : Text} {ps : List (Text × LineEnding)}

theorem divided_map_quoted (h : Divided ps) :
    Divided (ps.map fun l => ('>' :: ' ' :: l.1, l.2)) := by
  induction ps with
  | nil => trivial
  | cons p ps ih =>
    obtain ⟨whole, last, more⟩ := h
    have marked : IsWhole ('>' :: ' ' :: p.1) p.2 :=
      (whole.cons (by decide) (fun is_cr => absurd is_cr (by decide))).cons (by decide)
        (fun is_cr => absurd is_cr (by decide))
    refine ⟨marked, fun none => ⟨List.cons_ne_nil _ _, ?_⟩, ih more⟩
    rw [(last none).2]
    rfl

theorem divide_blockQuote (s : Text) :
    divide (Text.blockQuote s) = (divide s).map fun l => ('>' :: ' ' :: l.1, l.2) := by
  have lines := divide_eq (divided_map_quoted (divided_divide s))
  rwa [List.flatMap_map] at lines

theorem map_text_place (start : Nat) (ps : List (Text × LineEnding)) :
    (place start ps).map text = ps.map Prod.fst := by
  induction ps generalizing start with
  | nil => rfl
  | cons p ps ih => rw [place, List.map_cons, List.map_cons, ih]

/-- The texts of the lines of a quoted text. -/
theorem map_text_split_blockQuote (s : Text) :
    (split (Text.blockQuote s)).map text = (split s).map fun l => '>' :: ' ' :: l.text := by
  have plain := congrArg (List.map fun t => '>' :: ' ' :: t) (map_text_place 0 (divide s))
  rw [List.map_map, List.map_map] at plain
  rw [split, map_text_place, divide_blockQuote, List.map_map]
  exact plain.symm

end Line

/-! ### Lines with a quote mark -/

/-- Whether all lines have a quote mark. -/
def Line.AllQuoted (ls : List Line) : Prop := ∀ m ∈ ls, ∃ t, m.text = '>' :: ' ' :: t

section Quoted

variable (t : Text)

theorem quoteMark?_quoted : quoteMark? ('>' :: ' ' :: t) = some 2 := rfl

theorem Block.opening_quoted : Block.opening ('>' :: ' ' :: t) = .quote := by
  have fence : Fence.open? ('>' :: ' ' :: t) = none := rfl
  have heading : HeadingMark.ofLine? ('>' :: ' ' :: t) = none := rfl
  have thematic : isThematicBreak ('>' :: ' ' :: t) = false := by
    rw [← Bool.not_eq_true]
    intro h
    obtain ⟨c, head, mark⟩ := head?_of_isThematicBreak h
    cases head
    revert mark
    decide
  rw [opening, fence, heading]
  dsimp only
  rw [thematic, if_neg Bool.false_ne_true, quoteMark?_quoted, Option.isSome_some, if_pos rfl]

end Quoted

namespace Declaration

/-- Lines with a quote mark declare nothing. -/
theorem scanFrom_of_quoted {ls : List Line} {metadata : Bool} {resume : Nat}
    (quoted : Line.AllQuoted ls) : scanFrom metadata resume ls = [] := by
  induction ls generalizing metadata resume with
  | nil => rfl
  | cons l ls ih =>
    obtain ⟨⟨t, text⟩, later⟩ := List.forall_mem_cons.1 quoted
    have fence : Fence.open? l.text = none := by rw [text]; rfl
    have import_ : isImport l.text = false := by rw [text]; rfl
    have export_ : isExport l.text = false := by
      rw [← Bool.not_eq_true, text]
      intro h
      cases head?_of_isExport h
    have widget : isWidgetStart l.text = false := by rw [text]; rfl
    rw [scanFrom, fence, import_, export_, widget, Bool.and_false]
    split
    · exact ih later
    · exact ih later

/-- A text in which every line has a quote mark declares nothing. -/
theorem scan_eq_nil_of_quoted {s : Text} (quoted : Line.AllQuoted (Line.split s)) :
    scan s = [] := by
  have front : frontMatter? (Line.split s) = none := by
    refine frontMatter?_eq_none fun first mem => ?_
    obtain ⟨t, text⟩ := quoted first (List.mem_of_mem_head? mem)
    rw [text]
    nofun
  unfold scan
  dsimp only
  rw [front]
  exact scanFrom_of_quoted quoted

end Declaration

/-! ### The content of the quote -/

namespace Line

variable {s : Text} {ps : List (Text × LineEnding)}

theorem ended_ne_nil (ps : List (Text × LineEnding)) : ended ps ≠ [] := by
  unfold ended
  split <;> exact List.cons_ne_nil _ _

/-- The texts of lines with a line feed more, joined with line feeds. -/
theorem intercalate_ended (divided : Divided ps) (crlf : ∀ p ∈ ps, p.2 ≠ .crlf) :
    ['\n'].intercalate ((ended ps).map Prod.fst) = ps.flatMap fun l => l.1 ++ l.2.text := by
  induction ps with
  | nil => rfl
  | cons p ps ih =>
    obtain ⟨t, e⟩ := p
    obtain ⟨-, last, more⟩ := divided
    rw [List.forall_mem_cons] at crlf
    cases e with
    | none =>
      obtain ⟨-, rfl⟩ := last rfl
      simp [ended]
    | lf =>
      rw [ended_cons LineEnding.noConfusion, List.map_cons, List.intercalate_cons_of_ne_nil,
        ih more crlf.2]
      · rfl
      · rw [ne_eq, List.map_eq_nil_iff]
        exact ended_ne_nil ps
    | crlf => exact absurd rfl crlf.1

/-- Where no line feed is at the end, one more does not change the texts of the lines. -/
theorem map_ended (divided : Divided ps) (nonempty : ps ≠ [])
    (open_ : (ps.flatMap fun l => l.1 ++ l.2.text).getLast? ≠ some '\n') :
    (ended ps).map Prod.fst = ps.map Prod.fst := by
  induction ps with
  | nil => contradiction
  | cons p ps ih =>
    obtain ⟨t, e⟩ := p
    obtain ⟨-, last, more⟩ := divided
    by_cases none : e = .none
    · obtain ⟨-, rfl⟩ := last none
      subst none
      rfl
    · have ends : (t ++ e.text).getLast? = some '\n' := by
        cases e with
        | none => contradiction
        | lf => exact List.getLast?_concat ..
        | crlf => simp
      cases ps with
      | nil =>
        rw [List.flatMap_cons, List.flatMap_nil, List.append_nil] at open_
        exact absurd ends open_
      | cons q ps =>
        rw [ended_cons none, List.map_cons, List.map_cons, ih more (List.cons_ne_nil q ps)]
        intro rest
        rw [List.flatMap_cons, List.getLast?_append, rest] at open_
        exact open_ rfl

/-- A text without carriage returns has no other endings than line feeds. -/
theorem ne_crlf_of_mem (cr : '\r' ∉ s) : ∀ p ∈ divide s, p.2 ≠ .crlf := by
  intro p mem is_crlf
  refine cr ?_
  rw [← join_divide s, List.mem_flatMap]
  exact ⟨p, mem, by rw [is_crlf]; simp⟩

/-- The texts of the lines, joined with line feeds, are the text, but for a line feed at its end. -/
theorem intercalate_divide (cr : '\r' ∉ s) (nonempty : s ≠ []) :
    ['\n'].intercalate ((divide s).map Prod.fst) = s ∧ s.getLast? ≠ some '\n' ∨
      s = ['\n'].intercalate ((divide s).map Prod.fst) ++ ['\n'] := by
  by_cases ends : s.getLast? = some '\n'
  · obtain ⟨t, rfl⟩ := List.getLast?_eq_some_iff.1 ends
    have cr' : '\r' ∉ t := fun mem => cr (List.mem_append_left _ mem)
    rw [divide_append_eol cr', intercalate_ended (divided_divide t) (ne_crlf_of_mem cr'),
      join_divide]
    exact .inr rfl
  · have some_line : divide s ≠ [] := by
      intro none
      have text := join_divide s
      rw [none] at text
      exact nonempty text.symm
    have texts := map_ended (divided_divide s) some_line (by rwa [join_divide])
    rw [← texts, intercalate_ended (divided_divide s) (ne_crlf_of_mem cr), join_divide]
    exact .inl ⟨rfl, ends⟩

end Line

namespace Block

variable {s : Text} {l : Line} {ls : List Line}

theorem allQuoted_split (s : Text) : Line.AllQuoted (Line.split (Text.blockQuote s)) := by
  intro m mem
  have text := List.mem_map_of_mem (f := Line.text) mem
  rw [Line.map_text_split_blockQuote] at text
  obtain ⟨l, -, eq⟩ := List.mem_map.1 text
  exact ⟨l.text, eq.symm⟩

theorem dropBytes_quoted (t : Text) : Text.dropBytes ('>' :: ' ' :: t) 2 = t :=
  Text.dropBytes_append ['>', ' '] t

/-- What is in the quote: the lines without their marks. -/
theorem gather_quoted {r : Region} (lines : ∀ m ∈ ls, m ∈ r.lines) (marks : Line.AllQuoted ls) :
    ∃ content, gather r (ls.map fun m =>
        (min (m.start + (quoteMark? m.text).getD 0) m.stop, m.stop)) = .ok content ∧
      content.text = ['\n'].intercalate (ls.map fun m => Text.dropBytes m.text 2) := by
  have boundary : ∀ m ∈ ls, Text.isBoundary m.text 2 = true := by
    intro m mem
    obtain ⟨t, text⟩ := marks m mem
    exact isBoundary_of_quoteMark? (by rw [text]; rfl)
  have pieces : (ls.map fun m => (min (m.start + (quoteMark? m.text).getD 0) m.stop, m.stop)) =
      ls.map fun m => (m.start + 2, m.stop) := by
    refine List.map_congr_left fun m mem => ?_
    obtain ⟨t, text⟩ := marks m mem
    have size : quoteMark? m.text = some 2 := by rw [text]; rfl
    rw [size, Option.getD_some, Line.min_stop (boundary m mem)]
  have cuts : ∀ p ∈ ls.map fun m => (m.start + 2, m.stop), Text.IsCut r.text p.1 p.2 := by
    intro p mem
    obtain ⟨m, m_mem, rfl⟩ := List.mem_map.1 mem
    exact Line.isCut_stop (lines m m_mem) (boundary m m_mem)
  obtain ⟨content, joined⟩ := gather_isOk cuts
  rw [pieces]
  exact ⟨content, joined, text_of_gather_lines lines boundary joined⟩

/-- Lines with a quote mark are one quote. -/
theorem blocksFrom_quoted (inner : Inner) {r : Region} (lines : r.lines = l :: ls)
    (marks : Line.AllQuoted (l :: ls)) :
    ∃ content span, content.text =
        ['\n'].intercalate ((l :: ls).map fun m => Text.dropBytes m.text 2) ∧
      blocksFrom inner r [] 0 (l :: ls) =
        (inner content).map fun children => [.quote children span] := by
  have suffix : l :: (ls ++ []) <:+ Line.split r.text := by
    rw [List.append_nil]
    exact lines ▸ List.suffix_refl _
  obtain ⟨t, text⟩ := marks l List.mem_cons_self
  have filled : ¬ Text.isBlank l.text = true := by
    rw [text]
    exact Bool.false_ne_true
  have kind : opening l.text = .quote := by rw [text, opening_quoted]
  have marked : ∀ m ∈ l :: ls, isQuoted m = true := by
    intro m mem
    obtain ⟨t, text⟩ := marks m mem
    rw [isQuoted, text]
    rfl
  have taken : ls.takeWhile isQuoted = ls :=
    List.takeWhile_eq_self_iff.2 fun m mem => marked m (List.mem_cons_of_mem l mem)
  have passed : ∀ m ∈ ls, m.start < ((l :: ls).getLast?.getD l).next ∨ m.text = [] := fun m mem =>
    .inl ((Line.next_of_getLast? suffix).1 m (List.mem_cons_of_mem l mem)).1
  obtain ⟨content, joined, text_eq⟩ := gather_quoted (r := r) (fun m mem => by rwa [lines]) marks
  refine ⟨content, r.span l.start ((l :: ls).getLast?.getD l).stop, text_eq, ?_⟩
  rw [blocksFrom, if_neg (Nat.not_lt_zero _), List.find?_nil]
  dsimp only
  rw [if_neg filled, blockAt_eq, kind]
  dsimp only
  rw [quoted_eq r ls (marked l List.mem_cons_self), taken, joined]
  dsimp only [bind, Except.bind]
  cases inner content with
  | error halt => rfl
  | ok children =>
    dsimp only [pure, Except.pure]
    rw [(blocksFrom_of_end _ _ passed).1]
    rfl

/-- All lines of a quoted text are in one quote. -/
theorem parse_quotedLines (nonempty : s ≠ []) (levels : Nat) :
    ∃ content span, content.text = ['\n'].intercalate ((Line.divide s).map Prod.fst) ∧
      parse (levels + 1) [] (Region.root (Text.blockQuote s)) =
        (parse levels [] content).map fun children => [.quote children span] := by
  have marks := allQuoted_split s
  have texts := Line.map_text_split_blockQuote s
  have root : (Region.root (Text.blockQuote s)).lines = Line.split (Text.blockQuote s) := by
    rw [Region.lines, Region.text_root]
  cases lines : Line.split (Text.blockQuote s) with
  | nil =>
    rw [lines] at texts
    have text := Line.join_split s
    rw [List.map_eq_nil_iff.1 texts.symm] at text
    exact absurd text.symm nonempty
  | cons l ls =>
    rw [lines] at marks texts root
    obtain ⟨content, span, text, blocks⟩ := blocksFrom_quoted (parse levels []) root marks
    refine ⟨content, span, ?_, by rw [parse, root, blocks]⟩
    have plain := congrArg (List.map fun t => Text.dropBytes t 2) texts
    rw [List.map_map, List.map_map] at plain
    rw [text, ← Line.map_text_place 0 (Line.divide s)]
    refine congrArg _ (plain.trans ?_)
    exact List.map_congr_left fun m _ => dropBytes_quoted m.text

end Block

namespace Document

/-- Whether the last block of a text is fenced code that no line closes and of which the last line is
empty. -/
def EndsOpen (s : Text) : Prop :=
  Block.AnyEndsOpen (Block.starts (Block.parse innerNesting []) (Region.root s) [] 0
    (Line.split s))

variable {s : Text}

/-- An empty last line has an ending. -/
theorem not_endsOpen (open_ : s.getLast? ≠ some '\n') : ¬ EndsOpen s := by
  rintro ⟨⟨l, ls⟩, mem, fence, -, -, last, last_mem, empty⟩
  have suffix : l :: ls <:+ Line.split s := Block.suffix_of_mem_starts mem
  dsimp only at last_mem
  obtain ⟨init, rfl⟩ := List.getLast?_eq_some_iff.1 last_mem
  have suffix' : [last] <:+ Line.split s := ((List.suffix_append init _).trans
    (List.suffix_cons l _)).trans suffix
  have ends : last.ending ≠ .none := fun none =>
    ((Line.whole_of_suffix suffix').2.1 none).1 empty
  obtain ⟨before, lines⟩ := suffix'
  refine open_ ?_
  rw [Line.eq_join_append lines.symm, List.getLast?_append, Line.join, List.flatMap_singleton,
    Line.getLast?_raw ends]
  rfl

/-- The blocks of a text, and those of its lines without a line feed after the last one. -/
theorem parse_of_lines {content : Region} {blocks : List Block} (nonempty : s ≠ [])
    (cr : '\r' ∉ s) (text : content.text = ['\n'].intercalate ((Line.divide s).map Prod.fst))
    (read : Block.parse maxNesting [] (Region.root s) = .ok blocks) :
    ∃ children, Block.parse maxNesting [] content = .ok children ∧
      (¬ EndsOpen s → Block.allSpanless children = Block.allSpanless blocks) ∧
      (EndsOpen s → ∃ init info code,
        Block.allSpanless blocks = init ++ [.code info (code ++ "\n") ⟨0, 0⟩] ∧
          Block.allSpanless children = init ++ [.code info code ⟨0, 0⟩]) := by
  rcases Line.intercalate_divide cr nonempty with ⟨whole, open_⟩ | lined
  · have same : Block.SameText (Region.root s) content := by
      rw [Block.SameText, text, whole, Region.text_root]
    obtain ⟨children, read', blocks_eq⟩ := (Block.parse_parallel maxNesting [] same).alike.exists_of_ok read
    exact ⟨children, read', fun _ => blocks_eq.symm, fun ends => absurd ends (not_endsOpen open_)⟩
  · rw [← text] at lined
    have same : Block.SameText (Region.root s) content.lined := by
      rw [Block.SameText, Region.text_lined, Region.text_root, ← lined]
    have cr' : '\r' ∉ content.text := fun mem => cr (by rw [lined]; exact List.mem_append_left _ mem)
    obtain ⟨blocks', read', blocks_eq⟩ := (Block.parse_parallel maxNesting [] same).alike.exists_of_ok read
    have starts : Block.starts (Block.parse innerNesting []) (Region.root s) [] 0 (Line.split s) =
        Block.starts (Block.parse innerNesting []) content.lined [] 0 content.lined.lines := by
      rw [Block.starts_eq same (Block.parse_parallel innerNesting []), Region.lines, Region.text_lined, ← lined]
    rw [EndsOpen, starts]
    obtain ⟨_, _, -, failed⟩ | ⟨children, _, children_eq, eq, ended⟩ :=
      (Block.parse_lined cr' innerNesting).cases
    · rw [← maxNesting_eq, read'] at failed
      cases failed
    · rw [← maxNesting_eq, read'] at eq
      cases eq
      refine ⟨children, children_eq, ?_⟩
      rcases ended with ⟨rfl, none⟩ | ⟨⟨init, info, code, span, span', rfl, rfl⟩, some⟩
      · exact ⟨fun _ => blocks_eq.symm, fun ends => absurd ends none⟩
      · refine ⟨fun none => absurd some none, fun _ =>
          ⟨Block.allSpanless init, info, code, blocks_eq.trans ?_, ?_⟩⟩
        · rw [Block.allSpanless_eq_map, List.map_append, ← Block.allSpanless_eq_map]
          rfl
        · rw [Block.allSpanless_eq_map, List.map_append, ← Block.allSpanless_eq_map]
          rfl

/-- **Quoting.** A document in which every line is put after a quote mark is one quote, unless it is
then nested too deeply. In the quote are the blocks of the document, up to spans, except that fenced
code which no line closes loses a last line that is empty. -/
theorem parse_blockQuote (formats : Formats) {d : Document} (nonempty : s ≠ [])
    (cr : '\r' ∉ s) (undeclared : Declaration.scan s = []) (read : parse formats s = .ok d) :
    (∃ halt, parse formats (Text.blockQuote s) = .error halt ∧ halt.TooDeep) ∨
      ∃ children span, parse formats (Text.blockQuote s) =
          .ok { metadata := none, imports := [], blocks := [.quote children span] } ∧
        (¬ EndsOpen s → Block.allSpanless children = Block.allSpanless d.blocks) ∧
        (EndsOpen s → ∃ init info code,
          Block.allSpanless d.blocks = init ++ [.code info (code ++ "\n") ⟨0, 0⟩] ∧
            Block.allSpanless children = init ++ [.code info code ⟨0, 0⟩]) := by
  have undeclared' : Declaration.scan (Text.blockQuote s) = [] :=
    Declaration.scan_eq_nil_of_quoted (Block.allQuoted_split s)
  obtain ⟨content, span, text, quote⟩ := Block.parse_quotedLines nonempty innerNesting
  have blocks : Block.parse maxNesting [] (Region.root s) = .ok d.blocks := by
    rw [parse_of_scan_eq_nil undeclared] at read
    cases blocks : Block.parse maxNesting [] (Region.root s) with
    | error halt =>
      rw [blocks] at read
      cases read
    | ok blocks =>
      rw [blocks] at read
      cases read
      rfl
  obtain ⟨children, read', same⟩ := parse_of_lines nonempty cr text blocks
  rw [parse_of_scan_eq_nil undeclared', maxNesting_eq, quote]
  rcases Block.parse_shallower (m := innerNesting) (n := maxNesting) (by decide) [] content with
    ⟨halt, failed, deep⟩ | eq
  · rw [failed]
    exact .inl ⟨halt, rfl, deep⟩
  · rw [eq, read']
    exact .inr ⟨children, span, rfl, same⟩

/-- A heading and a list. -/
def headingThenList : Text := ['#', ' ', 'a', '\n', '-', ' ', 'b']

/-- A heading and a list in a quote. -/
theorem parse_blockQuote_headingThenList :
    let formats : Formats := { json := fun _ => .ok .null, yaml := fun _ => .ok .null }
    let d : Document := ⟨none, [], [.heading 1 [.text "a"] ⟨0, 3⟩,
      .list false none true [.mk [.paragraph [.text "b"] ⟨6, 7⟩] ⟨4, 7⟩] ⟨4, 7⟩]⟩
    headingThenList ≠ [] ∧ '\r' ∉ headingThenList ∧ Declaration.scan headingThenList = [] ∧
      parse formats headingThenList = .ok d ∧
      ∃ children span,
        parse formats (Text.blockQuote headingThenList) = .ok ⟨none, [], [.quote children span]⟩ ∧
          Block.allSpanless children = Block.allSpanless d.blocks := by
  intro formats d
  have nonempty : headingThenList ≠ [] := List.cons_ne_nil _ _
  have cr : '\r' ∉ headingThenList := by decide
  have undeclared : Declaration.scan headingThenList = [] := by decide
  have read : parse formats headingThenList = .ok d := by
    rw [parse_of_scan_eq_nil undeclared]
    rfl
  have shallow : (parse formats (Text.blockQuote headingThenList)).isOk = true := rfl
  refine ⟨nonempty, cr, undeclared, read, ?_⟩
  rcases parse_blockQuote formats nonempty cr undeclared read with
    ⟨halt, failed, -⟩ | ⟨children, span, quote, same, -⟩
  · rw [failed] at shallow
    cases shallow
  · exact ⟨children, span, quote, same (not_endsOpen (by decide))⟩

/-- Fenced code that no line closes, with an empty line, is empty in a quote. -/
theorem parse_openFence_blockQuote :
    let formats : Formats := { json := fun _ => .ok .null, yaml := fun _ => .ok .null }
    let s : Text := ['\x60', '\x60', '\x60', '\n', '\n']
    Declaration.scan s = [] ∧ parse formats s = .ok ⟨none, [], [.code none "\n" ⟨0, 4⟩]⟩ ∧
      parse formats (Text.blockQuote s) =
        .ok ⟨none, [], [.quote [.code none "" ⟨2, 5⟩] ⟨0, 8⟩]⟩ :=
  ⟨by decide, rfl, rfl⟩

end Document
end Folio
