import Folio.Proofs.Markup.Dedent
import Folio.Proofs.Markup.Pieces
import Folio.Proofs.Markup.Tags

/-!
# Widget bodies

A document is read region by region, and the lines of each region block by block. The widgets that
are met on the way have bodies, and these are the only parts of a source that a reading can be
refused. Main statements:

* `Block.bodies` lists the bodies that the reading of a region comes to;
* `Block.parse_eq_badCut_iff` says that reading halts at a bad cut exactly if one of them cannot be
  dedented;
* `Document.badCut_iff_straddled_line` says in which sources that happens.
-/

namespace Folio
namespace Block

variable {r : Region} {l : Line} {ls : List Line} {inner : Inner}

/-! ### The body of a widget -/

/-- The body of the widget that starts at a line, as it stands between its tags. -/
def widgetBody? (r : Region) (l : Line) (ls : List Line) : Option Region :=
  let at_ := l.start + indentation l.text
  let source := (Line.join (l :: ls)).drop (indentation l.text)
  match OpenTag.read at_ source with
  | .error _ => none
  | .ok tag =>
    if tag.selfClosing then none
    else
      (ClosingTag.find? tag.name.toList false tag.stop
        (Text.dropBytes source (tag.stop - at_))).bind fun close => r.slice? tag.stop close.start

/-- The text of a region up to a tag after the indentation of a line. -/
theorem exists_before_tag (suffix : l :: ls <:+ r.lines) :
    ∃ before, r.text = before ++ (Line.join (l :: ls)).drop (indentation l.text) ∧
      Text.bytes before = l.start + indentation l.text := by
  obtain ⟨lines, split⟩ := suffix
  have text_eq := Line.eq_join_append split.symm
  have start := Line.start_of_split split.symm
  have head : Line.join (l :: ls) = l.text.takeWhile isIndent ++
      (l.text.dropWhile isIndent ++ (l.ending.text ++ Line.join ls)) := by
    rw [← List.append_assoc, List.takeWhile_append_dropWhile, ← List.append_assoc]
    rfl
  refine ⟨Line.join lines ++ l.text.takeWhile isIndent, ?_, ?_⟩
  · rw [text_eq, head, indentation, List.drop_left, List.append_assoc]
  · rw [Text.bytes_append, Text.bytes_eq_length fun c => utf8Size_of_mem_indent, ← start]
    rfl

/-- The body of a widget lies between two boundaries. -/
theorem isCut_of_tags {tag : OpenTag} {close : ClosingTag} (suffix : l :: ls <:+ r.lines)
    (opened : OpenTag.read (l.start + indentation l.text)
      ((Line.join (l :: ls)).drop (indentation l.text)) = .ok tag)
    (closed : ClosingTag.find? tag.name.toList false tag.stop
      (Text.dropBytes ((Line.join (l :: ls)).drop (indentation l.text))
        (tag.stop - (l.start + indentation l.text))) = some close) :
    Text.IsCut r.text tag.stop close.start := by
  obtain ⟨before, text_eq, size⟩ := exists_before_tag suffix
  obtain ⟨opening, rest, source_eq, stop⟩ := OpenTag.stop_of_read opened
  rw [stop, Nat.add_sub_cancel_left, source_eq, Text.dropBytes_append] at closed
  obtain ⟨body, after, rest_eq, start⟩ := ClosingTag.start_of_find? closed
  rw [text_eq, source_eq, rest_eq, start, stop, ← size, ← Text.bytes_append, ← List.append_assoc]
  exact Text.isCut_of_parts ..

theorem bodyOf_eq_badCut_iff (at_ : Nat) {tag : OpenTag} {s : Text} {a b : Nat}
    (cut : ∀ close, ClosingTag.find? tag.name.toList false tag.stop s = some close →
      Text.IsCut r.text tag.stop close.start) :
    bodyOf inner r at_ tag s = .error (.badCut a b) ↔
      ∃ body, (if tag.selfClosing then none
        else (ClosingTag.find? tag.name.toList false tag.stop s).bind fun close =>
          r.slice? tag.stop close.start) = some body ∧
        (dedent body >>= inner) = .error (.badCut a b) := by
  unfold bodyOf
  split
  · simp
  · cases closed : ClosingTag.find? tag.name.toList false tag.stop s with
    | none => simp [mistake]
    | some close =>
      obtain ⟨body, taken⟩ := Option.isSome_iff_exists.1
        (Region.slice?_isSome_iff.2 (cut close closed))
      simp [slice, taken, Halt.bind_eq_error_iff, -bind_pure_comp]

/-- A widget is refused a part of its region exactly if its body, dedented and read, is. -/
theorem widgetAt_eq_badCut_iff {a b : Nat} (suffix : l :: ls <:+ r.lines) :
    widgetAt inner r l ls = .error (.badCut a b) ↔
      ∃ body, widgetBody? r l ls = some body ∧
        (dedent body >>= inner) = .error (.badCut a b) := by
  unfold widgetAt widgetBody?
  dsimp only
  cases opened : OpenTag.read (l.start + indentation l.text)
      ((Line.join (l :: ls)).drop (indentation l.text)) with
  | error e => simp
  | ok tag =>
    dsimp only
    rw [← bodyOf_eq_badCut_iff (l.start + indentation l.text)
      fun close closed => isCut_of_tags suffix opened closed, Halt.bind_eq_error_iff]
    constructor
    · rintro (failed | ⟨⟨children, stop⟩, -, failed⟩)
      · exact failed
      · -- past the body nothing is cut, or a paragraph is read
        dsimp only at failed
        split at failed
        · cases failed
        · split at failed
          · obtain ⟨e, is_mistake⟩ := paragraphAt_eq_error suffix.subset failed
            cases is_mistake
          · cases failed
    · exact .inl

/-! ### The blocks of a region -/

/-- What the block is that starts at a line. -/
inductive Opening
  | fence (fence : Fence)
  | heading (mark : HeadingMark)
  | thematicBreak
  | quote
  | list (mark : ListMark)
  | widget
  | closingTag (name : String)
  | paragraph
  deriving DecidableEq, Repr

/-- The block that a line that is not blank opens. -/
def opening (line : Text) : Opening :=
  match Fence.open? line with
  | some fence => .fence fence
  | none =>
    match HeadingMark.ofLine? line with
    | some mark => .heading mark
    | none =>
      if isThematicBreak line then .thematicBreak
      else if (quoteMark? line).isSome then .quote
      else
        match ListMark.ofLine? line with
        | some mark => .list mark
        | none =>
          if isWidgetStart line then .widget
          else
            match closingTagName? line with
            | some name => .closingTag name
            | none => .paragraph

theorem blockAt_eq (inner : Inner) (r : Region) (l : Line) (ls : List Line) :
    blockAt inner r l ls =
      match opening l.text with
      | .fence fence => .ok (fenced r fence l ls)
      | .heading mark => titled r mark l
      | .thematicBreak => .ok (.thematicBreak (r.span l.start l.stop), l.next)
      | .quote => quoted inner r l ls
      | .list mark => listed inner r mark l ls
      | .widget => widgetAt inner r l ls
      | .closingTag name =>
        mistake (r.toSource (l.start + indentation l.text)) (.unexpectedClosingTag name)
      | .paragraph => paragraphAt r l ls := by
  unfold blockAt opening
  cases Fence.open? l.text
  case some => rfl
  cases HeadingMark.ofLine? l.text
  case some => rfl
  cases isThematicBreak l.text
  case true => rfl
  cases (quoteMark? l.text).isSome
  case true => rfl
  cases ListMark.ofLine? l.text
  case some => rfl
  cases isWidgetStart l.text
  case true => rfl
  cases closingTagName? l.text
  case some => rfl
  rfl

/-- What the line is like that opens a block. -/
def Opening.Fits (line : Text) : Opening → Prop
  | .fence f => Fence.open? line = some f
  | .heading mark => HeadingMark.ofLine? line = some mark
  | .thematicBreak => isThematicBreak line = true
  | .quote => (quoteMark? line).isSome = true
  | .list mark => ListMark.ofLine? line = some mark ∧ isThematicBreak line = false
  | .widget => isWidgetStart line = true
  | .closingTag name => closingTagName? line = some name
  | .paragraph => True

theorem opening_fits (line : Text) : (opening line).Fits line := by
  unfold opening
  -- each block is looked for by the function that the line then fits
  repeat' split
  all_goals first
    | assumption
    | trivial
    | exact ⟨‹_›, Bool.eq_false_iff.2 ‹_›⟩

theorem ofLine?_of_opening_heading {line : Text} {mark : HeadingMark}
    (kind : opening line = .heading mark) : HeadingMark.ofLine? line = some mark := by
  unfold opening at kind
  split at kind
  · cases kind
  · split at kind
    · rename_i heading
      cases kind
      exact heading
    · -- what is looked for after headings is none
      repeat' split at kind
      all_goals cases kind

/-- The body of the widget, if there is one, that starts at a line. -/
def bodyAt? (r : Region) (l : Line) (ls : List Line) : Option Region :=
  match opening l.text with
  | .widget => widgetBody? r l ls
  | _ => none

/-- The regions that the block at a line consists of: they are read one level deeper, in turn, up to
the first one that cannot be read. -/
def handed (inner : Inner) (r : Region) (l : Line) (ls : List Line) : List Region :=
  match opening l.text with
  | .quote => (quoteContent r l ls).toOption.toList
  | .list mark => itemContents inner r mark.ordered l.start (l :: ls)
  | .widget => ((widgetBody? r l ls).bind fun body => (dedent body).toOption).toList
  | _ => []

theorem listed_eq_error_iff {mark : ListMark} {h : Halt} (lines : ∀ m ∈ l :: ls, m ∈ r.lines) :
    listed inner r mark l ls = .error h ↔
      ∃ content ∈ itemContents inner r mark.ordered l.start (l :: ls),
        inner content = .error h := by
  rw [← itemsFrom_eq_error_iff l.stop lines]
  unfold listed
  cases itemsFrom inner r mark.ordered l.stop l.start (l :: ls) <;>
    simp [Halt.bind_eq_error_iff, -bind_pure_comp]

/-- A block is refused a part of its region exactly if it is a widget whose body cannot be dedented,
or if a part of it is refused one. -/
theorem blockAt_eq_badCut_iff {a b : Nat} (suffix : l :: ls <:+ r.lines) :
    blockAt inner r l ls = .error (.badCut a b) ↔
      (∃ body, bodyAt? r l ls = some body ∧ dedent body = .error (.badCut a b)) ∨
        ∃ content ∈ handed inner r l ls, inner content = .error (.badCut a b) := by
  have lines : ∀ m ∈ l :: ls, m ∈ r.lines := suffix.subset
  rw [blockAt_eq]
  unfold bodyAt? handed
  cases kind : opening l.text with
  | fence fence => simp
  | heading mark =>
    have := titled_eq_error (h := .badCut a b) (lines l List.mem_cons_self)
      (ofLine?_of_opening_heading kind)
    simpa using this
  | thematicBreak => simp
  | quote =>
    obtain ⟨content, joined⟩ := quoteContent_isOk lines
    simp [quoted_eq_error_iff lines, joined, Except.toOption]
  | list mark => simp [listed_eq_error_iff lines]
  | widget =>
    rw [widgetAt_eq_badCut_iff suffix]
    cases widgetBody? r l ls with
    | none => simp
    | some body =>
      cases dedented : dedent body <;>
        simp [dedented, Except.toOption, Halt.bind_eq_error_iff]
  | closingTag name => simp [mistake]
  | paragraph =>
    have := paragraphAt_eq_error (h := .badCut a b) lines
    simpa using this

/-- The lines at which a block starts, each with the lines after it, up to the first block that
cannot be read. -/
def starts (inner : Inner) (r : Region) (skip : List Declaration) :
    Nat → List Line → List (Line × List Line)
  | _, [] => []
  | resume, l :: ls =>
    if l.start < resume then starts inner r skip resume ls
    else
      match skip.find? (·.covers l.start) with
      | some d => starts inner r skip (d.span.stop + 1) ls
      | none =>
        if Text.isBlank l.text then starts inner r skip resume ls
        else
          (l, ls) ::
            match blockAt inner r l ls with
            | .error _ => []
            | .ok (_, resume) => starts inner r skip resume ls

theorem suffix_of_mem_starts {skip : List Declaration} {resume : Nat} {at_ : Line × List Line}
    (mem : at_ ∈ starts inner r skip resume ls) : at_.1 :: at_.2 <:+ ls := by
  induction ls generalizing resume with
  | nil => cases mem
  | cons l ls ih =>
    rw [starts] at mem
    split at mem
    · exact (ih mem).trans (List.suffix_cons l ls)
    · split at mem
      · exact (ih mem).trans (List.suffix_cons l ls)
      · split at mem
        · exact (ih mem).trans (List.suffix_cons l ls)
        · rcases List.mem_cons.1 mem with rfl | mem
          · exact List.suffix_refl _
          · split at mem
            · cases mem
            · exact (ih mem).trans (List.suffix_cons l ls)

/-- A region cannot be read exactly if one of its blocks cannot. -/
theorem blocksFrom_eq_error_iff {skip : List Declaration} {resume : Nat} {h : Halt} :
    blocksFrom inner r skip resume ls = .error h ↔
      ∃ at_ ∈ starts inner r skip resume ls, blockAt inner r at_.1 at_.2 = .error h := by
  induction ls generalizing resume with
  | nil => simp [blocksFrom, starts]
  | cons l ls ih =>
    rw [blocksFrom, starts]
    by_cases passed : l.start < resume
    · rw [if_pos passed, if_pos passed]
      exact ih
    · rw [if_neg passed, if_neg passed]
      cases skip.find? (·.covers l.start) with
      | some d => exact ih
      | none =>
        dsimp only
        by_cases blank : Text.isBlank l.text = true
        · rw [if_pos blank, if_pos blank]
          exact ih
        · rw [if_neg blank, if_neg blank]
          cases read : blockAt inner r l ls with
          | error e => simp [Halt.bind_eq_error_iff, read]
          | ok taken => simp [Halt.bind_eq_error_iff, read, ih, -bind_pure_comp]

/-! ### All regions -/

/-- The widget bodies that the reading of a region comes to. -/
def bodies : Nat → List Declaration → Region → List Region
  | 0, _, _ => []
  | levels + 1, skip, r =>
    (starts (parse levels []) r skip 0 r.lines).flatMap fun (l, ls) =>
      (bodyAt? r l ls).toList ++ (handed (parse levels []) r l ls).flatMap (bodies levels [])

/-- A reading is refused a part of a region exactly if it comes to a widget body that cannot be
dedented. -/
theorem parse_eq_badCut_iff {levels : Nat} {skip : List Declaration} {r : Region} {a b : Nat} :
    parse levels skip r = .error (.badCut a b) ↔
      ∃ body ∈ bodies levels skip r, dedent body = .error (.badCut a b) := by
  induction levels generalizing skip r with
  | zero => simp [parse, bodies, mistake]
  | succ levels ih =>
    rw [parse, blocksFrom_eq_error_iff, bodies]
    -- a region that is handed on is read with one level less and without declarations
    constructor
    · rintro ⟨at_, mem, failed⟩
      rcases (blockAt_eq_badCut_iff (suffix_of_mem_starts mem)).1 failed with
        ⟨body, found, failed⟩ | ⟨content, handed, failed⟩
      · exact ⟨body, List.mem_flatMap.2 ⟨at_, mem, by simp [found]⟩, failed⟩
      · obtain ⟨body, reached, failed⟩ := ih.1 failed
        refine ⟨body, List.mem_flatMap.2 ⟨at_, mem, ?_⟩, failed⟩
        exact List.mem_append_right _ (List.mem_flatMap.2 ⟨content, handed, reached⟩)
    · rintro ⟨body, reached, failed⟩
      obtain ⟨at_, mem, reached⟩ := List.mem_flatMap.1 reached
      refine ⟨at_, mem, (blockAt_eq_badCut_iff (suffix_of_mem_starts mem)).2 ?_⟩
      rcases List.mem_append.1 reached with found | inside
      · exact .inl ⟨body, Option.mem_toList.1 found, failed⟩
      · obtain ⟨content, handed, reached⟩ := List.mem_flatMap.1 inside
        exact .inr ⟨content, handed, ih.2 ⟨body, reached, failed⟩⟩

end Block

namespace Document

theorem metadataOf_eq_error {formats : Formats} {source : Text} {ds : List Declaration} {h : Halt}
    (failed : metadataOf formats source ds = .error h) : ∃ e, h = .mistake e := by
  unfold metadataOf at failed
  split at failed
  · cases failed
  · split at failed
    · cases failed
    · cases failed
      exact ⟨_, rfl⟩

/-- A source is refused a part exactly if its metadata is read and its blocks are refused one. -/
theorem parse_badCut_iff_body {formats : Formats} {source : Text} {a b : Nat} :
    parse formats source = .error (.badCut a b) ↔
      (∃ metadata, metadataOf formats source (Declaration.scan source) = .ok metadata) ∧
        ∃ body ∈ Block.bodies maxNesting (Declaration.scan source) (Region.root source),
          Block.dedent body = .error (.badCut a b) := by
  rw [← Block.parse_eq_badCut_iff, parse, Halt.bind_eq_error_iff]
  constructor
  · rintro (failed | ⟨metadata, read, failed⟩)
    · obtain ⟨e, is_mistake⟩ := metadataOf_eq_error failed
      cases is_mistake
    · refine ⟨⟨metadata, read⟩, ?_⟩
      rcases Halt.bind_eq_error_iff.1 failed with failed | ⟨_, -, failed⟩
      · exact failed
      · cases failed
  · rintro ⟨⟨metadata, read⟩, failed⟩
    exact .inr ⟨metadata, read, Halt.bind_eq_error_iff.2 (.inl failed)⟩

/-- **Bad cuts.** Reading a source halts at a cut that does not lie between two boundaries exactly
if it comes to the body of a widget in which a line without content has white space that the margin
of the body divides within a character. Of that body the first such line is the one that is cut. -/
theorem badCut_iff_straddled_line (formats : Formats) (source : Text) (a b : Nat) :
    parse formats source = .error (.badCut a b) ↔
      (∃ metadata, metadataOf formats source (Declaration.scan source) = .ok metadata) ∧
        ∃ body ∈ Block.bodies maxNesting (Declaration.scan source) (Region.root source),
          ∃ l, body.lines.find? (Block.straddles (Block.margin body)) = some l ∧
            Text.isBlank l.text = true ∧ a = l.start + Block.margin body ∧ b = l.stop := by
  rw [parse_badCut_iff_body]
  refine and_congr_right fun _ => exists_congr fun body => and_congr_right fun _ => ?_
  rw [Block.dedent_eq_error_iff]
  constructor
  · rintro ⟨l, found, cut⟩
    cases cut
    exact ⟨l, found, Block.isBlank_of_straddles (List.mem_of_find?_eq_some found)
      (List.find?_some found), rfl, rfl⟩
  · rintro ⟨l, found, -, rfl, rfl⟩
    exact ⟨l, found, rfl⟩

/-- An ideographic space on a line of its own, in a body that is indented by one space. -/
theorem parse_ideographic_space :
    parse { json := fun _ => .ok .null, yaml := fun _ => .ok .null }
      ['<', 'B', 'o', 'x', '>', '\n', ' ', 'a', '\n', '\u3000', '\n',
        '<', '/', 'B', 'o', 'x', '>'] = .error (.badCut 5 7) := rfl

end Document
end Folio
