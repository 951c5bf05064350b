import Folio.Proofs.Markup.EnclosedBodies
import Folio.Proofs.Markup.Listings
import Folio.Proofs.Region.Content

/-!
# Fenced code in the body of a widget

A widget may hold fenced code. The body is read without the indentation that its lines have in common, but
the search for its end goes through the text as it stands: it does not see a fence that is indented by more
than three characters, and a closing tag in the code may end the widget.

* `exists_dedent`: the body without the indentation of its lines;
* `Listing.content`: what the body says, wherever the widget ends;
* `Listing.parse_widget_iff`: the widget is read as it is written exactly if the search finds its end.
-/

namespace Folio

/-! ### Lines without their indentation -/

section Indented

variable {k : Nat} {u : Text} {ts us : List Text}

/-- What the lines of a body have in common, if one of them is not indented any further. -/
theorem margin_indented {r : Region} (lines : r.lines.map Line.text = [] :: ts.map (indented k))
    (mem : u ∈ ts) (filled : Text.isBlank u = false) (flush : indentation u = 0) :
    Block.margin r = k := by
  have indents : ((r.lines.filter fun l => !Text.isBlank l.text).map fun l => indentation l.text) =
      (ts.filter fun t => !Text.isBlank t).map fun t => k + indentation t := by
    have among : ((r.lines.map Line.text).filter fun t => !Text.isBlank t).map indentation =
        ((ts.map (indented k)).filter fun t => !Text.isBlank t).map indentation := by
      rw [lines]
      rfl
    rw [List.filter_map, List.filter_map, List.map_map, List.map_map] at among
    simpa only [Function.comp_def, isBlank_indented, indentation_indented] using among
  have least : ((ts.filter fun t => !Text.isBlank t).map fun t => k + indentation t).min? = some k := by
    rw [List.min?_eq_some_iff]
    constructor
    · exact List.mem_map.2 ⟨u, List.mem_filter.2 ⟨mem, by rw [filled]; rfl⟩, by rw [flush, Nat.add_zero]⟩
    · intro n mem
      obtain ⟨t, -, rfl⟩ := List.mem_map.1 mem
      exact Nat.le_add_right k _
  rw [Block.margin, indents, least, Option.getD_some]

/-- A line without what it has in common with others. -/
theorem dropBytes_indented (k : Nat) (t : Text) :
    Text.isBoundary (indented k t) k = true ∧ Text.dropBytes (indented k t) k = t := by
  have size : Text.bytes (List.replicate k ' ') = k := bytes_replicate_space k
  constructor
  · have boundary := Text.isBoundary_append (List.replicate k ' ') t
    rwa [size] at boundary
  · have dropped := Text.dropBytes_append (List.replicate k ' ') t
    rwa [size] at dropped

/-- What is left of indented lines after a line without content. -/
theorem exists_gather_indented {r : Region} (lines : r.lines.map Line.text = [] :: ts.map (indented k)) :
    ∃ d, Block.gather r (r.lines.map fun l => (min (l.start + k) l.stop, l.stop)) = .ok d ∧
      d.text = ['\n'].intercalate ([] :: ts) := by
  have each : ∀ l ∈ r.lines, l.text = [] ∨ ∃ t, l.text = indented k t := by
    intro l mem
    have among : l.text ∈ [] :: ts.map (indented k) := lines ▸ List.mem_map_of_mem mem
    exact (List.mem_cons.1 among).imp_right fun later => (List.mem_map.1 later).imp fun _ h => h.2.symm
  -- the first line is shorter than the margin, and is left empty
  let from_ : Line → Nat := fun l => min k (Text.bytes l.text)
  have empty : min k (Text.bytes []) = 0 := Nat.min_zero k
  have size : ∀ t, min k (Text.bytes (indented k t)) = k := by
    intro t
    rw [indented, Text.bytes_append, bytes_replicate_space]
    exact Nat.min_eq_left (Nat.le_add_right k _)
  have pieces : (r.lines.map fun l => (min (l.start + k) l.stop, l.stop)) =
      r.lines.map fun l => (l.start + from_ l, l.stop) := by
    refine List.map_congr_left fun l _ => ?_
    rw [Line.stop, Nat.add_min_add_left]
  have boundary : ∀ l ∈ r.lines, Text.isBoundary l.text (from_ l) = true := by
    intro l mem
    dsimp only [from_]
    obtain text | ⟨t, text⟩ := each l mem
    · rw [text, empty]
      rfl
    · rw [text, size]
      exact (dropBytes_indented k t).1
  have cuts : ∀ p ∈ r.lines.map fun l => (l.start + from_ l, l.stop), Text.IsCut r.text p.1 p.2 :=
    List.forall_mem_map.2 fun l mem => Line.isCut_stop mem (boundary l mem)
  obtain ⟨d, joined⟩ := Block.gather_isOk cuts
  have rest : (r.lines.map fun l => Text.dropBytes l.text (from_ l)) = [] :: ts := by
    have own : (r.lines.map fun l => Text.dropBytes l.text (from_ l)) =
        (r.lines.map Line.text).map fun t => Text.dropBytes t (min k (Text.bytes t)) := by
      rw [List.map_map]
      rfl
    have left : ∀ t ∈ ts, Text.dropBytes (indented k t) (min k (Text.bytes (indented k t))) = t := by
      intro t _
      rw [size]
      exact (dropBytes_indented k t).2
    rw [own, lines, List.map_cons, List.map_map, empty]
    exact congrArg ([] :: ·) ((List.map_congr_left left).trans (List.map_id' ts))
  rw [pieces, joined]
  exact ⟨d, rfl, by rw [← rest]; exact Block.text_of_gather_lines (fun _ mem => mem) boundary joined⟩

/-- The lines of a text that is joined from them. -/
theorem map_text_split_intercalate_ended (whole : ∀ t ∈ us, Line.IsWhole t .lf) {e : LineEnding}
    (last : Line.IsWhole u e) (filled : u ≠ []) :
    (Line.split (['\n'].intercalate (us ++ [u]) ++ e.text)).map Line.text = us ++ [u] := by
  have last : Line.Divided [(u, e)] := ⟨last, fun _ => ⟨filled, rfl⟩, trivial⟩
  have pairs := Line.map_pair_split_append whole last
  rw [List.flatMap_singleton] at pairs
  rw [intercalate_append_cons, List.flatMap_nil, List.append_nil, List.append_assoc,
    Line.map_text_eq_map_pair]
  refine (congrArg (List.map Prod.fst) pairs).trans ?_
  rw [List.map_append, List.map_map]
  exact congrArg (· ++ [u]) (List.map_id' us)

theorem map_text_split_intercalate (whole : ∀ t ∈ us ++ [u], Line.IsWhole t .lf) (filled : u ≠ []) :
    (Line.split (['\n'].intercalate (us ++ [u]))).map Line.text = us ++ [u] := by
  rw [List.forall_mem_append, List.forall_mem_singleton] at whole
  have lines := map_text_split_intercalate_ended whole.1 (e := .none) ⟨whole.2.eol, nofun⟩ filled
  rwa [LineEnding.text_none, List.append_nil] at lines

/-- The body without what its lines have in common. -/
theorem exists_dedent (k : Nat) (whole : ∀ t ∈ us ++ [u], Line.IsWhole t .lf)
    (filled : Text.isBlank u = false) (flush : indentation u = 0) :
    ∃ d, Block.dedent (Region.root (bodyText ((us ++ [u]).map (indented k)))) = .ok d ∧
      (Line.split d.text).map Line.text = [] :: (us ++ [u]) := by
  have gap : Line.IsWhole [] .lf := ⟨List.not_mem_nil, nofun⟩
  have whole_body : ∀ t ∈ [] :: (us ++ [u]).map (indented k), Line.IsWhole t .lf :=
    List.forall_mem_cons.2 ⟨gap, List.forall_mem_map.2 fun t mem => isWhole_indented (whole t mem)⟩
  have texts : (Region.root (bodyText ((us ++ [u]).map (indented k)))).lines.map Line.text =
      [] :: (us ++ [u]).map (indented k) := by
    rw [Region.lines, Region.text_root, Line.map_text_eq_map_pair]
    refine (congrArg (List.map Prod.fst) (Line.map_pair_split_lines whole_body)).trans ?_
    rw [List.map_map]
    exact List.map_id' _
  have margin := margin_indented texts (List.mem_append_right us (List.mem_singleton_self u)) filled flush
  rw [Block.dedent_eq, margin]
  by_cases zero : k = 0
  · subst zero
    have same : (us ++ [u]).map (indented 0) = us ++ [u] := List.map_id' _
    rw [same] at texts ⊢
    exact ⟨_, if_pos rfl, texts⟩
  · obtain ⟨d, joined, text⟩ := exists_gather_indented texts
    have filled' : u ≠ [] := by
      rintro rfl
      cases filled
    refine ⟨d, (if_neg zero).trans joined, ?_⟩
    rw [text, ← List.cons_append]
    exact map_text_split_intercalate (List.forall_mem_cons.2 ⟨gap, whole⟩) filled'

end Indented

namespace Listing

variable (x : Listing) (name : PlainName) (k : Nat)

theorem filled_bar : Text.isBlank x.bar = false := Fence.isBlank_marks x.marks x.long

theorem whole_lines : ∀ t ∈ x.lines, Line.IsWhole t .lf := by
  intro t mem
  rw [lines, List.mem_cons, List.mem_append, List.mem_singleton] at mem
  rcases mem with rfl | mem | rfl
  · exact isWhole_bar x
  · exact isWhole_of_mem_code mem
  · exact isWhole_bar x

/-- A body of fenced code is read as the code, whatever stands in it and however far it is indented. -/
theorem content (levels : Nat) :
    (Block.dedent (Region.root (bodyText (x.lines.map (indented k)))) >>=
      Block.parse (levels + 1) []).map Block.allSpanless = .ok [.code none (codeOf x.code) ⟨0, 0⟩] := by
  have whole : ∀ t ∈ (x.bar :: x.code) ++ [x.bar], Line.IsWhole t .lf := whole_lines x
  obtain ⟨d, dedented, texts⟩ := exists_dedent k whole (filled_bar x)
    (Fence.indentation_marks x.marks x.long)
  have body : Block.dedent (Region.root (bodyText (x.lines.map (indented k)))) = .ok d := dedented
  obtain ⟨gap, more, split, gap_text, texts⟩ := List.map_eq_cons_iff.1 texts
  obtain ⟨l, more, rfl, l_text, texts⟩ := List.map_eq_cons_iff.1 texts
  obtain ⟨ls, last, rfl, code, texts⟩ := List.map_eq_append_iff.1 texts
  obtain ⟨close, none, rfl, close_text, nil⟩ := List.map_eq_cons_iff.1 texts
  obtain rfl := List.map_eq_nil_iff.1 nil
  have gap_blank : Text.isBlank gap.text = true := by
    rw [gap_text]
    rfl
  have opening : Block.opening l.text = .fence (x.fence 0) := by
    have opened : Fence.open? (indented 0 x.bar) = some (x.fence 0) :=
      Fence.open?_marks x.marks x.long (Nat.zero_le 3)
    rw [l_text, Block.opening, show Fence.open? x.bar = _ from opened]
  have open_ : ∀ m ∈ ls, (x.fence 0).closes m.text = false := fun m mem =>
    x.unclosed m.text (code ▸ List.mem_map_of_mem mem)
  have closed : (x.fence 0).closes close.text = true := by
    have marks : (x.fence 0).closes (indented 0 x.bar) = true :=
      Fence.closes_marks x.marks x.long (Nat.zero_le 3) rfl (Nat.le_refl _)
    rw [close_text]
    exact marks
  have filled : Text.isBlank l.text = false := by rw [l_text, filled_bar]
  have suffix : l :: (ls ++ [close] ++ []) <:+ Line.split d.text := by
    rw [List.append_nil, split]
    exact List.suffix_cons gap _
  obtain ⟨before, -⟩ := Line.next_of_getLast? suffix
  have last : (l :: (ls ++ [close])).getLast?.getD l = close := by
    rw [← List.cons_append, List.getLast?_concat, Option.getD_some]
  rw [last] at before
  have rest : Block.blocksFrom (Block.parse levels []) d [] close.next (ls ++ [close]) = .ok [] := by
    rw [← List.append_nil (ls ++ [close])]
    exact Block.blocksFrom_of_passed fun m mem => (before m (List.mem_cons_of_mem l mem)).1
  rw [body]
  dsimp only [bind, Except.bind]
  rw [Block.parse, Region.lines, split, Block.blocksFrom_of_isBlank (Nat.zero_le _) gap_blank,
    Block.blocksFrom_cons (Nat.zero_le _) rfl filled,
    blockAt_code _ _ opening rfl open_ closed []]
  dsimp only [bind, Except.bind]
  rw [rest, code]
  rfl

/-- A widget with the code, each line after some spaces, which may end with the text or with a line
ending. -/
def widget (e : LineEnding) : Text := widgetText name.text (x.lines.map (indented k)) e

/-- The widget with the code is read as it is written. -/
def IsReadBack (formats : Formats) (e : LineEnding) : Prop :=
  (Document.parse formats (x.widget name k e)).map Document.spanless = .ok (Document.ofBlocks
    [.widget (plainTag name.text []) false [.code none (codeOf x.code) ⟨0, 0⟩]])

theorem whole_indented : ∀ t ∈ x.lines.map (indented k), Line.IsWhole t .lf :=
  List.forall_mem_map.2 fun t mem => isWhole_indented (whole_lines x t mem)

/-- Lines after spaces import nothing. -/
theorem scan_widget (e : LineEnding) (filled : 0 < k) : Declaration.scan (x.widget name k e) = [] := by
  have whole : ∀ t ∈ x.lines.map (indented k), Line.IsWhole t .lf := whole_indented x k
  obtain ⟨l, ls, close, split, opened, body, closed⟩ := exists_split_widgetText name.isTagName whole e
  have no_import : ∀ m : Line, m.text.head? = some ' ' ∨ m.text.head? = some '<' →
      Declaration.isImport m.text = false := by
    intro m first
    rw [← Bool.not_eq_true]
    intro imports
    obtain ⟨rest, text⟩ := Declaration.exists_of_isImport imports
    rw [text] at first
    rcases first with first | first <;> cases first
  have kind : isWidgetStart l.text = true := by
    rw [show l.text = OpenTag.write name.text [] false from congrArg Prod.fst opened]
    exact isWidgetStart_write name.isTagName
  rw [widget, scan_of_widget split kind]
  refine Declaration.scanFrom_of_no_import fun m mem => no_import m ?_
  rcases List.mem_append.1 mem with inside | last
  · have pair : m.pair ∈ (x.lines.map (indented k)).map (·, LineEnding.lf) :=
      body ▸ List.mem_map_of_mem inside
    obtain ⟨t, among, same⟩ := List.mem_map.1 pair
    obtain ⟨u, -, rfl⟩ := List.mem_map.1 among
    obtain ⟨n, rfl⟩ := Nat.exists_eq_add_of_lt filled
    left
    rw [show m.text = indented (0 + n + 1) u from (congrArg Prod.fst same).symm]
    rfl
  · obtain rfl := List.mem_singleton.1 last
    right
    rw [show m.text = ClosingTag.write name.text from congrArg Prod.fst closed]
    rfl

theorem isEnclosed_of_isSheltered {x : Listing} {k : Nat} (h : x.IsSheltered name k) (e : LineEnding) :
    IsEnclosed name.text (x.lines.map (indented k)) e :=
  ClosingTag.find?_of_crosses (crosses_of_isSheltered name h) _ _

/-- The widget is read as it is written exactly if the search for its closing tag goes to its end. -/
theorem isReadBack_iff (formats : Formats) (e : LineEnding) :
    x.IsReadBack name k formats e ↔ IsEnclosed name.text (x.lines.map (indented k)) e := by
  constructor
  · intro read
    by_cases le : k ≤ 3
    · exact isEnclosed_of_isSheltered name (.inl le) e
    · exact isEnclosed_of_parse name.isTagName (whole_indented x k)
        (x.scan_widget name k e (by omega)) read
  · intro enclosed
    exact parse_widgetText name.isTagName (whole_indented x k) formats enclosed (x.content k (innerNesting - 1))

/-- **Fenced code in a widget protects what stands in it as far as the search for the closing tag sees the
fence.** The widget is read as it is written if the fence is indented by at most three characters, if it is of
backticks that stand nowhere in the code, or if the code has no backticks and no tags of the widget; and in
all cases exactly if the search goes through the code to the tag after it. -/
theorem protects (formats : Formats) (e : LineEnding) :
    (x.IsSheltered name k → x.IsReadBack name k formats e) ∧
      (x.IsReadBack name k formats e ↔ IsEnclosed name.text (x.lines.map (indented k)) e) :=
  ⟨fun sheltered => (x.isReadBack_iff name k formats e).2 (isEnclosed_of_isSheltered name sheltered e),
    x.isReadBack_iff name k formats e⟩

/-- A listing of the closing tag of a widget. -/
def sample : Listing where
  marker := '~'
  length := 3
  code := ["</Box>".toList]
  marks := .inr rfl
  long := by decide
  whole := by decide
  unclosed := by decide

theorem protects_sample :
    let formats : Formats := { json := fun _ => .ok .null, yaml := fun _ => .ok .null }
    sample.widget .box 3 .none = "<Box>\n   ~~~\n   </Box>\n   ~~~\n</Box>".toList ∧
      sample.IsSheltered .box 3 ∧ sample.IsReadBack .box 3 formats .none := by
  intro formats
  have sheltered : sample.IsSheltered .box 3 := .inl (Nat.le_refl 3)
  exact ⟨by decide, sheltered, (protects sample .box 3 formats .none).1 sheltered⟩

/-- With one more space the closing tag in the code ends the widget. -/
theorem not_isReadBack_sample :
    let formats : Formats := { json := fun _ => .ok .null, yaml := fun _ => .ok .null }
    sample.widget .box 4 .none = "<Box>\n    ~~~\n    </Box>\n    ~~~\n</Box>".toList ∧
      ¬ sample.IsReadBack .box 4 formats .none := by
  intro formats
  rw [isReadBack_iff]
  constructor <;> decide

end Listing

end Folio
