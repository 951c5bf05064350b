import Folio.Proofs.Markup.LoneWidgets
import Folio.Proofs.Render.Checks
import Folio.Render.Compilation

/-!
# Texts that compile to one widget

A tag with one prop, alone in its text, and the tree that it compiles to. Main statements:

* `compile_tagText`: the tree has one widget with this prop;
* `exists_of_compile_eq_widget`: where a tree has one widget, its props are those of the tag that the
  text starts with;
* `exists_quoted_of_compile`: and what is written in quotes is one of them.
-/

namespace Folio

variable {formats : Formats} {caps : CapabilitySet} {s e name prop : Text}

/-! ### Compilation -/

theorem strip_of_scan_eq_nil (nothing : Declaration.scan s = []) : strip s = s := by
  rw [strip, nothing]
  exact stripSpans_of_apart (List.forall_mem_nil _)

/-- A text without declarations is compiled as it stands. -/
theorem compile_of_scan_eq_nil (formats : Formats) (caps : CapabilitySet)
    (nothing : Declaration.scan s = []) {d : Document} (read : Document.parse formats s = .ok d) :
    compile formats caps s =
      match d.evaluate formats caps with
      | .error e => .failed (Failure.ofEvaluation s e)
      | .ok t => .tree { t with metadata := none } := by
  have unread : Metadata.extract formats s = .ok none := by
    rw [Metadata.extract, nothing]
    rfl
  unfold compile
  rw [unread, strip_of_scan_eq_nil nothing, read]
  rfl

/-- A document of one block is evaluated to the node of the block. -/
theorem Document.evaluate_of_block {d : Document} {b : Block} {n : Node} (single : d.blocks = [b])
    (made : Evaluation.block formats caps b = .ok n) :
    d.evaluate formats caps = .ok { nodes := [n], metadata := d.metadata } := by
  rw [Document.evaluate, single, Evaluation.blocks, made, Evaluation.blocks]
  rfl

/-- A tag with one prop that closes itself. -/
def tagText (name prop value : Text) : Text :=
  OpenTag.propLead name prop ++ (value ++ OpenTag.ending true)

/-- What is read as the value of a prop from a text, whatever comes after it. -/
def IsValue (value : Text) (v : PropValue) : Prop :=
  ∀ (tag at_ start : Nat) (name prop : String) (rest : Text),
    OpenTag.readFrom tag (.valued name [] prop start) at_ at_ (value ++ rest) =
      OpenTag.readFrom tag
        (.ready name [{ name := prop, value := v, span := ⟨start, at_ + Text.bytes value⟩ }])
        (at_ + Text.bytes value) (at_ + Text.bytes value) rest

theorem isValue_expression (literal : Expression.IsLiteral e) :
    IsValue e (.expression (Expression.source e)) :=
  fun _ _ _ _ _ rest => OpenTag.readFrom_expression literal rest

section Tags

variable {value tail : Text} {v : PropValue}

/-- A tag with one prop is read whole. -/
theorem exists_isLone (named : IsTagName name) (propNamed : OpenTag.IsPropName prop)
    (written : IsValue value v) (blank : Text.isBlank tail = true) :
    ∃ tag span, IsLone (tagText name prop value) tail tag ∧ tag.name = String.ofList name ∧
      tag.props = [{ name := String.ofList prop, value := v, span }] := by
  have parts : tagText name prop value ++ tail =
      OpenTag.propLead name prop ++ (value ++ (OpenTag.ending true ++ tail)) := by
    simp [tagText]
  obtain ⟨start, read⟩ := OpenTag.read_propLead 0 named propNamed
    (value ++ (OpenTag.ending true ++ tail))
  rw [written, OpenTag.readFrom_ending (.ready _), ← parts] at read
  refine ⟨_, _, ⟨?_, read, rfl, ?_, blank⟩, rfl, rfl⟩
  · obtain ⟨starts, -⟩ := named
    cases name with
    | nil => cases starts
    | cons c w => exact ⟨c, _, rfl, starts⟩
  · simp [tagText, Nat.add_assoc]

/-- **A tag with one prop compiles to one widget with this prop**, if the widget accepts it. -/
theorem compile_tagText (named : IsTagName name) (propNamed : OpenTag.IsPropName prop)
    (written : IsValue value v) (blank : Text.isBlank tail = true) {w : Widget} {j : Json}
    (known : caps.get? (String.ofList name) = some w)
    (evaluated : ∀ span, Evaluation.propValue formats
      { name := String.ofList prop, value := v, span } = .ok j)
    (accepts : w.validate [(String.ofList prop, j)] = .ok ()) :
    compile formats caps (tagText name prop value ++ tail) =
      .tree { nodes := [.widget (String.ofList name) [(String.ofList prop, j)] []
                ⟨0, Text.bytes (tagText name prop value)⟩]
              metadata := none } := by
  obtain ⟨tag, span, lone, tag_name, tag_props⟩ := exists_isLone named propNamed written blank
  have last : tagText name prop value =
      (OpenTag.propLead name prop ++ (value ++ [' ', '/'])) ++ ['>'] := by
    simp [tagText, OpenTag.ending]
  have made : Evaluation.block formats caps
      (.widget (Inline.tagIn (Region.root (tagText name prop value ++ tail)) tag 0 tag.stop) true []) =
      .ok (.widget (String.ofList name) [(String.ofList prop, j)] []
        ⟨0, Text.bytes (tagText name prop value)⟩) := by
    rw [Evaluation.block, Inline.tagIn, lone.span_eq last, tag_name, tag_props, List.map_singleton,
      Evaluation.tag]
    dsimp only
    rw [known]
    dsimp only [Evaluation.addProps, bind, Except.bind]
    rw [evaluated, Evaluation.blocks]
    simp only [Fields.contains, Fields.get?, Fields.insert, Option.isSome_none, Bool.false_eq_true,
      if_false, accepts]
    rfl
  rw [compile_of_scan_eq_nil formats caps lone.scan_eq_nil (lone.parse_eq formats),
    Document.evaluate_of_block rfl made]

end Tags

/-! ### The tag of a tree's only widget -/

/-- A prop that has a value keeps it. -/
theorem Evaluation.get?_of_addProps {name k : String} {props out : Props} {ps : List WidgetProp} {v : Json}
    (added : addProps formats name props ps = .ok out) (there : Fields.get? k props = some v) :
    Fields.get? k out = some v := by
  induction ps generalizing props with
  | nil =>
    cases added
    exact there
  | cons p ps ih =>
    rw [addProps] at added
    dsimp only [bind, Except.bind] at added
    split at added
    · cases added
    · split at added
      · cases added
      · rename_i unrepeated
        refine ih added ?_
        rw [Fields.get?_insert, if_neg, there]
        rintro rfl
        exact unrepeated (by rw [Fields.contains, there]; rfl)

theorem Evaluation.addProps_of_tag {t : WidgetTag} {props : Props}
    (made : Evaluation.tag formats caps t = .ok props) :
    addProps formats t.name [] t.props = .ok props := by
  unfold Evaluation.tag at made
  split at made
  · cases made
  · dsimp only [bind, Except.bind] at made
    split at made
    · cases made
    · rename_i added
      split at made
      · cases made
        exact added
      · cases made

/-- Only a widget is evaluated to a widget. -/
theorem Evaluation.exists_of_block_eq_widget {b : Block} {name : String} {props : Props}
    {children : List Node} {span : Span}
    (made : Evaluation.block formats caps b = .ok (.widget name props children span)) :
    ∃ t closed body, b = .widget t closed body ∧ Evaluation.tag formats caps t = .ok props := by
  cases b with
  | widget t closed body =>
    rw [Evaluation.block] at made
    obtain ⟨given, tag_eq, made⟩ := exists_of_bind_eq_ok made
    obtain ⟨inside, -, made⟩ := exists_of_bind_eq_ok made
    cases made
    exact ⟨t, closed, body, rfl, tag_eq⟩
  | heading | paragraph | quote | list =>
    rw [Evaluation.block] at made
    obtain ⟨inside, -, made⟩ := exists_of_bind_eq_ok made
    cases made
  | code | thematicBreak =>
    rw [Evaluation.block] at made
    cases made

/-- The first of the blocks is evaluated to the first of the nodes. -/
theorem Evaluation.block_of_blocks_cons {b : Block} {bs : List Block} {n : Node} {ns : List Node}
    (made : Evaluation.blocks formats caps (b :: bs) = .ok (n :: ns)) :
    Evaluation.block formats caps b = .ok n := by
  rw [Evaluation.blocks] at made
  dsimp only [bind, Except.bind] at made
  split at made
  · cases made
  · next first =>
    split at made
    · cases made
    · cases made
      exact first

/-- A paragraph is no widget. -/
theorem Block.paragraphAt_ne_widget {r : Region} {l : Line} {ls : List Line} {t : WidgetTag}
    {closed : Bool} {body : List Block} {stop : Nat} :
    paragraphAt r l ls ≠ .ok (.widget t closed body, stop) := by
  intro taken
  obtain ⟨content, -, taken⟩ := exists_of_bind_eq_ok taken
  obtain ⟨inside, -, taken⟩ := exists_of_bind_eq_ok taken
  cases taken

/-- A widget that is read has the tag that stands where it is read. -/
theorem Block.exists_tagAt_of_widgetAt {inner : Inner} {r : Region} {l : Line} {ls : List Line}
    {t : WidgetTag} {closed : Bool} {body : List Block} {stop : Nat}
    (taken : widgetAt inner r l ls = .ok (.widget t closed body, stop)) :
    ∃ tag, tagAt l ls = .ok tag ∧ t = Inline.tagIn r tag (l.start + indentation l.text) stop := by
  rw [widgetAt_eq] at taken
  cases read : tagAt l ls with
  | error e =>
    rw [read] at taken
    cases taken
  | ok tag =>
    rw [read] at taken
    obtain ⟨⟨children, after⟩, -, taken⟩ := exists_of_bind_eq_ok taken
    dsimp only at taken
    split at taken
    · cases taken
      exact ⟨tag, rfl, rfl⟩
    · split at taken
      · exact absurd taken paragraphAt_ne_widget
      · cases taken

/-- A block that is evaluated to a widget is made from the tag that it was read at. -/
theorem exists_tag_of_widgetAt {r : Region} {l : Line} {ls : List Line} {inner : Block.Inner} {b : Block}
    {stop : Nat} (taken : Block.widgetAt inner r l ls = .ok (b, stop)) {name : String}
    {props : Props} {children : List Node} {span : Span}
    (made : Evaluation.block formats caps b = .ok (.widget name props children span)) :
    ∃ tag, Block.tagAt l ls = .ok tag ∧ ∃ place : WidgetProp → Span,
      Evaluation.addProps formats tag.name [] (tag.props.map fun p => { p with span := place p }) =
        .ok props := by
  obtain ⟨t, closed, body, rfl, given⟩ := Evaluation.exists_of_block_eq_widget made
  obtain ⟨tag, tag_eq, rfl⟩ := Block.exists_tagAt_of_widgetAt taken
  exact ⟨tag, tag_eq, fun p => r.span p.span.start p.span.stop, Evaluation.addProps_of_tag given⟩

/-- **The props of a tree's only widget are those of the tag that the text starts with.** -/
theorem exists_of_compile_eq_widget {l : Line} {ls : List Line} (split : Line.split (strip s) = l :: ls)
    (widget : isWidgetStart l.text = true) {name : String} {props : Props} {children : List Node}
    {span : Span} {metadata : Option Metadata}
    (compiled : compile formats caps s =
      .tree { nodes := [.widget name props children span], metadata }) :
    ∃ tag, Block.tagAt l ls = .ok tag ∧ ∃ place : WidgetProp → Span,
      Evaluation.addProps formats tag.name [] (tag.props.map fun p => { p with span := place p }) =
        .ok props := by
  unfold compile at compiled
  dsimp only at compiled
  split at compiled
  · cases compiled
  · cases compiled
  rename_i d read
  split at compiled
  · cases compiled
  rename_i t evaluated
  obtain ⟨b, stop, bs, taken, blocks⟩ := Document.exists_blockAt_of_widget split widget read
  rw [Block.blockAt_eq, Block.opening_of_isWidgetStart widget] at taken
  have made : Evaluation.blocks formats caps (b :: bs) =
      .ok [.widget name props children span] := by
    rw [Document.evaluate, blocks] at evaluated
    dsimp only [bind, Except.bind] at evaluated
    split at evaluated
    · cases evaluated
    · next made =>
      cases evaluated
      cases compiled
      exact made
  exact exists_tag_of_widgetAt taken (Evaluation.block_of_blocks_cons made)

/-- Where a text starts with a tag whose first prop is quoted, the quoted string is the prop. -/
theorem exists_quoted_of_compile {t : Text} (named : IsTagName name) (propNamed : OpenTag.IsPropName prop)
    (text : strip s = OpenTag.propLead name prop ++ '"' :: t) {widget : String} {props : Props}
    {children : List Node} {span : Span} {metadata : Option Metadata}
    (compiled : compile formats caps s =
      .tree { nodes := [.widget widget props children span], metadata }) :
    ∃ v, TagToken.quotedRest? '"' t = some v ∧
      Fields.get? (String.ofList prop) props =
        some (.string (String.ofList (TagToken.unquote ('"' :: v)))) := by
  obtain ⟨l, ls, split, start, flush, begins⟩ :
      ∃ l ls, Line.split (strip s) = l :: ls ∧ l.start = 0 ∧ indentation l.text = 0 ∧
        isWidgetStart l.text = true := by
    obtain ⟨starts, -⟩ := named
    cases name with
    | nil => cases starts
    | cons c w =>
      rw [text]
      exact exists_split_of_isUpper starts _
  obtain ⟨tag, tag_eq, place, added⟩ := exists_of_compile_eq_widget split begins compiled
  obtain ⟨from_, read⟩ := OpenTag.read_propLead 0 named propNamed ('"' :: t)
  rw [Block.tagAt_of_split split start flush, text, read] at tag_eq
  obtain ⟨v, prop_span, quoted, props_eq⟩ := OpenTag.exists_quoted_of_readFrom tag_eq
  obtain ⟨more, props_eq⟩ := props_eq
  refine ⟨v, quoted, ?_⟩
  rw [← props_eq, List.reverse_singleton, List.singleton_append, List.map_cons,
    Evaluation.addProps] at added
  exact Evaluation.get?_of_addProps added (by rw [Fields.get?_insert, if_pos rfl])

end Folio
