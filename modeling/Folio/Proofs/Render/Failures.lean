import Folio.Proofs.Markup.Restrip
import Folio.Render.Compilation

/-!
# Where compilation fails

A document is read from the stripped text, and its failures are located in the source. Both have
the same text wherever an error is found, so the location of a failure is exact. Main statements:

* `Evaluation.blocks_outcome`: an error of evaluation is at the start of the construct that it is
  about;
* `located_of_compile_eq_failed`: the location of a failure, and the text of the source there;
* `restrip_of_keepsWidgets`: in stripped text there is nothing to strip, so that metadata does not
  fail a compilation, unless an exported constant comes first.
-/

namespace Folio

/-- An error of evaluation is at a visible offset, and an unknown widget at its tag. -/
structure EvalError.Points (s : Text) (e : EvalError) : Prop where
  isVisible : s.IsVisible e.span.start
  unknown : ∀ name, e.fault = .unknownCapability name →
    s.Holds e.span.start ('<' :: name.toList) ∧ '\n' ∉ name.toList

namespace Evaluation

variable {formats : Formats} {caps : CapabilitySet} {s : Text} {lo hi : Nat}

/-- A fault of a construct that has a span. -/
theorem points_of_isPart {span : Span} {fault : EvalFault} (part : span.IsPart s lo hi)
    (known : ∀ name, fault ≠ .unknownCapability name) : EvalError.Points s { span, fault } :=
  ⟨part.visible, fun name eq => absurd eq (known name)⟩

theorem expression_outcome {source : String} {span : Span} (part : span.IsPart s lo hi) :
    Outcome (EvalError.Points s) (fun _ => True) (expression formats source span) := by
  unfold expression
  split
  · trivial
  · exact points_of_isPart part nofun

theorem propValue_outcome {p : WidgetProp} (part : p.span.IsPart s lo hi) :
    Outcome (EvalError.Points s) (fun _ => True) (propValue formats p) := by
  unfold propValue
  split
  · trivial
  · exact expression_outcome part
  · trivial

theorem addProps_outcome {name : String} {props : Props} {ps : List WidgetProp}
    (parts : ∀ p ∈ ps, p.span.IsPart s lo hi) :
    Outcome (EvalError.Points s) (fun _ => True) (addProps formats name props ps) := by
  induction ps generalizing props with
  | nil => trivial
  | cons p ps ih =>
    rw [List.forall_mem_cons] at parts
    rw [addProps]
    refine (propValue_outcome parts.1).bind fun value _ => ?_
    split
    · exact points_of_isPart parts.1 nofun
    · exact ih parts.2

theorem tag_outcome {t : WidgetTag} (lies : t.Lies s lo hi) :
    Outcome (EvalError.Points s) (fun _ => True) (tag formats caps t) := by
  unfold tag
  split
  · refine ⟨lies.span.visible, ?_⟩
    rintro name ⟨⟩
    exact ⟨lies.named, lies.name⟩
  · refine (addProps_outcome lies.props).bind fun props _ => ?_
    split
    · trivial
    · exact points_of_isPart lies.span nofun

variable {covers : Span → Nat → Prop}

mutual

theorem inline_outcome {lo hi : Nat} : (i : Inline) → i.Lies s covers lo hi →
    Outcome (EvalError.Points s) (fun _ => True) (inline formats caps i)
  | .text _, _ => trivial
  | .strong children, lies => (inlines_outcome children lies).bind fun _ _ => trivial
  | .emphasis children, lies => (inlines_outcome children lies).bind fun _ _ => trivial
  | .strikethrough children, lies => (inlines_outcome children lies).bind fun _ _ => trivial
  | .code _, _ => trivial
  | .link _ children, lies => (inlines_outcome children lies).bind fun _ _ => trivial
  | .image _ _, _ => trivial
  | .softBreak, _ => trivial
  | .lineBreak, _ => trivial
  | .widget (.mk _ _ children), ⟨tag_lies, inside⟩ =>
    (tag_outcome tag_lies).bind fun _ _ => (blocks_outcome children inside).bind fun _ _ => trivial
  | .expression _ _, lies => (expression_outcome lies).bind fun _ _ => trivial

theorem inlines_outcome {lo hi : Nat} : (is : List Inline) → Inline.AllLie s covers lo hi is →
    Outcome (EvalError.Points s) (fun _ => True) (inlines formats caps is)
  | [], _ => trivial
  | i :: is, ⟨first, rest⟩ =>
    (inline_outcome i first).bind fun _ _ => (inlines_outcome is rest).bind fun _ _ => trivial

theorem block_outcome {lo hi : Nat} : (b : Block) → b.Lies s covers lo hi →
    Outcome (EvalError.Points s) (fun _ => True) (block formats caps b)
  | .heading _ children _, ⟨_, _, _, _, inside⟩ =>
    (inlines_outcome children inside).bind fun _ _ => trivial
  | .paragraph children _, ⟨_, _, _, _, inside⟩ =>
    (inlines_outcome children inside).bind fun _ _ => trivial
  | .quote children _, ⟨_, _, _, _, inside⟩ =>
    (blocks_outcome children inside).bind fun _ _ => trivial
  | .list _ _ tight items _, ⟨_, _, _, _, inside⟩ =>
    (listItems_outcome tight items inside).bind fun _ _ => trivial
  | .code _ _ _, _ => trivial
  | .thematicBreak _, _ => trivial
  | .widget _ _ children, ⟨tag_lies, inside⟩ =>
    (tag_outcome tag_lies).bind fun _ _ => (blocks_outcome children inside).bind fun _ _ => trivial

theorem blocks_outcome {lo hi : Nat} : (bs : List Block) → Block.AllLie s covers lo hi bs →
    Outcome (EvalError.Points s) (fun _ => True) (blocks formats caps bs)
  | [], _ => trivial
  | b :: bs, ⟨_, first, rest⟩ =>
    (block_outcome b first).bind fun _ _ => (blocks_outcome bs rest).bind fun _ _ => trivial

theorem itemBlocks_outcome {lo hi : Nat} (tight : Bool) : (bs : List Block) →
    Block.AllLie s covers lo hi bs →
    Outcome (EvalError.Points s) (fun _ => True) (itemBlocks formats caps tight bs)
  | [], _ => trivial
  | b :: bs, ⟨_, first, rest⟩ => by
    rw [itemBlocks_cons]
    refine (block_outcome b first).bind fun _ _ => ?_
    exact (itemBlocks_outcome tight bs rest).bind fun _ _ => trivial

theorem listItem_outcome {lo hi : Nat} (tight : Bool) : (i : ListItem) →
    i.Lies s covers lo hi →
    Outcome (EvalError.Points s) (fun _ => True) (listItem formats caps tight i)
  | .mk children _, ⟨_, _, _, _, inside⟩ =>
    (itemBlocks_outcome tight children inside).bind fun _ _ => trivial

theorem listItems_outcome {lo hi : Nat} (tight : Bool) : (is : List ListItem) →
    ListItem.AllLie s covers lo hi is →
    Outcome (EvalError.Points s) (fun _ => True) (listItems formats caps tight is)
  | [], _ => trivial
  | i :: is, ⟨_, first, rest⟩ =>
    (listItem_outcome tight i first).bind fun _ _ =>
      (listItems_outcome tight is rest).bind fun _ _ => trivial

end

end Evaluation

/-- A document whose spans lie in a text is evaluated, or an error in the text is found. -/
theorem Document.evaluate_outcome (formats : Formats) (caps : CapabilitySet) {s : Text}
    {covers : Span → Nat → Prop} {d : Document} (lies : d.Lies s covers) :
    Outcome (EvalError.Points s) (fun _ => True) (d.evaluate formats caps) :=
  (Evaluation.blocks_outcome d.blocks lies.blocks).bind fun _ _ => trivial

/-- An error that points into the stripped text points into the source. -/
theorem EvalError.Points.of_strip {source : Text} {e : EvalError} (h : e.Points (strip source)) :
    e.Points source where
  isVisible := isVisible_of_strip h.isVisible
  unknown := by
    intro name fault
    obtain ⟨held, eol⟩ := h.unknown name fault
    have eol' : '\n' ∉ '<' :: name.toList := by simpa using eol
    exact ⟨holds_of_strip held eol' ⟨'<', List.mem_cons_self, rfl⟩, eol⟩

/-! ### Failures -/

/-- A boundary is located as it is. -/
theorem Location.offset_ofOffset {source : Text} {n : Nat} (visible : source.IsVisible n) :
    (Location.ofOffset source n).offset = n := by
  unfold ofOffset
  exact Text.floor_of_isBoundary visible.isBoundary

/-- The text that an error is about stands where the error is found. -/
structure SyntaxError.Stands (source : Text) (e : SyntaxError) : Prop where
  delimiter : ∀ c, e.fault = .unclosedDelimiter c ∨ e.fault = .unmatchedDelimiter c →
    source.Holds e.pos [c]
  tag : ∀ name, e.fault = .unclosedWidget name → source.Holds e.pos ('<' :: name.toList)
  quote : e.fault = .unterminatedString →
    ∃ c, Expression.isQuote c = true ∧ source.Holds e.pos [c]

theorem SyntaxError.Points.stands {source : Text} {e : SyntaxError} (h : e.Points source) :
    e.Stands source := by
  obtain ⟨w, marks, -, -, held⟩ := h.marks
  refine ⟨?_, ?_, ?_⟩
  · intro c fault
    rcases fault with fault | fault <;> rw [fault] at marks <;> cases marks <;> exact held
  · intro name fault
    rw [fault] at marks
    cases marks
    exact held
  · intro fault
    rw [fault] at marks
    obtain ⟨c, is_quote, rfl⟩ := marks
    exact ⟨c, is_quote, held⟩

/-- An error in the stripped text is found at a place in the source where its text stands. -/
theorem Halt.Fails.of_strip {source : Text} {e : SyntaxError}
    (h : Halt.Fails (strip source) (.mistake e)) : source.IsVisible e.pos ∧ e.Stands source := by
  rcases h with points | ⟨pos, message, eq, visible, -⟩
  · have points : e.Points source := SyntaxError.Points.of_strip points
    exact ⟨points.isVisible, points.stands⟩
  · cases eq
    exact ⟨isVisible_of_strip visible, nofun, nofun, nofun⟩

/-- A failure has a location, which is a boundary of the source. If a delimiter, a tag or a string
is not closed, it stands there; if a widget is unknown, its tag does. -/
theorem located_of_compile_eq_failed (formats : Formats) (caps : CapabilitySet) {source : Text}
    {f : Failure} (failed : compile formats caps source = .failed f) :
    ∃ loc, f.location = some loc ∧ loc.offset ≤ Text.bytes source ∧
      source.isBoundary loc.offset = true ∧
      ((∃ e, Document.parse formats (strip source) = .error (.mistake e) ∧
          f = Failure.ofSyntax source e ∧ loc.offset = e.pos ∧ e.Stands source) ∨
        ∃ d e, Document.parse formats (strip source) = .ok d ∧
          d.evaluate formats caps = .error e ∧ f = Failure.ofEvaluation source e ∧
          loc.offset = e.span.start ∧ ∀ name, e.fault = .unknownCapability name →
            source.Holds loc.offset ('<' :: name.toList)) := by
  have outcome := Document.parse_outcome formats (strip source)
  unfold compile at failed
  dsimp only at failed
  split at failed
  · rename_i e halted
    cases failed
    rw [halted] at outcome
    obtain ⟨visible, stands⟩ := Halt.Fails.of_strip outcome
    have offset := Location.offset_ofOffset visible
    have boundary := visible.isBoundary
    refine ⟨_, rfl, ?_⟩
    rw [SyntaxError.location, offset]
    exact ⟨Text.le_bytes_of_isBoundary boundary, boundary, .inl ⟨e, halted, rfl, rfl, stands⟩⟩
  · cases failed
  · rename_i d read
    rw [read] at outcome
    split at failed
    · rename_i e halted
      cases failed
      have evaluated := Document.evaluate_outcome formats caps outcome
      rw [halted] at evaluated
      have points : e.Points source := EvalError.Points.of_strip evaluated
      have offset := Location.offset_ofOffset points.isVisible
      have boundary := points.isVisible.isBoundary
      refine ⟨_, rfl, ?_⟩
      rw [offset]
      refine ⟨Text.le_bytes_of_isBoundary boundary, boundary, .inr ⟨d, e, read, halted, rfl, rfl, ?_⟩⟩
      intro name fault
      exact (points.unknown name fault).1
    · cases failed

/-- A brace in a quote, after metadata that takes more bytes than characters. -/
theorem located_of_compile_eq_failed_quoted :
    let formats : Formats := { json := fun _ => .ok .null, yaml := fun _ => .ok .null }
    let source : Text := ['-', '-', '-', '\n', 'é', '\n', '-', '-', '-', '\n', '>', ' ', '{']
    let e : SyntaxError := { pos := 13, fault := .unclosedDelimiter '{' }
    compile formats .empty source = .failed (Failure.ofSyntax source e) ∧
      ∃ loc, (Failure.ofSyntax source e).location = some loc ∧
        source.isBoundary loc.offset = true ∧ loc.offset = 13 ∧ source.Holds loc.offset ['{'] := by
  intro formats source e
  have stripped : strip source =
      [' ', ' ', ' ', '\n', ' ', ' ', '\n', ' ', ' ', ' ', '\n', '>', ' ', '{'] := by decide
  have halted : Document.parse formats (strip source) = .error (.mistake e) := by
    rw [stripped]
    rfl
  have failed : compile formats .empty source = .failed (Failure.ofSyntax source e) := by
    rw [compile, halted]
  obtain ⟨loc, located, -, boundary, cause⟩ := located_of_compile_eq_failed formats .empty failed
  rcases cause with ⟨e', halted', -, offset, stands⟩ | ⟨d, -, read, -⟩
  · rw [halted] at halted'
    cases halted'
    refine ⟨failed, loc, located, boundary, offset, ?_⟩
    rw [offset]
    exact stands.delimiter '{' (.inl rfl)
  · rw [halted] at read
    cases read

/-! ### Stripping twice -/

open Declaration (scan)

/-- In stripped text there is nothing to strip, unless an exported constant comes first. Then
stripping changes nothing, the document declares nothing, and compilation does not fail because of
metadata. -/
theorem restrip_of_keepsWidgets (formats : Formats) (caps : CapabilitySet) {source : Text}
    (keeps : Declaration.KeepsWidgets source) :
    (scan (strip source) = [] ↔
      Declaration.exportsFirst (Line.split (strip source)) = false) ∧
    (scan (strip source) = [] →
      strip (strip source) = strip source ∧
      (∀ d, Document.parse formats (strip source) = .ok d → d.metadata = none ∧ d.imports = []) ∧
      (∀ e, Document.parse formats (strip source) = .error (.mistake e) →
        ∀ message, e.fault ≠ .invalidMetadata message) ∧
      ∀ f, compile formats caps source = .failed f →
        (∃ e, f = Failure.ofSyntax source e ∧ ∀ message, e.fault ≠ .invalidMetadata message) ∨
          ∃ e, f = Failure.ofEvaluation source e) := by
  refine ⟨Declaration.scan_strip_eq_nil_iff keeps, fun nothing => ⟨?_, ?_, ?_, ?_⟩⟩
  · rw [strip, nothing]
    exact stripSpans_of_apart nofun
  · intro d read
    rw [Document.parse_of_scan_eq_nil nothing] at read
    cases blocks : Block.parse maxNesting [] (Region.root (strip source)) with
    | error h =>
      rw [blocks] at read
      cases read
    | ok bs =>
      rw [blocks] at read
      cases read
      exact ⟨rfl, rfl⟩
  · exact fun e halted => Document.ne_invalidMetadata nothing halted
  · intro f failed
    unfold compile at failed
    dsimp only at failed
    split at failed
    · rename_i e halted
      cases failed
      exact .inl ⟨e, rfl, Document.ne_invalidMetadata nothing halted⟩
    · cases failed
    · split at failed
      · rename_i e halted
        cases failed
        exact .inr ⟨e, rfl⟩
      · cases failed

/-- An import before a widget. -/
theorem restrip_of_keepsWidgets_import :
    let formats : Formats := { json := fun _ => .ok .null, yaml := fun _ => .ok .null }
    let source : Text := ['i', 'm', 'p', 'o', 'r', 't', ' ', 'a', '\'', '\n', '<', 'A', ' ', '/', '>']
    Declaration.KeepsWidgets source ∧ scan source ≠ [] ∧ scan (strip source) = [] ∧
      ∀ f, compile formats .empty source = .failed f →
        (∃ e, f = Failure.ofSyntax source e ∧ ∀ message, e.fault ≠ .invalidMetadata message) ∨
          ∃ e, f = Failure.ofEvaluation source e := by
  intro formats source
  have keeps : Declaration.KeepsWidgets source := Declaration.keepsWidgets_of_early (by decide)
  obtain ⟨nothing_iff, consequences⟩ := restrip_of_keepsWidgets formats .empty keeps
  have nothing := nothing_iff.2 (by decide)
  exact ⟨keeps, by decide, nothing, (consequences nothing).2.2.2⟩

/-- After front matter, an exported constant is metadata of the stripped text only. -/
theorem scan_strip_exported :
    let source : Text := "---\ntitle: x\n---\nexport const meta = \x7b[\x7d\n".toList
    scan (strip source) ≠ [] := by
  decide

end Folio
