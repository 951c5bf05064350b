import Folio.Proofs.Markup.ContainerSpans
import Folio.Proofs.Markup.Strip

/-!
# Spans of parsed documents

The spans of a document that is read from a source lie in the source, children in their parents and
siblings one after another, and an error is found at the text that it is about. Main statements:

* `innerNesting` and `Block.parse_root`: the blocks of a document, and the levels inside them;
* `Document.parse_outcome`: for any source, the document or the error;
* `Document.spans_lie`: the spans of a document; they are exact when all characters of the source
  are of one byte, and else a block's span runs past the end of the block by what its last
  character takes beyond its first byte.
-/

namespace Folio

/-- The levels to which containers may be nested in a block of a document. -/
def innerNesting : Nat := maxNesting - 1

theorem maxNesting_eq : maxNesting = innerNesting + 1 := rfl

/-- The blocks of a document are read one level above what is inside them. -/
theorem Block.parse_root (skip : List Declaration) (source : Text) :
    parse maxNesting skip (Region.root source) =
      blocksFrom (parse innerNesting []) (Region.root source) skip 0 (Line.split source) := by
  rw [maxNesting_eq, parse, Region.lines, Region.text_root]

/-- A span covers a part of a source and nothing more. -/
def Span.IsExact (source : Text) (s : Span) (stop : Nat) : Prop :=
  source.IsCut s.start s.stop ∧ s.stop = stop

/-- The spans of a document lie in a source. -/
structure Document.Lies (source : Text) (covers : Span → Nat → Prop) (d : Document) : Prop where
  metadata : ∀ m ∈ d.metadata, source.IsCut m.span.start m.span.stop
  imports : ∀ i ∈ d.imports, source.IsCut i.span.start i.span.stop
  blocks : Block.AllLie source covers 0 (Text.bytes source) d.blocks

namespace Declaration

variable {source : Text} {d : Declaration}

theorem isCut_of_mem_scan (mem : d ∈ scan source) : source.IsCut d.span.start d.span.stop := by
  obtain ⟨first, last, spans⟩ := exists_lines mem
  rw [spans.span]
  exact ⟨Nat.le_trans spans.le last.le_stop, (Line.holds spans.first_mem).isBoundary,
    (Line.holds spans.last_mem).isBoundary_stop⟩

theorem isVisible_of_mem_scan (mem : d ∈ scan source) : source.IsVisible d.span.start := by
  obtain ⟨first, last, spans⟩ := exists_lines mem
  rw [spans.span]
  exact Line.isVisible spans.first_mem spans.filled (Text.isBoundary_zero _)

end Declaration

/-- Reading a document halts at the blocks, or at metadata that cannot be read. -/
def Halt.Fails (source : Text) (h : Halt) : Prop :=
  h.Points source ∨ ∃ pos message, h = .mistake { pos, fault := .invalidMetadata message } ∧
    source.IsVisible pos ∧ Declaration.scan source ≠ []

namespace Document

theorem metadataOf_outcome (formats : Formats) (source : Text) :
    Outcome (Halt.Fails source) (fun m => ∀ m' ∈ m, source.IsCut m'.span.start m'.span.stop)
      (metadataOf formats source (Declaration.scan source)) := by
  unfold metadataOf
  split
  · nofun
  · rename_i d found
    have mem : d ∈ Declaration.scan source := List.mem_of_find?_eq_some found
    have fails : ∀ message, Halt.Fails source
        (.mistake { pos := d.span.start, fault := .invalidMetadata message }) :=
      fun message => .inr ⟨_, message, rfl, Declaration.isVisible_of_mem_scan mem,
        List.ne_nil_of_mem mem⟩
    have cut : source.IsCut d.span.start d.span.stop := Declaration.isCut_of_mem_scan mem
    unfold Metadata.read
    dsimp only
    split <;> rename_i read
    · split at read
      · cases read
      · cases read
        rintro m' ⟨⟩
        exact cut
      · cases read
        rintro m' ⟨⟩
        exact cut
      · cases read
    · split at read
      · cases read
        exact fails _
      · cases read
      · cases read
      · cases read
        exact fails _

/-- A source is read to a document whose spans lie in it, or an error in it is found. -/
theorem parse_outcome (formats : Formats) (source : Text) :
    Outcome (Halt.Fails source) (Document.Lies source (Span.Reaches source))
      (Document.parse formats source) := by
  unfold Document.parse
  refine (metadataOf_outcome formats source).bind fun metadata metadata_cut => ?_
  have root := Region.faithful_root source
  have stop : (Region.root source).stop ≤ Text.bytes source := Nat.le_refl _
  have blocks : Outcome (Halt.Points source)
      (Block.AllLie source (Span.Reaches source) 0 (Text.bytes source))
      (Block.parse maxNesting (Declaration.scan source) (Region.root source)) :=
    Block.parse_outcome root (Nat.zero_le _) stop
  refine (blocks.mono (fun _ points => .inl points) fun _ lie => lie).bind fun _ blocks_lie => ?_
  refine ⟨metadata_cut, ?_, blocks_lie⟩
  rintro _ mem
  obtain ⟨d, d_mem, rfl⟩ := List.mem_map.1 mem
  exact Declaration.isCut_of_mem_scan (List.mem_filter.1 d_mem).1

/-- The spans of a document lie in its source, each in the span of its container and after the
spans before it. The end of a block's span is right when the block ends with a character of one
byte. -/
theorem spans_lie (formats : Formats) {source : Text} {d : Document}
    (read : Document.parse formats source = .ok d) :
    d.Lies source (Span.Reaches source) ∧
      ((∀ c ∈ source, c.utf8Size = 1) → d.Lies source (Span.IsExact source)) := by
  have lies : d.Lies source (Span.Reaches source) := by
    have outcome := parse_outcome formats source
    rwa [read] at outcome
  refine ⟨lies, fun small => ⟨lies.metadata, lies.imports, ?_⟩⟩
  exact Block.AllLie.mono (fun _ _ reaches => reaches.isCut small) d.blocks lies.blocks

/-- A heading that ends with a character of one byte. -/
theorem spans_lie_heading :
    let formats : Formats := { json := fun _ => .ok .null, yaml := fun _ => .ok .null }
    let d : Document := ⟨none, [], [.heading 1 [.text "a"] ⟨0, 3⟩]⟩
    Document.parse formats ['#', ' ', 'a'] = .ok d ∧ (∀ c ∈ ['#', ' ', 'a'], c.utf8Size = 1) ∧
      d.Lies ['#', ' ', 'a'] (Span.IsExact ['#', ' ', 'a']) := by
  intro formats d
  have read : Document.parse formats ['#', ' ', 'a'] = .ok d := rfl
  have small : ∀ c ∈ ['#', ' ', 'a'], c.utf8Size = 1 := by
    intro c mem
    simp only [List.mem_cons, List.not_mem_nil, or_false] at mem
    rcases mem with rfl | rfl | rfl <;> rfl
  exact ⟨read, small, (spans_lie formats read).2 small⟩

/-- The span of a heading that ends with a character of two bytes runs past the end of the
source. -/
theorem parse_heading_past_end :
    let formats : Formats := { json := fun _ => .ok .null, yaml := fun _ => .ok .null }
    Document.parse formats ['#', ' ', 'é'] = .ok ⟨none, [], [.heading 1 [.text "é"] ⟨0, 5⟩]⟩ ∧
      Text.bytes ['#', ' ', 'é'] = 4 :=
  ⟨rfl, rfl⟩

end Document
end Folio
