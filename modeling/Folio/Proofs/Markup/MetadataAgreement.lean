import Folio.Proofs.Markup.DocumentSpans
import Folio.Proofs.Markup.Layout

/-!
# The metadata of a document and of its text

A document is read by going through all declarations of its text: each metadata takes the place of
what has been read before. Metadata can be read on its own as well, and then the first one counts.
Both come to the same because at most one declaration is metadata.

* `Document.collect`: what the declarations say, read in turn;
* `Document.parse_eq_collect` and `Metadata.extract_eq_collect`: both readings are made of it;
* `Metadata.extract_agrees`: the metadata and the errors are the same.
-/

namespace Folio

variable {formats : Formats} {source : Text} {d : Declaration} {ds : List Declaration}
  {metadata : Option Metadata} {imports : List Import}

namespace Document

/-- Reads declarations in turn: metadata takes the place of what has been read before, and imports
come after those before. -/
def collect (formats : Formats) (source : Text) :
    Option Metadata → List Import → List Declaration →
      Except SyntaxError (Option Metadata × List Import)
  | metadata, imports, [] => .ok (metadata, imports)
  | metadata, imports, d :: ds =>
    match d.kind with
    | .importStatement => collect formats source metadata (imports ++ [importOf source d]) ds
    | .frontMatter | .exportedMetadata =>
      match Metadata.read formats source d with
      | .error e => .error e
      | .ok m => collect formats source (some m) imports ds

/-- The imports among some declarations. -/
def importsOf (source : Text) (ds : List Declaration) : List Import :=
  (ds.filter (·.kind == .importStatement)).map (importOf source)

theorem collect_import (kind : d.kind = .importStatement) :
    collect formats source metadata imports (d :: ds) =
      collect formats source metadata (imports ++ [importOf source d]) ds := by
  rw [collect, kind]

theorem collect_metadata (kind : d.kind ≠ .importStatement) :
    collect formats source metadata imports (d :: ds) =
      match Metadata.read formats source d with
      | .error e => .error e
      | .ok m => collect formats source (some m) imports ds := by
  rw [collect]
  split
  · contradiction
  · rfl
  · rfl

theorem importsOf_import (kind : d.kind = .importStatement) :
    imports ++ importsOf source (d :: ds) = imports ++ [importOf source d] ++ importsOf source ds := by
  simp [importsOf, kind]

theorem importsOf_metadata (kind : d.kind ≠ .importStatement) :
    importsOf source (d :: ds) = importsOf source ds := by
  rw [importsOf, List.filter_cons_of_neg (by simpa using kind), importsOf]

/-- Imports leave the metadata as it is. -/
theorem collect_of_imports (bare : ds.filter Metadata.isDeclaredBy = []) :
    collect formats source metadata imports ds = .ok (metadata, imports ++ importsOf source ds) := by
  induction ds generalizing imports with
  | nil => simp [collect, importsOf]
  | cons d ds ih =>
    rw [List.filter_eq_nil_iff, List.forall_mem_cons, ← List.filter_eq_nil_iff] at bare
    have kind : d.kind = .importStatement := by simpa [Metadata.isDeclaredBy] using bare.1
    rw [collect_import kind, ih bare.2, importsOf_import kind]

/-- Of declarations with at most one metadata, the metadata is the first one that there is. -/
theorem collect_eq (one : (ds.filter Metadata.isDeclaredBy).length ≤ 1) :
    collect formats source none imports ds =
      match ds.find? Metadata.isDeclaredBy with
      | none => .ok (none, imports ++ importsOf source ds)
      | some d => (Metadata.read formats source d).map
          fun m => (some m, imports ++ importsOf source ds) := by
  induction ds generalizing imports with
  | nil => simp [collect, importsOf]
  | cons d ds ih =>
    by_cases kind : d.kind = .importStatement
    · have other : ¬Metadata.isDeclaredBy d = true := by simp [Metadata.isDeclaredBy, kind]
      rw [List.filter_cons_of_neg other] at one
      rw [collect_import kind, ih one, importsOf_import kind, List.find?_cons_of_neg other]
    · have declares : Metadata.isDeclaredBy d = true := by simpa [Metadata.isDeclaredBy] using kind
      rw [List.filter_cons_of_pos declares, List.length_cons] at one
      have bare : ds.filter Metadata.isDeclaredBy = [] :=
        List.eq_nil_of_length_eq_zero (Nat.le_zero.1 (Nat.le_of_succ_le_succ one))
      rw [collect_metadata kind, List.find?_cons_of_pos declares, importsOf_metadata kind]
      dsimp only
      cases Metadata.read formats source d with
      | error e => rfl
      | ok m => exact collect_of_imports bare

/-- A document is read by reading its declarations in turn, and then its blocks. -/
theorem parse_eq_collect (formats : Formats) (source : Text) :
    parse formats source =
      match collect formats source none [] (Declaration.scan source) with
      | .error e => .error (.mistake e)
      | .ok (metadata, imports) =>
        (Block.parse maxNesting (Declaration.scan source) (Region.root source)).map fun blocks =>
          { metadata, imports, blocks } := by
  rw [collect_eq (Declaration.length_metadata_scan source), parse, metadataOf]
  cases (Declaration.scan source).find? Metadata.isDeclaredBy with
  | none => cases Block.parse maxNesting (Declaration.scan source) (Region.root source) <;> rfl
  | some d =>
    dsimp only
    cases Metadata.read formats source d with
    | error e => rfl
    | ok m => cases Block.parse maxNesting (Declaration.scan source) (Region.root source) <;> rfl

/-- Only metadata that cannot be read is invalid metadata. -/
theorem blocks_ne_invalidMetadata {e : SyntaxError}
    (halted : Block.parse maxNesting (Declaration.scan source) (Region.root source) =
      .error (.mistake e)) (message : String) : e.fault ≠ .invalidMetadata message := by
  have stop : (Region.root source).stop ≤ Text.bytes source := Nat.le_refl _
  have outcome : Outcome (Halt.Points source)
      (Block.AllLie source (Span.Reaches source) 0 (Text.bytes source))
      (Block.parse maxNesting (Declaration.scan source) (Region.root source)) :=
    Block.parse_outcome (Region.faithful_root source) (Nat.zero_le _) stop
  rw [halted] at outcome
  intro fault
  obtain ⟨w, marks, -⟩ := outcome.marks
  rw [fault] at marks
  exact marks

end Document

namespace Metadata

/-- Metadata is read on its own as it is read with the other declarations. -/
theorem extract_eq_collect (formats : Formats) (source : Text) :
    extract formats source =
      (Document.collect formats source none [] (Declaration.scan source)).map Prod.fst := by
  rw [Document.collect_eq (Declaration.length_metadata_scan source), extract]
  cases (Declaration.scan source).find? isDeclaredBy with
  | none => rfl
  | some d =>
    dsimp only
    cases read formats source d <;> rfl

/-- Metadata that cannot be read is reported as such. -/
theorem exists_of_read_eq_error {e : SyntaxError} (failed : read formats source d = .error e) :
    ∃ message, e.fault = .invalidMetadata message := by
  unfold read at failed
  dsimp only at failed
  split at failed <;> cases failed <;> exact ⟨_, rfl⟩

theorem exists_of_extract_eq_error {e : SyntaxError} (failed : extract formats source = .error e) :
    ∃ message, e.fault = .invalidMetadata message := by
  unfold extract at failed
  split at failed
  · cases failed
  · next d found =>
    cases read_eq : read formats source d with
    | ok m =>
      rw [read_eq] at failed
      cases failed
    | error e' =>
      rw [read_eq] at failed
      cases failed
      exact exists_of_read_eq_error read_eq

/-- **Metadata is read in the same way on its own and with its document.** At most one declaration is
metadata; it cannot be read on its own just if the document cannot be read for this reason, and the
error is the same; and the metadata of a document that is read, where later metadata would take the
place of earlier, is the metadata of its text. -/
theorem extract_agrees (formats : Formats) (source : Text) :
    ((Declaration.scan source).filter isDeclaredBy).length ≤ 1 ∧
      (∀ e, extract formats source = .error e ↔
        Document.parse formats source = .error (.mistake e) ∧
          ∃ message, e.fault = .invalidMetadata message) ∧
      (∀ d, Document.parse formats source = .ok d →
        extract formats source = .ok d.metadata ∧
          Document.collect formats source none [] (Declaration.scan source) =
            .ok (d.metadata, d.imports)) := by
  refine ⟨Declaration.length_metadata_scan source, ?_⟩
  have own := extract_eq_collect formats source
  have whole := Document.parse_eq_collect formats source
  cases collected : Document.collect formats source none [] (Declaration.scan source) with
  | error e =>
    rw [collected] at own whole
    dsimp only [Except.map] at own whole
    rw [own, whole]
    refine ⟨fun e' => ⟨?_, ?_⟩, nofun⟩
    · rintro ⟨⟩
      exact ⟨rfl, exists_of_extract_eq_error own⟩
    · rintro ⟨same, -⟩
      cases same
      rfl
  | ok p =>
    rw [collected] at own whole
    dsimp only [Except.map] at own whole
    rw [own, whole]
    cases blocks : Block.parse maxNesting (Declaration.scan source) (Region.root source) with
    | error h =>
      refine ⟨fun e => ⟨nofun, ?_⟩, nofun⟩
      rintro ⟨same, message, fault⟩
      cases same
      exact absurd fault (Document.blocks_ne_invalidMetadata blocks message)
    | ok bs =>
      refine ⟨fun e => ⟨nofun, fun halted => nomatch halted.1⟩, ?_⟩
      rintro d ⟨⟩
      exact ⟨rfl, rfl⟩

/-- Front matter with fields, and front matter that cannot be read. -/
theorem extract_agrees_frontMatter :
    let formats : Formats :=
      { json := fun _ => .ok .null
        yaml := fun s => if s.contains ':' then .ok (.object [("a", .bool true)]) else .error "no fields" }
    let m : Metadata := { format := .frontMatter, fields := [("a", .bool true)], span := ⟨0, 12⟩ }
    extract formats "---\na: 1\n---\n# b\n".toList = .ok (some m) ∧
      Document.parse formats "---\na\n---\n# b\n".toList =
        .error (.mistake ⟨0, .invalidMetadata "no fields"⟩) := by
  intro formats m
  have whole : Document.parse formats "---\na: 1\n---\n# b\n".toList =
      .ok ⟨some m, [], [.heading 1 [.text "b"] ⟨13, 16⟩]⟩ := rfl
  have own : extract formats "---\na\n---\n# b\n".toList =
      .error ⟨0, .invalidMetadata "no fields"⟩ := rfl
  exact ⟨((extract_agrees formats _).2.2 _ whole).1, (((extract_agrees formats _).2.1 _).1 own).1⟩

end Metadata

end Folio
