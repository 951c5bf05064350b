import Folio.Proofs.Markup.Prose
import Folio.Proofs.Markup.Restrip
import Folio.Render.Compilation

/-!
# Prose compiles

Blocks without widgets and expressions are evaluated with any capabilities, and in prose nothing is
left to be declared once it is stripped. Main statements:

* `Evaluation.blocks_of_isPlain`: plain blocks are evaluated;
* `Text.IsProse.scan_strip`: stripped prose declares nothing;
* `compile_of_prose`: prose compiles, unless it is nested too deeply.
-/

namespace Folio

/-! ### Evaluation -/

namespace Evaluation

variable {formats : Formats} {caps : CapabilitySet}

/-- An evaluation succeeds. -/
abbrev Succeeds {α : Type} (x : Except EvalError α) : Prop :=
  Outcome (fun _ => False) (fun _ => True) x

mutual

theorem inline_of_isPlain : (i : Inline) → i.IsPlain → Succeeds (inline formats caps i)
  | .text _, _ => trivial
  | .strong children, plain => (inlines_of_isPlain children plain).bind fun _ _ => trivial
  | .emphasis children, plain => (inlines_of_isPlain children plain).bind fun _ _ => trivial
  | .strikethrough children, plain => (inlines_of_isPlain children plain).bind fun _ _ => trivial
  | .code _, _ => trivial
  | .link _ children, plain => (inlines_of_isPlain children plain).bind fun _ _ => trivial
  | .image _ _, _ => trivial
  | .softBreak, _ => trivial
  | .lineBreak, _ => trivial

theorem inlines_of_isPlain : (is : List Inline) → Inline.AllPlain is →
    Succeeds (inlines formats caps is)
  | [], _ => trivial
  | i :: is, ⟨first, rest⟩ =>
    (inline_of_isPlain i first).bind fun _ _ => (inlines_of_isPlain is rest).bind fun _ _ => trivial

end

mutual

theorem block_of_isPlain : (b : Block) → b.IsPlain → Succeeds (block formats caps b)
  | .heading _ children _, plain => (inlines_of_isPlain children plain).bind fun _ _ => trivial
  | .paragraph children _, plain => (inlines_of_isPlain children plain).bind fun _ _ => trivial
  | .quote children _, plain => (blocks_of_isPlain children plain).bind fun _ _ => trivial
  | .list _ _ tight items _, plain =>
    (listItems_of_isPlain tight items plain).bind fun _ _ => trivial
  | .code _ _ _, _ => trivial
  | .thematicBreak _, _ => trivial

/-- Blocks without widgets and expressions are evaluated. -/
theorem blocks_of_isPlain : (bs : List Block) → Block.AllPlain bs →
    Succeeds (blocks formats caps bs)
  | [], _ => trivial
  | b :: bs, ⟨first, rest⟩ =>
    (block_of_isPlain b first).bind fun _ _ => (blocks_of_isPlain bs rest).bind fun _ _ => trivial

theorem itemBlocks_of_isPlain (tight : Bool) : (bs : List Block) → Block.AllPlain bs →
    Succeeds (itemBlocks formats caps tight bs)
  | [], _ => trivial
  | b :: bs, ⟨first, rest⟩ => by
    rw [itemBlocks_cons]
    refine (block_of_isPlain b first).bind fun _ _ => ?_
    exact (itemBlocks_of_isPlain tight bs rest).bind fun _ _ => trivial

theorem listItem_of_isPlain (tight : Bool) : (i : ListItem) → i.IsPlain →
    Succeeds (listItem formats caps tight i)
  | .mk children _, plain => (itemBlocks_of_isPlain tight children plain).bind fun _ _ => trivial

theorem listItems_of_isPlain (tight : Bool) : (is : List ListItem) → ListItem.AllPlain is →
    Succeeds (listItems formats caps tight is)
  | [], _ => trivial
  | i :: is, ⟨first, rest⟩ =>
    (listItem_of_isPlain tight i first).bind fun _ _ =>
      (listItems_of_isPlain tight is rest).bind fun _ _ => trivial

end

end Evaluation

/-! ### Declarations -/

open Declaration (scan)

namespace Text.IsProse

variable {s : Text}

/-- An exported constant needs a brace. -/
theorem exportsFirst_eq_false (prose : IsProse s) {ls : List Line} (suffix : ls <:+ Line.split s) :
    Declaration.exportsFirst ls = false := by
  induction ls with
  | nil => rfl
  | cons l ls ih =>
    have within : Line.join (l :: ls) <:+: s := by
      obtain ⟨before, lines⟩ := suffix
      exact ⟨Line.join before, [], by rw [List.append_nil, ← Line.eq_join_append lines.symm]⟩
    have no_brace : '{' ∉ Line.join (l :: ls) :=
      (prose.of_infix within).not_mem (by simp [markup])
    have all : (Line.join (l :: ls)).takeWhile (· != '{') = Line.join (l :: ls) := by
      refine List.takeWhile_eq_self_iff.2 fun c mem => ?_
      rw [bne_iff_ne]
      rintro rfl
      exact no_brace mem
    have none_found : Declaration.exportEnd? (l :: ls) = none := by
      simp [Declaration.exportEnd?, all]
    rw [Declaration.exportsFirst, none_found, ih ((List.suffix_cons l ls).trans suffix)]
    simp

/-- Stripped prose declares nothing. -/
theorem scan_strip (prose : IsProse s) : scan (Folio.strip s) = [] := by
  have keeps : Declaration.KeepsWidgets s := by
    intro l ls suffix widget
    have mem : l ∈ Line.split s := suffix.subset List.mem_cons_self
    exact absurd ((Line.holds mem).mem (mem_of_isWidgetStart widget))
      (prose.not_mem (by simp [markup]))
  rw [Declaration.scan_strip_eq_nil_iff keeps]
  exact prose.strip.exportsFirst_eq_false (List.suffix_refl _)

end Text.IsProse

/-! ### Compilation -/

/-- Prose compiles with any capabilities, or it is nested too deeply. -/
theorem compile_of_prose (formats : Formats) (caps : CapabilitySet) {source : Text}
    (prose : source.IsProse) :
    (∃ t, compile formats caps source = .tree t) ∨
      ∃ pos, compile formats caps source =
        .failed (Failure.ofSyntax source { pos, fault := .invalid "blocks are nested too deeply" }) := by
  have stripped : (Region.root (strip source)).text.IsProse := by
    rw [Region.text_root]
    exact prose.strip
  have outcome := Block.parse_of_prose maxNesting [] stripped
  unfold compile
  rw [Document.parse_of_scan_eq_nil prose.scan_strip]
  cases read : Block.parse maxNesting [] (Region.root (strip source)) with
  | error h =>
    rw [read] at outcome
    obtain ⟨pos, rfl⟩ := outcome
    exact .inr ⟨pos, rfl⟩
  | ok blocks =>
    rw [read] at outcome
    have evaluated : Evaluation.Succeeds (Document.evaluate formats caps
        { metadata := none, imports := [], blocks }) :=
      (Evaluation.blocks_of_isPlain blocks outcome).bind fun _ _ => trivial
    dsimp only [Except.map]
    split
    · rename_i failed
      rw [failed] at evaluated
      exact evaluated.elim
    · exact .inl ⟨_, rfl⟩

/-- Marks that match nothing, in a quote and after it. -/
theorem compile_of_prose_unmatched :
    let formats : Formats := { json := fun _ => .error "", yaml := fun _ => .error "" }
    let source : Text := ['>', ' ', '*', '*', 'a', '_', ' ', '[', 'b', '\n', '!', '[', '\x60', '\x60']
    source.IsProse ∧
      ((∃ t, compile formats .empty source = .tree t) ∨
        ∃ pos, compile formats .empty source = .failed (Failure.ofSyntax source
          { pos, fault := .invalid "blocks are nested too deeply" })) := by
  intro formats source
  have prose : source.IsProse := by decide
  exact ⟨prose, compile_of_prose formats .empty prose⟩

end Folio
