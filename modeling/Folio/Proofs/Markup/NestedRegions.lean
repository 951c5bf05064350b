import Folio.Proofs.Markup.Bodies
import Folio.Proofs.Markup.LeafFaults

/-!
# Regions in regions

A region is refused for its depth when the containers around it have used up the levels there are. Nothing
else counts: neither the blocks that come before it nor the items of the lists that it stands in. Main
statements:

* `Block.allLevels` and `Block.parse_levels`: blocks that are read make no more levels than allowed;
* `Block.Nests` and `Block.parse_eq_tooDeep_iff`: a region is nested too deeply if and only if it leads, from
  container to container, to one that no level is left for.
-/

namespace Folio

/-! ### The levels that blocks make -/

mutual

/-- How many levels of blocks stand in inline content. -/
def Inline.levels : Inline → Nat
  | .text _ => 0
  | .strong children => Inline.allLevels children
  | .emphasis children => Inline.allLevels children
  | .strikethrough children => Inline.allLevels children
  | .code _ => 0
  | .link _ children => Inline.allLevels children
  | .image _ _ => 0
  | .softBreak => 0
  | .lineBreak => 0
  | .widget (.mk _ _ children) => Block.allLevels children
  | .expression _ _ => 0

/-- How many levels of blocks stand in pieces of inline content. -/
def Inline.allLevels : List Inline → Nat
  | [] => 0
  | i :: is => max i.levels (Inline.allLevels is)

/-- How many levels of blocks stand in a block. -/
def Block.levels : Block → Nat
  | .heading _ children _ => Inline.allLevels children
  | .paragraph children _ => Inline.allLevels children
  | .quote children _ => Block.allLevels children
  | .list _ _ _ items _ => ListItem.allLevels items
  | .code _ _ _ => 0
  | .thematicBreak _ => 0
  | .widget _ _ children => Block.allLevels children

/-- How many levels blocks make: none if there are no blocks, else their own and those in them. -/
def Block.allLevels : List Block → Nat
  | [] => 0
  | b :: bs => max (b.levels + 1) (Block.allLevels bs)

/-- How many levels of blocks stand in an item. -/
def ListItem.levels : ListItem → Nat
  | .mk children _ => Block.allLevels children

/-- How many levels of blocks stand in items. -/
def ListItem.allLevels : List ListItem → Nat
  | [] => 0
  | i :: is => max i.levels (ListItem.allLevels is)

end

namespace Inline

theorem allLevels_eq_zero_iff {is : List Inline} : allLevels is = 0 ↔ ∀ i ∈ is, i.levels = 0 := by
  induction is with
  | nil => simp [allLevels]
  | cons i is ih => rw [allLevels, Nat.max_eq_zero_iff, ih, List.forall_mem_cons]

/-- Content has no blocks in it if what stands in it has none. -/
theorem levels_isClosed : IsClosed fun i => i.levels = 0 where
  text _ := rfl
  code _ := rfl
  image _ _ := rfl
  softBreak := rfl
  lineBreak := rfl
  strong _ inside := allLevels_eq_zero_iff.2 inside
  emphasis _ inside := allLevels_eq_zero_iff.2 inside
  strikethrough _ inside := allLevels_eq_zero_iff.2 inside
  link _ _ inside := allLevels_eq_zero_iff.2 inside

/-- The widgets that are read between words have no blocks in them. -/
theorem read_levels (r : Region) :
    Outcome (fun _ => True) (fun content => allLevels content = 0) (read r) := by
  have admits : ∀ t ts, Admits (fun i => i.levels = 0) (fun _ => True) r t ts := fun t ts => {
    expression := fun _ _ _ => rfl
    widget := fun _ _ _ _ => rfl
    fails := fun _ _ _ => trivial
    destination := fun _ => by cases destination r t ts <;> trivial }
  exact (read_outcome_of_admits levels_isClosed fun t ts _ => admits t ts).mono (fun _ _ => trivial)
    fun _ inside => allLevels_eq_zero_iff.2 inside

end Inline

namespace Block

variable {inner : Inner} {r : Region} {l : Line} {ls : List Line} {n : Nat}

theorem inlines_levels (r : Region) :
    Outcome (fun _ => True) (fun content => Inline.allLevels content ≤ n) (inlines r) := by
  have outcome := Inline.read_levels r
  unfold inlines
  split
  · rename_i read
    rw [read] at outcome
    exact Nat.le_trans (Nat.le_of_eq outcome) (Nat.zero_le n)
  · trivial

section Levels

variable (h : ∀ r, Outcome (fun _ => True) (fun bs => allLevels bs ≤ n) (inner r))

theorem paragraphAt_levels :
    Outcome (fun _ => True) (fun taken => taken.1.levels ≤ n) (paragraphAt r l ls) :=
  Outcome.bind_any fun content => (inlines_levels content).bind fun _ le => le

include h

theorem quoted_levels :
    Outcome (fun _ => True) (fun taken => taken.1.levels ≤ n) (quoted inner r l ls) :=
  Outcome.bind_any fun content => (h content).bind fun _ le => le

theorem itemAt_levels (mark : ListMark) :
    Outcome (fun _ => True) (fun read => read.1.levels ≤ n) (itemAt inner r mark l ls) :=
  Outcome.bind_any fun content => (h content).bind fun _ le => le

theorem itemsFrom_levels (ordered : Bool) (stop resume : Nat) :
    Outcome (fun _ => True) (fun items => ListItem.allLevels items.items ≤ n)
      (itemsFrom inner r ordered stop resume ls) := by
  induction ls generalizing stop resume with
  | nil => exact Nat.zero_le n
  | cons l ls ih =>
    rw [itemsFrom]
    split
    · exact ih stop resume
    · split
      · exact Nat.zero_le n
      · exact (itemAt_levels h _).bind fun _ first => (ih _ _).bind fun _ rest =>
          Nat.max_le.2 ⟨first, rest⟩

theorem bodyOf_levels (at_ : Nat) (tag : OpenTag) (s : Text) :
    Outcome (fun _ => True) (fun body => allLevels body.1 ≤ n) (bodyOf inner r at_ tag s) := by
  unfold bodyOf
  split
  · exact Nat.zero_le n
  · split
    · trivial
    · exact Outcome.bind_any fun _ => Outcome.bind_any fun body => (h body).bind fun _ le => le

theorem widgetAt_levels :
    Outcome (fun _ => True) (fun taken => taken.1.levels ≤ n) (widgetAt inner r l ls) := by
  unfold widgetAt
  dsimp only
  split
  · trivial
  · refine (bodyOf_levels h _ _ _).bind fun body le => ?_
    split
    · exact le
    · split
      · exact paragraphAt_levels
      · trivial

theorem blockAt_levels :
    Outcome (fun _ => True) (fun taken => taken.1.levels ≤ n) (blockAt inner r l ls) := by
  rw [blockAt_eq]
  cases opening l.text with
  | fence fence => exact Nat.zero_le n
  | heading mark =>
    exact Outcome.bind_any fun content => (inlines_levels content).bind fun _ le => le
  | thematicBreak => exact Nat.zero_le n
  | quote => exact quoted_levels h
  | list mark => exact (itemsFrom_levels h _ _ _).bind fun _ le => le
  | widget => exact widgetAt_levels h
  | closingTag name => trivial
  | paragraph => exact paragraphAt_levels

theorem blocksFrom_levels (skip : List Declaration) (resume : Nat) :
    Outcome (fun _ => True) (fun bs => allLevels bs ≤ n + 1) (blocksFrom inner r skip resume ls) := by
  induction ls generalizing resume with
  | nil => exact Nat.zero_le _
  | cons l ls ih =>
    rw [blocksFrom]
    split
    · exact ih resume
    · split
      · exact ih _
      · split
        · exact ih resume
        · exact (blockAt_levels h).bind fun _ first => (ih _).bind fun _ rest =>
            Nat.max_le.2 ⟨Nat.succ_le_succ first, rest⟩

end Levels

theorem parse_outcome_levels (n : Nat) (skip : List Declaration) (r : Region) :
    Outcome (fun _ => True) (fun bs => allLevels bs ≤ n) (parse n skip r) := by
  induction n generalizing skip r with
  | zero => trivial
  | succ n ih => exact blocksFrom_levels (ih []) skip 0

/-- **Blocks that are read make no more levels than allowed.** -/
theorem parse_levels {skip : List Declaration} {bs : List Block} (read : parse n skip r = .ok bs) :
    allLevels bs ≤ n := by
  have outcome := parse_outcome_levels n skip r
  rwa [read] at outcome

/-! ### Regions that are nested too deeply -/

/-- A region is refused for its depth. -/
def refusal (r : Region) : Halt :=
  .mistake { pos := r.toSource 0, fault := .invalid "blocks are nested too deeply" }

section Refused

variable {h : Halt} (deep : h.TooDeep)

include deep

theorem not_error_of_flat {α : Type} {x : Except Halt α} (flat : Outcome Halt.Flat (fun _ => True) x) :
    x ≠ .error h := by
  rintro rfl
  exact flat deep

theorem bodyOf_eq_tooDeep_iff (at_ : Nat) {tag : OpenTag} {s : Text}
    (cut : ∀ close, ClosingTag.find? tag.name.toList false tag.stop s = some close →
      Text.IsCut r.text tag.stop close.start) :
    bodyOf inner r at_ tag s = .error h ↔
      ∃ body ∈ ((if tag.selfClosing then none
        else (ClosingTag.find? tag.name.toList false tag.stop s).bind fun close =>
          r.slice? tag.stop close.start).bind fun body => (dedent body).toOption),
        inner body = .error h := by
  unfold bodyOf
  split
  · simp
  · cases closed : ClosingTag.find? tag.name.toList false tag.stop s with
    | none =>
      obtain ⟨pos, rfl⟩ := deep
      simp [mistake]
    | some close =>
      obtain ⟨body, taken⟩ := Option.isSome_iff_exists.1
        (Region.slice?_isSome_iff.2 (cut close closed))
      have refused := not_error_of_flat deep (dedent_flat body)
      cases dedented : dedent body with
      | error e =>
        rw [dedented] at refused
        simpa [slice, taken, dedented, Halt.bind_eq_error_iff, Except.toOption, -bind_pure_comp] using refused
      | ok body =>
        simp [slice, taken, dedented, Halt.bind_eq_error_iff, Except.toOption, -bind_pure_comp]

/-- A widget is refused for the depth exactly if its body, dedented and read, is. -/
theorem widgetAt_eq_tooDeep_iff (suffix : l :: ls <:+ r.lines) :
    widgetAt inner r l ls = .error h ↔
      ∃ body ∈ ((widgetBody? r l ls).bind fun body => (dedent body).toOption),
        inner body = .error h := by
  have opening := OpenTag.read_flat (l.start + indentation l.text)
    ((Line.join (l :: ls)).drop (indentation l.text))
  unfold widgetAt widgetBody?
  dsimp only
  cases opened : OpenTag.read (l.start + indentation l.text)
      ((Line.join (l :: ls)).drop (indentation l.text)) with
  | error e =>
    rw [opened] at opening
    have flat : e.Flat := opening
    have other : ∀ f, Halt.mistake (e.relocate f) ≠ h := by
      rintro f rfl
      exact Halt.flat_mistake (flat.relocate f) deep
    simp [other]
  | ok tag =>
    dsimp only
    rw [← bodyOf_eq_tooDeep_iff deep (l.start + indentation l.text)
      fun close closed => isCut_of_tags suffix opened closed, Halt.bind_eq_error_iff]
    constructor
    · rintro (failed | ⟨⟨children, stop⟩, -, failed⟩)
      · exact failed
      · -- past the body a text is found that is out of place, or a paragraph is read
        dsimp only at failed
        split at failed
        · cases failed
        · split at failed
          · exact absurd failed (not_error_of_flat deep (paragraphAt_flat r l ls))
          · cases failed
            exact absurd deep (flat_textAfter _ _)
    · exact .inl

/-- A block is refused for the depth exactly if a part of it is. -/
theorem blockAt_eq_tooDeep_iff (suffix : l :: ls <:+ r.lines) :
    blockAt inner r l ls = .error h ↔ ∃ content ∈ handed inner r l ls, inner content = .error h := by
  have lines : ∀ m ∈ l :: ls, m ∈ r.lines := suffix.subset
  rw [blockAt_eq]
  unfold handed
  cases kind : opening l.text with
  | fence fence => simp
  | heading mark => simp [not_error_of_flat deep (titled_flat r l mark)]
  | thematicBreak => simp
  | quote =>
    obtain ⟨content, joined⟩ := quoteContent_isOk lines
    simp [quoted_eq_error_iff lines, joined, Except.toOption]
  | list mark => simp [listed_eq_error_iff lines]
  | widget => simp [widgetAt_eq_tooDeep_iff deep suffix]
  | closingTag name =>
    obtain ⟨pos, rfl⟩ := deep
    simp [mistake]
  | paragraph => simp [not_error_of_flat deep (paragraphAt_flat r l ls)]

end Refused

/-- A region is what stands in a container of another one: the reading of the other one, with so many
levels left for its containers, comes to a quote, to a list item or to the body of a widget. -/
def LeadsTo (levels : Nat) (skip : List Declaration) (r content : Region) : Prop :=
  ∃ at_ ∈ starts (parse levels []) r skip 0 r.lines,
    content ∈ handed (parse levels []) r at_.1 at_.2

/-- A region leads to another one through so many containers, each of them in the one before. -/
inductive Nests : Nat → List Declaration → Region → Region → Prop
  | root (skip : List Declaration) (r : Region) : Nests 0 skip r r
  | enter {levels : Nat} {skip : List Declaration} {r content innermost : Region}
      (leads : LeadsTo levels skip r content) (nests : Nests levels [] content innermost) :
      Nests (levels + 1) skip r innermost

/-- **A region is nested too deeply if and only if it leads to a region that no level is left for**, through
one container for each level. -/
theorem parse_eq_tooDeep_iff {h : Halt} (deep : h.TooDeep) {skip : List Declaration} :
    parse n skip r = .error h ↔ ∃ innermost, Nests n skip r innermost ∧ h = refusal innermost := by
  induction n generalizing skip r with
  | zero =>
    constructor
    · rintro ⟨⟩
      exact ⟨r, .root skip r, rfl⟩
    · rintro ⟨_, ⟨⟩, rfl⟩
      rfl
  | succ n ih =>
    rw [parse, blocksFrom_eq_error_iff]
    -- a container is read with one level less, and its content is refused as it would be by itself
    constructor
    · rintro ⟨at_, mem, failed⟩
      obtain ⟨content, handed, failed⟩ :=
        (blockAt_eq_tooDeep_iff deep (suffix_of_mem_starts mem)).1 failed
      obtain ⟨innermost, nests, refused⟩ := ih.1 failed
      exact ⟨innermost, .enter ⟨at_, mem, handed⟩ nests, refused⟩
    · rintro ⟨innermost, ⟨⟩ | ⟨⟨at_, mem, handed⟩, nests⟩, refused⟩
      exact ⟨at_, mem, (blockAt_eq_tooDeep_iff deep (suffix_of_mem_starts mem)).2
        ⟨_, handed, ih.2 ⟨innermost, nests, refused⟩⟩⟩

end Block

namespace Document

/-- A text is refused for its depth if and only if its metadata is read and the text leads to a region that
no level is left for. -/
theorem parse_eq_tooDeep_iff {formats : Formats} {source : Text} {h : Halt} (deep : h.TooDeep) :
    parse formats source = .error h ↔
      (∃ metadata, metadataOf formats source (Declaration.scan source) = .ok metadata) ∧
        ∃ innermost, Block.Nests maxNesting (Declaration.scan source) (Region.root source) innermost ∧
          h = Block.refusal innermost := by
  rw [← Block.parse_eq_tooDeep_iff deep, parse, Halt.bind_eq_error_iff]
  constructor
  · rintro (failed | ⟨metadata, read, failed⟩)
    · exact absurd failed (Block.not_error_of_flat deep (metadataOf_flat formats source _))
    · refine ⟨⟨metadata, read⟩, ?_⟩
      rcases Halt.bind_eq_error_iff.1 failed with failed | ⟨_, -, failed⟩
      · exact failed
      · cases failed
  · rintro ⟨⟨metadata, read⟩, failed⟩
    exact .inr ⟨metadata, read, Halt.bind_eq_error_iff.2 (.inl failed)⟩

/-- The blocks of a document make no more levels than allowed. -/
theorem allLevels_le {formats : Formats} {source : Text} {d : Document}
    (read : parse formats source = .ok d) : Block.allLevels d.blocks ≤ maxNesting := by
  unfold parse at read
  dsimp only [bind, Except.bind] at read
  split at read
  · cases read
  · split at read
    · cases read
    · rename_i blocks
      cases read
      exact Block.parse_levels blocks

end Document
end Folio
