import Folio.Proofs.Markup.Alike
import Folio.Proofs.Markup.Bodies
import Folio.Proofs.Region.Content

/-!
# Blocks of equal texts

Regions with the same text have the same lines, and what is cut out of them at the same offsets has
the same text again. So they are read to blocks that are the same but for their spans, or reading
them halts for the same reason. Main statements: `Block.parse_parallel` and `Block.starts_eq`.
-/

namespace Folio

/-- Reading halts for the same reason: for the same fault, or for a bad cut. -/
def Halt.SameReason : Halt → Halt → Prop
  | .mistake e, .mistake e' => e.SameFault e'
  | .badCut _ _, .badCut _ _ => True
  | _, _ => False

theorem ListItem.allSpanless_eq_map (is : List ListItem) :
    allSpanless is = is.map spanless := by
  induction is with
  | nil => rfl
  | cons i is ih => rw [allSpanless, ih, List.map_cons]

namespace Block

/-- Two readings that go the same way, up to the places where they halt. -/
abbrev Tallies {α β : Type} (R : α → β → Prop) (x : Except Halt α) (y : Except Halt β) : Prop :=
  Parallel Halt.SameReason R x y

variable {r r' : Region} {l : Line} {ls : List Line} {inner inner' : Inner}

/-- Regions with the same text. -/
def SameText (r r' : Region) : Prop := r.text = r'.text

/-- Content that is the same but for spans. -/
def SameBlocks (bs bs' : List Block) : Prop := allSpanless bs = allSpanless bs'

theorem allSpanless_eq_map (bs : List Block) : allSpanless bs = bs.map spanless := by
  induction bs with
  | nil => rfl
  | cons b bs ih => rw [allSpanless, ih, List.map_cons]

/-! ### Parts of regions -/

section Parts

variable (same : SameText r r')

include same

theorem slice_parallel (m n : Nat) : Tallies SameText (slice r m n) (slice r' m n) := by
  cases taken : slice r m n with
  | error h =>
    cases taken' : slice r' m n with
    | error h' =>
      rw [(slice_eq_error_iff.1 taken).2, (slice_eq_error_iff.1 taken').2]
      trivial
    | ok part =>
      rw [slice_eq_error_iff, same] at taken
      rw [slice_eq_error_iff.2 taken] at taken'
      cases taken'
  | ok part =>
    cases taken' : slice r' m n with
    | error h =>
      rw [slice_eq_error_iff, ← same] at taken'
      rw [slice_eq_error_iff.2 taken'] at taken
      cases taken
    | ok part' =>
      have fills' := fills_of_slice taken'
      rw [← same] at fills'
      exact (fills_of_slice taken).unique fills'

theorem gather_parallel (pieces : List (Nat × Nat)) :
    Tallies SameText (gather r pieces) (gather r' pieces) := by
  cases joined : gather r pieces with
  | error h =>
    cases joined' : gather r' pieces with
    | error h' =>
      obtain ⟨p, -, rfl⟩ := gather_eq_error_iff.1 joined
      obtain ⟨p', -, rfl⟩ := gather_eq_error_iff.1 joined'
      trivial
    | ok part =>
      rw [gather_eq_error_iff, same] at joined
      rw [gather_eq_error_iff.2 joined] at joined'
      cases joined'
  | ok part =>
    cases joined' : gather r' pieces with
    | error h =>
      rw [gather_eq_error_iff, ← same] at joined'
      rw [gather_eq_error_iff.2 joined'] at joined
      cases joined
    | ok part' =>
      obtain ⟨texts, fills, text_eq⟩ := exists_fills_of_gather joined
      obtain ⟨texts', fills', text_eq'⟩ := exists_fills_of_gather joined'
      rw [← same] at fills'
      have unique : Relator.RightUnique r.text.Fills := fun _ _ _ => Text.Fills.unique
      show part.text = part'.text
      rw [text_eq, text_eq', List.right_unique_forall₂' unique fills fills']

theorem inlines_parallel :
    Tallies (fun is is' => Inline.allSpanless is = Inline.allSpanless is') (inlines r)
      (inlines r') := by
  unfold inlines
  obtain ⟨e, e', failed, failed', fault⟩ | ⟨is, is', read, read', content⟩ :=
    (Inline.read_parallel same).cases
  · rw [failed, failed']
    exact fault
  · rw [read, read']
    exact content

theorem dedent_parallel : Tallies SameText (dedent r) (dedent r') := by
  have lines : r.lines = r'.lines := congrArg Line.split same
  rw [dedent_eq, dedent_eq, margin, margin, lines]
  split
  · exact same
  · exact gather_parallel same _

end Parts

/-! ### Blocks -/

/-- Blocks that are the same but for spans, and the same offset. -/
def SameTaken (a b : Taken) : Prop := a.1.spanless = b.1.spanless ∧ a.2 = b.2

theorem fenced_parallel (fence : Fence) :
    SameTaken (fenced r fence l ls) (fenced r' fence l ls) := ⟨rfl, rfl⟩

section Same

variable (same : SameText r r')

include same

theorem titled_parallel (mark : HeadingMark) : Tallies SameTaken (titled r mark l) (titled r' mark l) :=
  (slice_parallel same _ _).bind fun _ _ content => (inlines_parallel content).bind
    fun _ _ children => ⟨congrArg (Block.heading mark.level · ⟨0, 0⟩) children, rfl⟩

theorem paragraphAt_parallel : Tallies SameTaken (paragraphAt r l ls) (paragraphAt r' l ls) :=
  (gather_parallel same _).bind fun _ _ content => (inlines_parallel content).bind
    fun _ _ children => ⟨congrArg (Block.paragraph · ⟨0, 0⟩) children, rfl⟩

variable (inside : ∀ {r r' : Region}, SameText r r' → Tallies SameBlocks (inner r) (inner' r'))

include inside

theorem quoted_parallel : Tallies SameTaken (quoted inner r l ls) (quoted inner' r' l ls) :=
  (gather_parallel same _).bind fun _ _ content => (inside content).bind
    fun _ _ children => ⟨congrArg (Block.quote · ⟨0, 0⟩) children, rfl⟩

theorem itemAt_parallel (mark : ListMark) :
    Tallies (fun a b => a.1.spanless = b.1.spanless ∧ a.2 = b.2) (itemAt inner r mark l ls)
      (itemAt inner' r' mark l ls) :=
  (gather_parallel same _).bind fun _ _ content => (inside content).bind
    fun _ _ children => ⟨congrArg (ListItem.mk · ⟨0, 0⟩) children, rfl⟩

/-- Items that are the same but for spans. -/
structure SameItems (a b : Items) : Prop where
  items : ListItem.allSpanless a.items = ListItem.allSpanless b.items
  tight : a.tight = b.tight
  resume : a.resume = b.resume

theorem itemsFrom_parallel (ordered : Bool) (stop resume : Nat) :
    Tallies SameItems (itemsFrom inner r ordered stop resume ls)
      (itemsFrom inner' r' ordered stop resume ls) := by
  induction ls generalizing stop resume with
  | nil => exact ⟨rfl, rfl, rfl⟩
  | cons l ls ih =>
    rw [itemsFrom, itemsFrom]
    split
    · exact ih stop resume
    · split
      · exact ⟨rfl, rfl, rfl⟩
      · refine (itemAt_parallel same inside _).bind ?_
        rintro ⟨item, lines⟩ ⟨item', _⟩ ⟨first, rfl⟩
        refine (ih _ _).bind fun more more' rest => ⟨?_, ?_, rest.resume⟩
        · dsimp only
          rw [ListItem.allSpanless, ListItem.allSpanless, first, rest.items]
        · dsimp only
          rw [rest.tight]

theorem listed_parallel (mark : ListMark) :
    Tallies SameTaken (listed inner r mark l ls) (listed inner' r' mark l ls) :=
  (itemsFrom_parallel same inside _ _ _).bind fun _ _ items =>
    ⟨by rw [Block.spanless, Block.spanless, items.tight, items.items], items.resume⟩

theorem bodyOf_parallel (at_ : Nat) (tag : OpenTag) (s : Text) :
    Tallies (fun a b => SameBlocks a.1 b.1 ∧ a.2 = b.2) (bodyOf inner r at_ tag s)
      (bodyOf inner' r' at_ tag s) := by
  unfold bodyOf
  split
  · exact ⟨rfl, rfl⟩
  · split
    · exact rfl
    · exact (slice_parallel same _ _).bind fun _ _ part => (dedent_parallel part).bind
        fun _ _ body => (inside body).bind fun _ _ children => ⟨children, rfl⟩

theorem widgetAt_parallel : Tallies SameTaken (widgetAt inner r l ls) (widgetAt inner' r' l ls) := by
  unfold widgetAt
  dsimp only
  split
  · exact rfl
  · refine (bodyOf_parallel same inside _ _ _).bind ?_
    rintro ⟨children, stop⟩ ⟨children', _⟩ ⟨body, rfl⟩
    dsimp only
    split
    · refine ⟨?_, rfl⟩
      rw [Block.spanless, Block.spanless, Inline.spanless_tagIn, body]
    · split
      · exact paragraphAt_parallel same
      · exact rfl

variable (l ls) in
theorem blockAt_parallel : Tallies SameTaken (blockAt inner r l ls) (blockAt inner' r' l ls) := by
  rw [blockAt_eq, blockAt_eq]
  cases opening l.text with
  | fence fence => exact fenced_parallel fence
  | heading mark => exact titled_parallel same mark
  | thematicBreak => exact ⟨rfl, rfl⟩
  | quote => exact quoted_parallel same inside
  | list mark => exact listed_parallel same inside mark
  | widget => exact widgetAt_parallel same inside
  | closingTag name => exact rfl
  | paragraph => exact paragraphAt_parallel same

theorem blocksFrom_parallel (skip : List Declaration) (resume : Nat) :
    Tallies SameBlocks (blocksFrom inner r skip resume ls) (blocksFrom inner' r' skip resume ls) := by
  induction ls generalizing resume with
  | nil => exact rfl
  | cons l ls ih =>
    rw [blocksFrom, blocksFrom]
    split
    · exact ih resume
    · split
      · exact ih _
      · split
        · exact ih resume
        · refine (blockAt_parallel l ls same inside).bind ?_
          rintro ⟨block, resume⟩ ⟨block', _⟩ ⟨first, rfl⟩
          refine (ih resume).bind fun bs bs' rest => ?_
          show allSpanless (block :: bs) = allSpanless (block' :: bs')
          rw [allSpanless, allSpanless, first, rest]

/-- Blocks start at the same lines. -/
theorem starts_eq (skip : List Declaration) (resume : Nat) :
    starts inner r skip resume ls = starts inner' r' skip resume ls := by
  induction ls generalizing resume with
  | nil => rfl
  | cons l ls ih =>
    rw [starts, starts]
    split
    · exact ih resume
    · split
      · exact ih _
      · split
        · exact ih resume
        · congr 1
          obtain ⟨e, e', failed, failed', -⟩ | ⟨⟨block, resume⟩, ⟨block', _⟩, read, read', -, rfl⟩ :=
            (blockAt_parallel l ls same inside).cases
          · rw [failed, failed']
          · rw [read, read']
            exact ih resume

end Same

/-- Regions with the same text have the same blocks, but for spans, or halt for the same reason. -/
theorem parse_parallel (levels : Nat) (skip : List Declaration) (same : SameText r r') :
    Tallies SameBlocks (parse levels skip r) (parse levels skip r') := by
  induction levels generalizing skip r r' with
  | zero => exact rfl
  | succ levels ih =>
    have lines : r.lines = r'.lines := congrArg Line.split same
    rw [parse, parse, lines]
    exact blocksFrom_parallel same (ih []) skip 0

end Block
end Folio
