import Folio.Proofs.Markup.InlineSpans
import Folio.Proofs.Markup.Nesting

/-!
# Faults of leaves

A region is refused for its depth before anything of it is read. What is found wrong in a tag, in an
expression or in other inline content is something else, whatever its message says about the text. Main
statements:

* `OpenTag.read_flat` and `Inline.read_flat`: the faults of tags and of inline content;
* `Block.titled_flat` and `Block.paragraphAt_flat`: the faults of blocks without blocks in them.
-/

namespace Folio

/-- An error is about something else than the depth of the blocks. -/
def SyntaxError.Flat (e : SyntaxError) : Prop :=
  e.fault ≠ .invalid "blocks are nested too deeply"

/-- A reading halts for something else than the depth of the blocks. -/
def Halt.Flat (h : Halt) : Prop := ¬ h.TooDeep

theorem Halt.flat_badCut (a b : Nat) : (Halt.badCut a b).Flat := nofun

theorem Halt.flat_mistake {e : SyntaxError} (flat : e.Flat) : (Halt.mistake e).Flat := by
  rintro ⟨pos, deep⟩
  cases deep
  exact flat rfl

theorem SyntaxError.Flat.relocate {e : SyntaxError} (flat : e.Flat) (f : Nat → Nat) :
    (e.relocate f).Flat := flat

/-- Messages that begin differently are different. -/
theorem SyntaxError.flat_invalid {message : String} {pos : Nat}
    (start : message.toList.head? ≠ some 'b') :
    SyntaxError.Flat { pos, fault := .invalid message } := by
  rintro eq
  cases eq
  exact start (by decide)

/-! ### Tags -/

theorem Expression.read_flat (at_ : Nat) (s : Text) :
    Outcome SyntaxError.Flat (fun _ => True) (Expression.read at_ s) := by
  unfold Expression.read
  split
  · trivial
  · nofun
  · nofun

namespace OpenTag

variable (name : String) (props : List WidgetProp) (at_ : Nat) (c : Char) (s : Text)

theorem readyStep_flat (token : Option TagToken) :
    Outcome SyntaxError.Flat (fun _ => True) (readyStep name props at_ c token) := by
  unfold readyStep
  split
  · trivial
  · trivial
  · trivial
  · nofun
  · split <;> nofun

theorem valueStep_flat (prop : String) (start : Nat) (token : Option TagToken) :
    Outcome SyntaxError.Flat (fun _ => True) (valueStep name props prop start at_ c s token) := by
  have expression := Expression.read_flat at_ (c :: s)
  unfold valueStep
  dsimp only
  split
  · trivial
  · split
    · rename_i failed
      rw [failed] at expression
      exact expression
    · trivial
  · split <;> nofun
  · nofun

theorem step_flat (state : State) :
    Outcome SyntaxError.Flat (fun _ => True) (step state at_ c s) := by
  unfold step
  dsimp only
  split
  · split
    · trivial
    · nofun
  · exact readyStep_flat _ _ _ _ _
  · split
    · trivial
    · exact readyStep_flat _ _ _ _ _
  · exact valueStep_flat _ _ _ _ _ _ _ _

theorem readFrom_flat (tag : Nat) (state : State) (resume : Nat) :
    Outcome SyntaxError.Flat (fun _ => True) (readFrom tag state resume at_ s) := by
  induction s generalizing state resume at_ with
  | nil => cases state <;> nofun
  | cons c s ih =>
    rw [readFrom]
    split
    · exact ih _ state resume
    · have outcome := step_flat at_ c s state
      split
      · rename_i failed
        rw [failed] at outcome
        exact outcome
      · trivial
      · exact ih _ _ _

/-- What is found wrong in a tag is not the depth of the blocks. -/
theorem read_flat : Outcome SyntaxError.Flat (fun _ => True) (read at_ s) := by
  unfold read
  dsimp only
  split
  · exact readFrom_flat _ _ _ _ _
  · nofun

end OpenTag

/-! ### Inline content -/

namespace Inline

variable (r : Region) (t : Lexeme) (ts : List Lexeme)

theorem destination_flat : Outcome SyntaxError.Flat (fun _ => True) (destination r t ts) := by
  unfold destination
  dsimp only
  split
  · trivial
  · nofun

theorem endFrame_flat (f : Frame) (fs : List Frame) (out : Reversed) :
    Outcome SyntaxError.Flat (fun _ => True) (endFrame r f fs out t ts) := by
  unfold endFrame
  split
  · exact (destination_flat r t ts).bind fun _ _ => trivial
  · trivial

theorem take_flat (st : State) : Outcome SyntaxError.Flat (fun _ => True) (take r st t ts) := by
  obtain ⟨x, took, taken⟩ := exists_taken r st t ts
  rw [took]
  cases taken with
  | openImage _ _ failed => exact (destination_flat r _ _).of_error failed
  | openBrace _ failed => exact ((Expression.read_flat _ _).of_error failed).relocate _
  | badTag _ failed => exact ((OpenTag.read_flat _ _).of_error failed).relocate _
  | closeBrace => nofun
  | openWidget => exact SyntaxError.flat_invalid (by simp [toString])
  | _ => trivial

theorem readFrom_flat (st : State) (resume : Nat) :
    Outcome SyntaxError.Flat (fun _ => True) (readFrom r st resume ts) := by
  induction ts generalizing st resume with
  | nil => trivial
  | cons t ts ih =>
    rw [readFrom_cons]
    split
    · exact ih st resume
    · split
      · exact ih _ _
      · have next := next_outcome (take_flat r t ts st) fun f fs _ _ => endFrame_flat r t ts f fs st.out
        exact next.bind fun after _ => ih after.1 after.2

/-- What is found wrong in inline content is not the depth of the blocks. -/
theorem read_flat : Outcome SyntaxError.Flat (fun _ => True) (read r) :=
  (readFrom_flat r _ _ _).bind fun _ _ => trivial

end Inline

/-! ### Blocks -/

namespace Block

variable (r : Region) (l : Line) (ls : List Line)

theorem slice_flat (start stop : Nat) : Outcome Halt.Flat (fun _ => True) (slice r start stop) := by
  unfold slice
  split
  · trivial
  · exact Halt.flat_badCut _ _

theorem gather_flat (pieces : List (Nat × Nat)) :
    Outcome Halt.Flat (fun _ => True) (gather r pieces) := by
  unfold gather
  split
  · trivial
  · exact Halt.flat_badCut _ _

theorem inlines_flat : Outcome Halt.Flat (fun _ => True) (inlines r) := by
  have content := Inline.read_flat r
  unfold inlines
  split
  · trivial
  · rename_i failed
    rw [failed] at content
    exact Halt.flat_mistake content

/-- A heading is not refused for the depth of the blocks. -/
theorem titled_flat (mark : HeadingMark) : Outcome Halt.Flat (fun _ => True) (titled r mark l) :=
  (slice_flat r _ _).bind fun content _ => (inlines_flat content).bind fun _ _ => trivial

/-- A paragraph is not refused for the depth of the blocks. -/
theorem paragraphAt_flat : Outcome Halt.Flat (fun _ => True) (paragraphAt r l ls) :=
  (gather_flat r _).bind fun content _ => (inlines_flat content).bind fun _ _ => trivial

theorem dedent_flat : Outcome Halt.Flat (fun _ => True) (dedent r) := by
  unfold dedent
  dsimp only
  split
  · trivial
  · exact gather_flat r _

/-- Text after a widget is not taken for blocks that are nested too deeply. -/
theorem flat_textAfter (pos : Nat) (name : String) :
    (Halt.mistake { pos, fault := .invalid s!"unexpected text after </{name}>" }).Flat :=
  Halt.flat_mistake (SyntaxError.flat_invalid (by simp [toString]))

end Block

/-! ### Metadata -/

/-- Metadata that cannot be read is not refused for the depth of the blocks. -/
theorem Document.metadataOf_flat (formats : Formats) (source : Text) (ds : List Declaration) :
    Outcome Halt.Flat (fun _ => True) (metadataOf formats source ds) := by
  unfold metadataOf
  split
  · trivial
  · split
    · trivial
    · rename_i failed
      refine Halt.flat_mistake ?_
      unfold Metadata.read at failed
      dsimp only at failed
      split at failed <;> cases failed <;> nofun

end Folio
