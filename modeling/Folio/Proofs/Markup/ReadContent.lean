import Folio.Proofs.Markup.Marks
import Folio.Proofs.Markup.TokenSteps

/-!
# What holds of content that is read

Content is read token after token, with frames around what is open. A property of content is *closed*
if it holds of text and of breaks, and of marked content when it holds of what is marked. Such a
property holds of all content that is read as soon as it holds of the widgets and expressions in it.
Main statements:

* `Inline.take_outcome` and `Inline.endFrame_outcome`: one token;
* `Inline.read_outcome_of_admits`: all content of a region.
-/

namespace Folio.Inline

/-- A property that holds of content without widgets and expressions, and is passed on to content
from what stands in it. -/
structure IsClosed (P : Inline → Prop) : Prop where
  text : ∀ value, P (.text value)
  code : ∀ value, P (.code value)
  image : ∀ src alt, P (.image src alt)
  softBreak : P .softBreak
  lineBreak : P .lineBreak
  strong : ∀ children, (∀ i ∈ children, P i) → P (.strong children)
  emphasis : ∀ children, (∀ i ∈ children, P i) → P (.emphasis children)
  strikethrough : ∀ children, (∀ i ∈ children, P i) → P (.strikethrough children)
  link : ∀ href children, (∀ i ∈ children, P i) → P (.link href children)

variable {P : Inline → Prop}

theorem IsClosed.close (closed : IsClosed P) (stop : Stop) {children : List Inline}
    (inside : ∀ i ∈ children, P i) : P (close stop children) := by
  unfold Inline.close
  split
  · exact closed.strong children inside
  · exact closed.strikethrough children inside
  · exact closed.emphasis children inside

/-! ### Content under construction -/

/-- All pieces of content have a property. -/
abbrev Reversed.All (P : Inline → Prop) (out : Reversed) : Prop := ∀ i ∈ out, P i

namespace Reversed.All

variable {out : Reversed}

theorem addText (closed : IsClosed P) (h : out.All P) (s : Text) : (out.addText s).All P := by
  unfold Reversed.addText
  split
  · exact h
  · split
    · rw [Reversed.All, List.forall_mem_cons] at h ⊢
      exact ⟨closed.text _, h.2⟩
    · exact List.forall_mem_cons.2 ⟨closed.text _, h⟩

theorem trimEnd (closed : IsClosed P) (h : out.All P) : out.trimEnd.All P := by
  unfold Reversed.trimEnd
  split
  · rw [Reversed.All, List.forall_mem_cons] at h
    dsimp only
    split
    · exact h.2
    · exact List.forall_mem_cons.2 ⟨closed.text _, h.2⟩
  · exact h

theorem reverse (h : out.All P) : ∀ i ∈ out.reverse, P i :=
  fun i mem => h i (List.mem_reverse.1 mem)

end Reversed.All

theorem all_trimStart (closed : IsClosed P) {content : List Inline} (h : ∀ i ∈ content, P i) :
    ∀ i ∈ trimStart content, P i := by
  unfold trimStart
  split
  · rw [List.forall_mem_cons] at h
    dsimp only
    split
    · exact h.2
    · exact List.forall_mem_cons.2 ⟨closed.text _, h.2⟩
  · exact h

/-- All content of a state has a property. -/
structure State.All (P : Inline → Prop) (st : State) : Prop where
  out : st.out.All P
  frames : ∀ f ∈ st.frames, f.outer.All P

namespace State.All

variable {st : State}

theorem add (h : st.All P) {i : Inline} (holds : P i) : (st.add i).All P :=
  ⟨List.forall_mem_cons.2 ⟨holds, h.out⟩, h.frames⟩

theorem addText (closed : IsClosed P) (h : st.All P) (s : Text) : (st.addText s).All P :=
  ⟨h.out.addText closed s, h.frames⟩

theorem push (h : st.All P) (stop : Stop) (opener : Text) : (st.push stop opener).All P :=
  ⟨List.forall_mem_nil _, List.forall_mem_cons.2 ⟨h.out, h.frames⟩⟩

theorem break_ (closed : IsClosed P) (h : st.All P) {i : Inline} (holds : P i) :
    State.All P { st with out := i :: st.out.trimEnd } :=
  ⟨List.forall_mem_cons.2 ⟨holds, h.out.trimEnd closed⟩, h.frames⟩

theorem unwind (closed : IsClosed P) {out : Reversed} {frames : List Frame} (h : out.All P)
    (h' : ∀ f ∈ frames, f.outer.All P) : (State.unwind out frames).All P := by
  induction frames generalizing out with
  | nil => exact h
  | cons f fs ih =>
    rw [List.forall_mem_cons] at h'
    exact ih (List.forall_mem_append.2 ⟨h, h'.1.addText closed f.opener⟩) h'.2

end State.All

/-! ### One token -/

variable {r : Region} {st : State} {t : Lexeme} {ts : List Lexeme} {failed : SyntaxError → Prop}

/-- The property holds of the widget or the expression at a token, or it is not read for a reason. -/
structure Admits (P : Inline → Prop) (failed : SyntaxError → Prop) (r : Region) (t : Lexeme)
    (ts : List Lexeme) : Prop where
  expression : ∀ e, t.token = .brace → Expression.read t.start (Lexeme.join (t :: ts)) = .ok e →
    P (.expression (Expression.source e) (r.span t.start (t.start + Text.bytes e)))
  widget : ∀ tag, t.token = .widgetOpen → OpenTag.read t.start (Lexeme.join (t :: ts)) = .ok tag →
    tag.selfClosing = true → P (.widget (.mk (tagIn r tag t.start tag.stop) true []))
  fails : ∀ st e, Taken r st t ts (.error e) → failed e
  destination : t.token = .linkTarget → Outcome failed (fun _ => True) (destination r t ts)

theorem endFrame_outcome (closed : IsClosed P) (admits : Admits P failed r t ts) {f : Frame}
    {fs : List Frame} {out : Reversed} (ends : t.ends f.stop = true) (inside : out.All P)
    (outer : f.outer.All P) (frames : ∀ f ∈ fs, f.outer.All P) :
    Outcome failed (fun next => next.1.All P) (endFrame r f fs out t ts) := by
  unfold endFrame
  split
  · rename_i is_link
    rw [is_link, Lexeme.ends, Bool.and_eq_true, Stop.isToken, beq_iff_eq] at ends
    refine (admits.destination ends.1).bind fun place _ => ?_
    exact ⟨List.forall_mem_cons.2 ⟨closed.link _ _ inside.reverse, outer⟩, frames⟩
  · exact ⟨List.forall_mem_cons.2 ⟨closed.close _ inside.reverse, outer⟩, frames⟩

theorem take_outcome (closed : IsClosed P) (admits : Admits P failed r t ts) (h : st.All P) :
    Outcome failed (fun next => next.1.All P) (take r st t ts) := by
  obtain ⟨x, took, taken⟩ := exists_taken r st t ts
  rw [took]
  cases x with
  | error e => exact admits.fails st e taken
  | ok next =>
    show next.1.All P
    cases taken with
    | text | escaped => exact h.addText closed _
    | opened | label => exact h.push _ _
    | code => exact h.add (closed.code _)
    | image => exact h.add (closed.image _ _)
    | expression kind read => exact h.add (admits.expression _ kind read)
    | widget kind read self_closing => exact h.add (admits.widget _ kind read self_closing)
    | lineBreak => exact h.break_ closed closed.lineBreak
    | softBreak => exact h.break_ closed closed.softBreak

/-! ### Token after token -/

/-- What becomes of a state at a token that has not been read. -/
def next (r : Region) (st : State) (t : Lexeme) (ts : List Lexeme) :
    Except SyntaxError (State × Nat) :=
  match st.frames with
  | f :: fs => if t.ends f.stop then endFrame r f fs st.out t ts else take r st t ts
  | [] => take r st t ts

theorem readFrom_cons (r : Region) (st : State) (resume : Nat) (t : Lexeme) (ts : List Lexeme) :
    readFrom r st resume (t :: ts) =
      if t.stop ≤ resume then readFrom r st resume ts
      else if t.start < resume then
        readFrom r (st.addText (Text.dropBytes t.text (resume - t.start))) t.stop ts
      else next r st t ts >>= fun after => readFrom r after.1 after.2 ts := by
  rw [readFrom, next]
  congr 2
  cases st.frames with
  | nil =>
    dsimp only
    cases take r st t ts <;> rfl
  | cons f fs =>
    by_cases ends : t.ends f.stop = true
    · simp only [if_pos ends]
      cases endFrame r f fs st.out t ts <;> rfl
    · simp only [if_neg ends]
      cases take r st t ts <;> rfl

/-- A token that has not been read ends the innermost frame, or it is taken. -/
theorem next_outcome {done : State × Nat → Prop} (taken : Outcome failed done (take r st t ts))
    (ended : ∀ f fs, st.frames = f :: fs → t.ends f.stop = true →
      Outcome failed done (endFrame r f fs st.out t ts)) :
    Outcome failed done (next r st t ts) := by
  unfold next
  split
  · rename_i f fs frames
    split
    · rename_i ends
      exact ended f fs frames ends
    · exact taken
  · exact taken

theorem readFrom_outcome (closed : IsClosed P) {resume : Nat}
    (admits : ∀ t us, t :: us <:+ ts → Admits P failed r t us) (h : st.All P) :
    Outcome failed (Reversed.All P) (readFrom r st resume ts) := by
  induction ts generalizing st resume with
  | nil => exact State.All.unwind closed h.out h.frames
  | cons t ts ih =>
    have later : ∀ u us, u :: us <:+ ts → Admits P failed r u us :=
      fun u us suffix => admits u us (suffix.trans (List.suffix_cons t ts))
    have first : Admits P failed r t ts := admits t ts (List.suffix_refl _)
    rw [readFrom_cons]
    split
    · exact ih later h
    · split
      · exact ih later (h.addText closed _)
      · refine (next_outcome (take_outcome closed first h) fun f fs frames ends => ?_).bind
          fun _ => ih later
        have outer := h.frames
        rw [frames, List.forall_mem_cons] at outer
        exact endFrame_outcome closed first ends h.out outer.1 outer.2

/-- A closed property that holds of each widget and each expression holds of all content. -/
theorem read_outcome_of_admits (closed : IsClosed P)
    (admits : ∀ t us, t :: us <:+ Lexeme.readAll r.text → Admits P failed r t us) :
    Outcome failed (fun content => ∀ i ∈ content, P i) (read r) := by
  have start : State.All P { frames := [], out := [] } :=
    ⟨List.forall_mem_nil _, List.forall_mem_nil _⟩
  refine (readFrom_outcome closed admits start).bind fun out inside => ?_
  exact all_trimStart closed (inside.trimEnd closed).reverse

end Folio.Inline
