import Folio.Proofs.Markup.InlineSpans

/-!
# What is read of equal texts

Where the characters of a region are placed only matters for spans and the places of errors. So
regions with the same text are read to inline content that is the same but for its spans, or reading
them ends with the same fault. Main statements:

* `Alike` and `Parallel`: two readings that go the same way, whatever their errors or with related
  ones;
* `Inline.read_parallel`: the inline content of regions with the same text.
-/

namespace Folio

/-! ### Readings that go the same way -/

/-- Two readings both fail, or both give a result and the results are related. -/
def Alike {ε α β : Type} (R : α → β → Prop) : Except ε α → Except ε β → Prop
  | .error _, .error _ => True
  | .ok a, .ok b => R a b
  | _, _ => False

namespace Alike

variable {ε α β γ δ : Type} {R : α → β → Prop} {S : γ → δ → Prop} {x : Except ε α} {y : Except ε β}

/-- The two ways to go. -/
theorem cases (h : Alike R x y) :
    (∃ e e', x = .error e ∧ y = .error e') ∨ ∃ a b, x = .ok a ∧ y = .ok b ∧ R a b := by
  cases x with
  | error e =>
    cases y with
    | error e' => exact .inl ⟨e, e', rfl, rfl⟩
    | ok b => exact h.elim
  | ok a =>
    cases y with
    | error e' => exact h.elim
    | ok b => exact .inr ⟨a, b, rfl, rfl, h⟩

theorem mono {R' : α → β → Prop} (h : Alike R x y) (results : ∀ a b, R a b → R' a b) :
    Alike R' x y := by
  obtain ⟨e, e', rfl, rfl⟩ | ⟨a, b, rfl, rfl, same⟩ := h.cases
  · trivial
  · exact results a b same

theorem bind {f : α → Except ε γ} {g : β → Except ε δ} (h : Alike R x y)
    (next : ∀ a b, R a b → Alike S (f a) (g b)) : Alike S (x >>= f) (y >>= g) := by
  obtain ⟨e, e', rfl, rfl⟩ | ⟨a, b, rfl, rfl, same⟩ := h.cases
  · trivial
  · exact next a b same

/-- What comes after the same reading. -/
theorem bind_same {f : α → Except ε γ} {g : α → Except ε δ} {x : Except ε α}
    (next : ∀ a, Alike S (f a) (g a)) : Alike S (x >>= f) (x >>= g) := by
  cases x with
  | error e => trivial
  | ok a => exact next a

theorem map {f : α → γ} {g : β → δ} (h : Alike R x y) (results : ∀ a b, R a b → S (f a) (g b)) :
    Alike S (x.map f) (y.map g) := by
  obtain ⟨e, e', rfl, rfl⟩ | ⟨a, b, rfl, rfl, same⟩ := h.cases
  · trivial
  · exact results a b same

theorem refl {R : α → α → Prop} (results : ∀ a, R a a) (x : Except ε α) : Alike R x x := by
  cases x with
  | error e => trivial
  | ok a => exact results a

/-- The second reading gives a result if the first one does. -/
theorem exists_of_ok {a : α} (h : Alike R x y) (done : x = .ok a) : ∃ b, y = .ok b ∧ R a b := by
  obtain ⟨e, e', failed, -⟩ | ⟨a, b, rfl, rfl, same⟩ := h.cases
  · rw [failed] at done
    cases done
  · cases done
    exact ⟨b, rfl, same⟩

theorem toOption_eq {y : Except ε α} (h : Alike Eq x y) : x.toOption = y.toOption := by
  obtain ⟨e, e', rfl, rfl⟩ | ⟨a, b, rfl, rfl, same⟩ := h.cases
  · rfl
  · rw [same]

end Alike

/-- Two readings both fail and their errors are related, or both give a result and the results are
related. -/
def Parallel {ε α β : Type} (E : ε → ε → Prop) (R : α → β → Prop) :
    Except ε α → Except ε β → Prop
  | .error e, .error e' => E e e'
  | .ok a, .ok b => R a b
  | _, _ => False

namespace Parallel

variable {ε α β γ δ : Type} {E : ε → ε → Prop} {R : α → β → Prop} {S : γ → δ → Prop}
  {x : Except ε α} {y : Except ε β}

/-- The two ways to go. -/
theorem cases (h : Parallel E R x y) :
    (∃ e e', x = .error e ∧ y = .error e' ∧ E e e') ∨ ∃ a b, x = .ok a ∧ y = .ok b ∧ R a b := by
  cases x with
  | error e =>
    cases y with
    | error e' => exact .inl ⟨e, e', rfl, rfl, h⟩
    | ok b => exact h.elim
  | ok a =>
    cases y with
    | error e' => exact h.elim
    | ok b => exact .inr ⟨a, b, rfl, rfl, h⟩

theorem alike (h : Parallel E R x y) : Alike R x y := by
  obtain ⟨e, e', rfl, rfl, -⟩ | ⟨a, b, rfl, rfl, same⟩ := h.cases
  · trivial
  · exact same

theorem bind {f : α → Except ε γ} {g : β → Except ε δ} (h : Parallel E R x y)
    (next : ∀ a b, R a b → Parallel E S (f a) (g b)) : Parallel E S (x >>= f) (y >>= g) := by
  obtain ⟨e, e', rfl, rfl, same⟩ | ⟨a, b, rfl, rfl, same⟩ := h.cases
  · exact same
  · exact next a b same

end Parallel

/-- Two errors have the same cause. -/
def SyntaxError.SameFault (e e' : SyntaxError) : Prop := e.fault = e'.fault

/-! ### Content without spans -/

/-- A tag without its spans. -/
def WidgetTag.spanless (t : WidgetTag) : WidgetTag :=
  { name := t.name, props := t.props.map fun p => { p with span := ⟨0, 0⟩ }, span := ⟨0, 0⟩ }

mutual

/-- Content without its spans. -/
def Inline.spanless : Inline → Inline
  | .text value => .text value
  | .strong children => .strong (Inline.allSpanless children)
  | .emphasis children => .emphasis (Inline.allSpanless children)
  | .strikethrough children => .strikethrough (Inline.allSpanless children)
  | .code value => .code value
  | .link href children => .link href (Inline.allSpanless children)
  | .image src alt => .image src alt
  | .softBreak => .softBreak
  | .lineBreak => .lineBreak
  | .widget element => .widget element.spanless
  | .expression source _ => .expression source ⟨0, 0⟩

/-- Pieces of content without their spans. -/
def Inline.allSpanless : List Inline → List Inline
  | [] => []
  | i :: is => i.spanless :: Inline.allSpanless is

/-- A block without its spans. -/
def Block.spanless : Block → Block
  | .heading level children _ => .heading level (Inline.allSpanless children) ⟨0, 0⟩
  | .paragraph children _ => .paragraph (Inline.allSpanless children) ⟨0, 0⟩
  | .quote children _ => .quote (Block.allSpanless children) ⟨0, 0⟩
  | .list ordered number tight items _ =>
    .list ordered number tight (ListItem.allSpanless items) ⟨0, 0⟩
  | .code info code _ => .code info code ⟨0, 0⟩
  | .thematicBreak _ => .thematicBreak ⟨0, 0⟩
  | .widget tag selfClosing children =>
    .widget tag.spanless selfClosing (Block.allSpanless children)

/-- Blocks without their spans. -/
def Block.allSpanless : List Block → List Block
  | [] => []
  | b :: bs => b.spanless :: Block.allSpanless bs

/-- A list item without its spans. -/
def ListItem.spanless : ListItem → ListItem
  | .mk children _ => .mk (Block.allSpanless children) ⟨0, 0⟩

/-- List items without their spans. -/
def ListItem.allSpanless : List ListItem → List ListItem
  | [] => []
  | i :: is => i.spanless :: ListItem.allSpanless is

/-- A widget between words without its spans. -/
def WidgetElement.spanless : WidgetElement → WidgetElement
  | .mk tag selfClosing children => .mk tag.spanless selfClosing (Block.allSpanless children)

end

namespace Inline

theorem allSpanless_eq_map (is : List Inline) : allSpanless is = is.map spanless := by
  induction is with
  | nil => rfl
  | cons i is ih => rw [allSpanless, ih, List.map_cons]

theorem spanless_addText (out : Reversed) (s : Text) :
    (out.addText s).map spanless = Reversed.addText (out.map spanless) s := by
  unfold Reversed.addText
  split
  · rfl
  · cases out with
    | nil => rfl
    | cons i out => cases i <;> rfl

theorem spanless_trimEnd (out : Reversed) :
    out.trimEnd.map spanless = Reversed.trimEnd (out.map spanless) := by
  cases out with
  | nil => rfl
  | cons i out =>
    cases i with
    | text value =>
      show (if _ then _ else _ : Reversed).map spanless = if _ then _ else _
      split <;> rfl
    | _ => rfl

theorem endsInTwoSpaces_spanless (out : Reversed) :
    Reversed.endsInTwoSpaces (out.map spanless) = out.endsInTwoSpaces := by
  cases out with
  | nil => rfl
  | cons i out => cases i <;> rfl

theorem spanless_trimStart (content : List Inline) :
    (trimStart content).map spanless = trimStart (content.map spanless) := by
  cases content with
  | nil => rfl
  | cons i content =>
    cases i with
    | text value =>
      show (if _ then _ else _ : List Inline).map spanless = if _ then _ else _
      split <;> rfl
    | _ => rfl

/-! ### States -/

/-- A frame without the spans in its content. -/
def Frame.spanless (f : Frame) : Frame := { f with outer := f.outer.map Inline.spanless }

/-- A state without the spans in its content. -/
def State.spanless (st : State) : State where
  frames := st.frames.map Frame.spanless
  out := st.out.map Inline.spanless

namespace State

theorem spanless_add (st : State) (i : Inline) : (st.add i).spanless = st.spanless.add i.spanless :=
  rfl

theorem spanless_addText (st : State) (s : Text) :
    (st.addText s).spanless = st.spanless.addText s := by
  unfold spanless addText
  rw [Inline.spanless_addText]

theorem spanless_push (st : State) (stop : Stop) (opener : Text) :
    (st.push stop opener).spanless = st.spanless.push stop opener := rfl

theorem spanless_unwind (out : Reversed) (frames : List Frame) :
    (unwind out frames).map Inline.spanless =
      unwind (out.map Inline.spanless) (frames.map Frame.spanless) := by
  induction frames generalizing out with
  | nil => rfl
  | cons f fs ih =>
    rw [unwind, ih, List.map_append, Inline.spanless_addText]
    rfl

end State

/-! ### Reading inline content -/

section Reading

variable {r r' : Region} {st st' : State} {t : Lexeme} {ts : List Lexeme}

/-- States that are the same but for spans, and the same offset. -/
def Follows (a b : State × Nat) : Prop := a.1.spanless = b.1.spanless ∧ a.2 = b.2

theorem spanless_tagIn (tag : OpenTag) (start stop : Nat) :
    (tagIn r tag start stop).spanless = (tagIn r' tag start stop).spanless := by
  simp [tagIn, WidgetTag.spanless, Function.comp_def]

theorem destination_parallel (target : Lexeme) :
    Parallel SyntaxError.SameFault Eq (destination r target ts) (destination r' target ts) := by
  unfold destination
  dsimp only
  split
  · rfl
  · exact rfl

/-- How reading goes on from a token of states that are the same but for spans. -/
abbrev Step (x y : Except SyntaxError (State × Nat)) : Prop :=
  Parallel SyntaxError.SameFault Follows x y

variable (same : st.spanless = st'.spanless)

include same

theorem out_spanless : st.out.map spanless = st'.out.map spanless := congrArg State.out same

theorem step_add {i i' : Inline} (content : i.spanless = i'.spanless) (n : Nat) :
    Step (.ok (st.add i, n)) (.ok (st'.add i', n)) :=
  ⟨by rw [State.spanless_add, State.spanless_add, same, content], rfl⟩

theorem step_addText (s : Text) (n : Nat) :
    Step (.ok (st.addText s, n)) (.ok (st'.addText s, n)) :=
  ⟨by rw [State.spanless_addText, State.spanless_addText, same], rfl⟩

theorem step_push (stop : Stop) (opener : Text) (n : Nat) :
    Step (.ok (st.push stop opener, n)) (.ok (st'.push stop opener, n)) :=
  ⟨by rw [State.spanless_push, State.spanless_push, same], rfl⟩

theorem step_break (i : Inline) (n : Nat) :
    Step (.ok ({ st with out := i :: st.out.trimEnd }, n))
      (.ok ({ st' with out := i :: st'.out.trimEnd }, n)) := by
  refine ⟨?_, rfl⟩
  have frames : st.frames.map Frame.spanless = st'.frames.map Frame.spanless :=
    congrArg State.frames same
  rw [State.spanless, State.spanless, frames, List.map_cons, List.map_cons, spanless_trimEnd,
    spanless_trimEnd, out_spanless same]

omit same in
theorem stop_and_outer {f f' : Frame} (h : f.spanless = f'.spanless) :
    f.stop = f'.stop ∧ f.outer.map spanless = f'.outer.map spanless := by
  rw [Frame.spanless, Frame.spanless, Frame.mk.injEq] at h
  exact ⟨h.1, h.2.2⟩

theorem step_endFrame {f f' : Frame} {fs fs' : List Frame} (frames : st.frames = f :: fs)
    (frames' : st'.frames = f' :: fs') :
    Step (endFrame r f fs st.out t ts) (endFrame r' f' fs' st'.out t ts) := by
  have both : (f :: fs).map Frame.spanless = (f' :: fs').map Frame.spanless := by
    rw [← frames, ← frames']
    exact congrArg State.frames same
  obtain ⟨first, rest⟩ := List.cons.inj both
  obtain ⟨stop, outer⟩ := stop_and_outer first
  have children : allSpanless st.out.reverse = allSpanless st'.out.reverse := by
    rw [allSpanless_eq_map, allSpanless_eq_map, List.map_reverse, List.map_reverse,
      out_spanless same]
  have closed : ∀ {i i' : Inline} (n : Nat), i.spanless = i'.spanless →
      Follows ({ frames := fs, out := i :: f.outer }, n)
        ({ frames := fs', out := i' :: f'.outer }, n) := by
    intro i i' n content
    refine ⟨?_, rfl⟩
    rw [State.spanless, State.spanless, List.map_cons, List.map_cons, content, outer, rest]
  unfold endFrame
  rw [stop]
  split
  · refine (destination_parallel t).bind ?_
    rintro ⟨href, resume⟩ _ rfl
    exact closed resume (congrArg (Inline.link href) children)
  · refine closed t.stop ?_
    unfold close
    split
    · exact congrArg Inline.strong children
    · exact congrArg Inline.strikethrough children
    · exact congrArg Inline.emphasis children

theorem step_take : Step (take r st t ts) (take r' st' t ts) := by
  cases kind : t.token with
  | brace =>
    simp only [take, kind]
    split
    · exact rfl
    · exact step_add same rfl _
  | widgetOpen =>
    simp only [take, kind]
    split
    · exact rfl
    · split
      · refine step_add same ?_ _
        rw [spanless, spanless, WidgetElement.spanless, WidgetElement.spanless, spanless_tagIn]
      · exact rfl
  | closeBrace =>
    simp only [take, kind]
    exact rfl
  | imageOpen =>
    simp only [take, kind]
    split
    · rename_i target rest _
      refine (destination_parallel target).bind ?_
      rintro ⟨src, resume⟩ _ rfl
      exact step_add same rfl _
    · exact step_addText same _ _
  | bracket =>
    simp only [take, kind]
    split
    · exact step_push same _ _ _
    · exact step_addText same _ _
  | backticks n =>
    simp only [take, kind]
    split
    · exact step_add same rfl _
    · exact step_addText same _ _
  | hardBreak =>
    simp only [take, kind]
    exact step_break same _ _
  | newline =>
    simp only [take, kind]
    rw [← endsInTwoSpaces_spanless st.out, out_spanless same, endsInTwoSpaces_spanless]
    exact step_break same _ _
  | escape =>
    simp only [take, kind]
    split
    · exact step_addText same _ _
    · exact step_addText same _ _
  | doubleStar | doubleUnderscore | doubleTilde | star | underscore =>
    simp only [take, kind, Stop.ofToken?]
    split
    · exact step_push same _ _ _
    · exact step_addText same _ _
  | linkTarget | closeBracket | closeParen | text | punct =>
    simp only [take, kind]
    exact step_addText same _ _

theorem step_next : Step (next r st t ts) (next r' st' t ts) := by
  have both : st.frames.map Frame.spanless = st'.frames.map Frame.spanless :=
    congrArg State.frames same
  unfold next
  cases frames : st.frames with
  | nil =>
    rw [frames] at both
    rw [List.map_eq_nil_iff.1 both.symm]
    exact step_take same
  | cons f fs =>
    cases frames' : st'.frames with
    | nil =>
      rw [frames, frames'] at both
      cases both
    | cons f' fs' =>
      rw [frames, frames'] at both
      dsimp only
      rw [(stop_and_outer (List.cons.inj both).1).1]
      split
      · exact step_endFrame same frames frames'
      · exact step_take same

theorem readFrom_parallel {resume : Nat} :
    Parallel SyntaxError.SameFault (fun out out' => out.map spanless = out'.map spanless)
      (readFrom r st resume ts) (readFrom r' st' resume ts) := by
  induction ts generalizing st st' resume with
  | nil =>
    show (State.unwind st.out st.frames).map spanless = (State.unwind st'.out st'.frames).map spanless
    rw [State.spanless_unwind, State.spanless_unwind]
    exact congrArg (fun s : State => State.unwind s.out s.frames) same
  | cons t ts ih =>
    rw [readFrom_cons, readFrom_cons]
    split
    · exact ih same
    · split
      · refine ih ?_
        rw [State.spanless_addText, State.spanless_addText, same]
      · refine (step_next same).bind ?_
        rintro ⟨st, resume⟩ ⟨st', _⟩ ⟨same', rfl⟩
        exact ih same'

end Reading

/-- Regions with the same text have the same inline content, but for spans, or the same fault. -/
theorem read_parallel {r r' : Region} (text : r.text = r'.text) :
    Parallel SyntaxError.SameFault (fun c c' => allSpanless c = allSpanless c') (read r)
      (read r') := by
  unfold read
  rw [text]
  refine (readFrom_parallel rfl).bind fun out out' same => ?_
  show allSpanless (trimStart out.trimEnd.reverse) = allSpanless (trimStart out'.trimEnd.reverse)
  rw [allSpanless_eq_map, allSpanless_eq_map, spanless_trimStart, spanless_trimStart,
    List.map_reverse, List.map_reverse, spanless_trimEnd, spanless_trimEnd, same]

end Inline
end Folio
