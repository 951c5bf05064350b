import Folio.Proofs.Markup.ReadContent
import Folio.Proofs.Markup.Spans

/-!
# Spans and errors in inline content

The tokens of a text stand in it one after another. So the widgets and expressions among them lie
in the text, and the errors of reading it are found in it. Main statements:

* `Lexeme.stand_readAll`: where the tokens of a text stand;
* `Inline.read_outcome`: the inline content of a faithful region lies in the source, or an error is
  found there.
-/

namespace Folio

/-! ### Tokens -/

/-- The characters of the tokens that widgets, expressions and links are read from. -/
def Token.Shapes : Token → Text → Prop
  | .brace, w => w = ['{']
  | .closeBrace, w => w = ['}']
  | .linkTarget, w => w = [']', '(']
  | .widgetOpen, w => ∃ c, isUpper c = true ∧ w = ['<', c]
  | _, _ => True

theorem Token.shapes_read (c : Char) (s : Text) :
    (Token.read c s).1.Shapes (c :: s.take (Token.read c s).2) := by
  unfold Token.read
  -- most tokens have no shape, and the braces are single characters
  split <;> try split
  all_goals first
    | trivial
    | rfl
    | skip
  · rename_i paren
    obtain ⟨t, rfl⟩ := List.head?_eq_some_iff.1 (beq_iff_eq.1 paren)
    rfl
  · rename_i upper
    cases s with
    | nil => cases upper
    | cons d t => exact ⟨d, upper, rfl⟩

namespace Lexeme

variable {s t : Text} {at_ : Nat}

/-- Tokens stand in a text one after another. -/
def Stand (s : Text) : List Lexeme → Prop
  | [] => True
  | t :: ts => s.IsRest t.start (join (t :: ts)) ∧ t.token.Shapes t.text ∧ Stand s ts

theorem stand_readFrom {before : Option Char} {p u : Text} (rest : s.IsRest at_ (p ++ u)) :
    Stand s (readFrom (at_ + Text.bytes p) before at_ (p ++ u)) ∧
      join (readFrom (at_ + Text.bytes p) before at_ (p ++ u)) = u := by
  generalize eq : p ++ u = t at rest
  induction t generalizing at_ before p u with
  | nil =>
    obtain ⟨rfl, rfl⟩ := List.append_eq_nil_iff.1 eq
    exact ⟨trivial, rfl⟩
  | cons c t ih =>
    cases p with
    | cons d p =>
      -- the character belongs to the token before
      obtain ⟨rfl, rfl⟩ := List.cons.inj eq
      have passed : at_ < at_ + Text.bytes (d :: p) := by
        have := d.utf8Size_pos
        rw [Text.bytes_cons]
        omega
      rw [readFrom, if_pos passed, Text.bytes_cons, ← Nat.add_assoc]
      exact ih rfl rest.cons
    | nil =>
      obtain rfl : u = c :: t := eq
      rw [readFrom, if_neg (by simp)]
      have shapes := Token.shapes_read c t
      generalize Token.read c t = taken at shapes ⊢
      obtain ⟨token, n⟩ := taken
      dsimp only at shapes ⊢
      have more : Stand s (readFrom (at_ + Text.bytes (c :: t.take n)) (some c)
            (at_ + c.utf8Size) t) ∧
          join (readFrom (at_ + Text.bytes (c :: t.take n)) (some c)
            (at_ + c.utf8Size) t) = t.drop n := by
        rw [Text.bytes_cons, ← Nat.add_assoc]
        exact ih (List.take_append_drop n t) rest.cons
      have whole : ∀ l : Lexeme, l.text = c :: t.take n →
          join (l :: readFrom (at_ + Text.bytes (c :: t.take n)) (some c)
            (at_ + c.utf8Size) t) = c :: t := by
        intro l text
        rw [join, List.flatMap_cons, ← join, more.2, text, List.cons_append, List.take_append_drop]
      refine ⟨⟨?_, shapes, more.1⟩, whole _ rfl⟩
      rw [whole _ rfl]
      exact rest

/-- The tokens of a text make it up. -/
theorem stand_readAll (s : Text) : Stand s (readAll s) := by
  have rest : s.IsRest 0 ([] ++ s) := Text.IsRest.refl s
  exact (stand_readFrom rest).1

theorem Stand.of_suffix {ts us : List Lexeme} (h : Stand s ts) (suffix : us <:+ ts) :
    Stand s us := by
  obtain ⟨front, rfl⟩ := suffix
  induction front with
  | nil => exact h
  | cons t front ih => exact ih h.2.2

theorem Stand.holds {t : Lexeme} {ts : List Lexeme} (h : Stand s (t :: ts)) :
    s.Holds t.start t.text := h.1.holds_of_begins ⟨join ts, rfl⟩

end Lexeme

namespace Inline

variable {source : Text} {covers : Span → Nat → Prop} {r : Region} {lo hi : Nat}

/-- Content lies in a range if what stands in it does. -/
theorem lies_isClosed : IsClosed (Inline.Lies source covers lo hi) where
  text _ := trivial
  code _ := trivial
  image _ _ := trivial
  softBreak := trivial
  lineBreak := trivial
  strong _ inside := allLie_iff.2 inside
  emphasis _ inside := allLie_iff.2 inside
  strikethrough _ inside := allLie_iff.2 inside
  link _ _ inside := allLie_iff.2 inside

/-! ### Reading -/

/-- The tag of a widget in a faithful region lies in the source. -/
theorem tagIn_lies {tag : OpenTag} {at_ stop : Nat} (h : Region.Faithful source r)
    (fits : tag.Fits r.text at_) (closes : r.text.Closes at_ stop) (le : tag.stop ≤ stop)
    (start : lo ≤ r.toSource at_) (within : r.toSource stop ≤ hi) :
    (tagIn r tag at_ stop).Lies source lo hi := by
  have visible : r.text.IsVisible at_ := (Text.holds_cons_iff.1 fits.named).1.isVisible rfl
  have eol := eol_not_mem_name fits.name
  have eol' : '\n' ∉ '<' :: tag.name.toList := by simpa using eol
  refine ⟨h.span_isPart visible closes start within, (h.holds fits.named eol').1, eol, ?_⟩
  rintro _ mem
  obtain ⟨p, among, rfl⟩ := List.mem_map.1 mem
  have prop := fits.props p among
  have before := h.toSource_le ⟨prop.start, closes.boundary, prop.closes.boundary⟩
  have after := h.toSource_le
    ⟨Nat.le_trans prop.stop le, prop.closes.isCut.stop, closes.isCut.stop⟩
  have span_eq : (tagIn r tag at_ stop).span = ⟨r.toSource at_, r.toSource stop⟩ :=
    h.span_of_closes closes
  rw [span_eq]
  exact h.span_isPart prop.visible prop.closes before after

section Reading

variable (h : Region.Faithful source r)

include h

/-- A destination that does not end is found at its opening parenthesis. -/
theorem destination_outcome {target : Lexeme} {ts : List Lexeme}
    (stand : Lexeme.Stand r.text (target :: ts)) (is_target : target.token = .linkTarget) :
    Outcome (SyntaxError.Points source) (fun _ => True) (destination r target ts) := by
  unfold destination
  dsimp only
  split
  · trivial
  · have shapes := stand.2.1
    rw [is_target] at shapes
    have held : r.text.Holds target.start [']', '('] := shapes ▸ stand.holds
    have paren : r.text.Holds (target.start + 1) ['('] := (Text.holds_cons_iff.1 held).2
    have found : SyntaxError.Points r.text
        { pos := target.start + 1, fault := .unclosedDelimiter '(' } :=
      SyntaxError.points_of_holds rfl paren List.not_mem_nil rfl
    exact h.points found

variable {t : Lexeme} {ts : List Lexeme}

/-- The expression at a brace lies in the source, or an error is found there. -/
theorem brace_outcome (stand : Lexeme.Stand r.text (t :: ts)) (kind : t.token = .brace)
    (lo_le : lo ≤ r.toSource 0) (le_hi : r.stop ≤ hi) :
    Outcome (fun e => SyntaxError.Points source (e.relocate r.toSource))
      (fun e => (r.span t.start (t.start + Text.bytes e)).IsPart source lo hi)
      (Expression.read t.start (Lexeme.join (t :: ts))) := by
  obtain ⟨rest, shapes, -⟩ := stand
  rw [kind] at shapes
  have join_eq : Lexeme.join (t :: ts) = '{' :: Lexeme.join ts := by
    rw [Lexeme.join, List.flatMap_cons, shapes]
    rfl
  rw [join_eq] at rest ⊢
  refine (Expression.read_outcome rest).mono (fun _ => h.points) ?_
  rintro e ⟨begins, body, rfl⟩
  have brace : r.text.Holds t.start ['{'] := rest.holds_of_begins ⟨_, rfl⟩
  have closes := (rest.holds_of_begins begins).closes rfl rfl
  have start := Nat.le_trans lo_le (h.toSource_zero_le brace.isBoundary)
  have stop := Nat.le_trans (h.toSource_le_stop closes.isCut.stop) le_hi
  exact h.span_isPart (brace.isVisible rfl) closes start stop

/-- The widget at an angle bracket lies in the source, or an error is found there. -/
theorem widget_outcome (stand : Lexeme.Stand r.text (t :: ts)) (kind : t.token = .widgetOpen)
    (lo_le : lo ≤ r.toSource 0) (le_hi : r.stop ≤ hi) :
    Outcome (fun e => SyntaxError.Points source (e.relocate r.toSource))
      (fun tag => (tagIn r tag t.start tag.stop).Lies source lo hi)
      (OpenTag.read t.start (Lexeme.join (t :: ts))) := by
  obtain ⟨rest, shapes, -⟩ := stand
  rw [kind] at shapes
  obtain ⟨c, upper, text⟩ := shapes
  have join_eq : Lexeme.join (t :: ts) = '<' :: c :: Lexeme.join ts := by
    rw [Lexeme.join, List.flatMap_cons, text]
    rfl
  rw [join_eq] at rest ⊢
  have angle : r.text.Holds t.start ['<'] := rest.holds_of_begins ⟨_, rfl⟩
  refine (OpenTag.read_outcome rest upper).mono (fun _ => h.points) ?_
  intro tag fits
  have start := Nat.le_trans lo_le (h.toSource_zero_le angle.isBoundary)
  have stop := Nat.le_trans (h.toSource_le_stop fits.closes.isCut.stop) le_hi
  exact tagIn_lies h fits fits.closes (Nat.le_refl _) start stop

/-- What a token adds lies in the source, or an error is found there. -/
theorem admits_of_stand (stand : Lexeme.Stand r.text (t :: ts)) (lo_le : lo ≤ r.toSource 0)
    (le_hi : r.stop ≤ hi) :
    Admits (Inline.Lies source covers lo hi) (SyntaxError.Points source) r t ts where
  expression _ kind read := (brace_outcome h stand kind lo_le le_hi).of_ok read
  widget _ kind read _ :=
    have lies := (widget_outcome h stand kind lo_le le_hi).of_ok read
    ⟨lies, lies.span.isCut.ordered⟩
  destination is_target := destination_outcome h stand is_target
  fails _ _ taken := by
    have shapes := stand.2.1
    cases taken with
    | openImage kind found failed =>
      obtain ⟨suffix, is_target⟩ := Lexeme.suffix_of_linkTarget? found
      have stand' := stand.of_suffix (suffix.trans (List.suffix_cons t ts))
      exact (destination_outcome h stand' is_target).of_error failed
    | openBrace kind failed => exact (brace_outcome h stand kind lo_le le_hi).of_error failed
    | closeBrace kind =>
      rw [kind] at shapes
      have held : r.text.Holds t.start ['}'] := shapes ▸ stand.holds
      have found : SyntaxError.Points r.text
          { pos := t.start, fault := .unmatchedDelimiter '}' } :=
        SyntaxError.points_of_holds rfl held List.not_mem_nil rfl
      exact h.points found
    | openWidget kind read =>
      rw [kind] at shapes
      obtain ⟨c, -, text⟩ := shapes
      have held : r.text.Holds t.start ['<', c] := text ▸ stand.holds
      have angle := (Text.holds_cons_iff.1 held).1
      exact SyntaxError.points_of_isVisible rfl (h.isVisible (angle.isVisible rfl))
    | badTag kind failed => exact (widget_outcome h stand kind lo_le le_hi).of_error failed

/-- The content of a faithful region lies in the source, or an error is found there. -/
theorem read_outcome (lo_le : lo ≤ r.toSource 0) (le_hi : r.stop ≤ hi) :
    Outcome (SyntaxError.Points source) (AllLie source covers lo hi) (read r) := by
  have stand := Lexeme.stand_readAll r.text
  refine (read_outcome_of_admits lies_isClosed fun t us suffix => ?_).mono
    (fun _ failed => failed) fun _ inside => allLie_iff.2 inside
  exact admits_of_stand h (stand.of_suffix suffix) lo_le le_hi

end Reading

end Inline
end Folio
