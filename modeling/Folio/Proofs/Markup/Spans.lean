import Folio.Proofs.Markup.TagSpans

/-!
# Spans of a document

What it means that the spans of a document lie in its source: each of them starts at a visible
offset or at a boundary, children lie within their parents, and siblings follow one another. The
end of a block's span is not always where the block ends, so the predicates on blocks have a
relation `covers` between a span and the end of what it covers.

* `Inline.Lies` and `Block.Lies`: the spans in a tree lie in a range;
* `Span.Reaches`: how far the span of a range of lines reaches.
-/

namespace Folio

/-- A span is a part of a source in a range, and something stands at its start. -/
structure Span.IsPart (source : Text) (lo hi : Nat) (s : Span) : Prop where
  lo : lo ≤ s.start
  visible : source.IsVisible s.start
  isCut : source.IsCut s.start s.stop
  hi : s.stop ≤ hi

/-- A tag and its props lie in a range, and the tag starts with `<` and the widget's name. -/
structure WidgetTag.Lies (source : Text) (lo hi : Nat) (t : WidgetTag) : Prop where
  span : t.span.IsPart source lo hi
  named : source.Holds t.span.start ('<' :: t.name.toList)
  name : '\n' ∉ t.name.toList
  props : ∀ p ∈ t.props, p.span.IsPart source t.span.start t.span.stop

mutual

/-- The spans in inline content lie in a range. -/
def Inline.Lies (source : Text) (covers : Span → Nat → Prop) (lo hi : Nat) : Inline → Prop
  | .text _ => True
  | .strong children => Inline.AllLie source covers lo hi children
  | .emphasis children => Inline.AllLie source covers lo hi children
  | .strikethrough children => Inline.AllLie source covers lo hi children
  | .code _ => True
  | .link _ children => Inline.AllLie source covers lo hi children
  | .image _ _ => True
  | .softBreak => True
  | .lineBreak => True
  | .widget (.mk tag _ children) =>
    tag.Lies source lo hi ∧ Block.AllLie source covers tag.span.start tag.span.stop children
  | .expression _ span => span.IsPart source lo hi

/-- The spans in pieces of inline content lie in a range. -/
def Inline.AllLie (source : Text) (covers : Span → Nat → Prop) (lo hi : Nat) : List Inline → Prop
  | [] => True
  | i :: is => Inline.Lies source covers lo hi i ∧ Inline.AllLie source covers lo hi is

/-- The spans in a block lie in a range. -/
def Block.Lies (source : Text) (covers : Span → Nat → Prop) (lo hi : Nat) : Block → Prop
  | .heading _ children span =>
    ∃ stop, covers span stop ∧ lo ≤ span.start ∧ stop ≤ hi ∧
      Inline.AllLie source covers span.start stop children
  | .paragraph children span =>
    ∃ stop, covers span stop ∧ lo ≤ span.start ∧ stop ≤ hi ∧
      Inline.AllLie source covers span.start stop children
  | .quote children span =>
    ∃ stop, covers span stop ∧ lo ≤ span.start ∧ stop ≤ hi ∧
      Block.AllLie source covers span.start stop children
  | .list _ _ _ items span =>
    ∃ stop, covers span stop ∧ lo ≤ span.start ∧ stop ≤ hi ∧
      ListItem.AllLie source covers span.start stop items
  | .code _ _ span => ∃ stop, covers span stop ∧ lo ≤ span.start ∧ stop ≤ hi
  | .thematicBreak span => ∃ stop, covers span stop ∧ lo ≤ span.start ∧ stop ≤ hi
  | .widget tag _ children =>
    tag.Lies source lo hi ∧ Block.AllLie source covers tag.span.start tag.span.stop children

/-- The spans of blocks lie in a range, one after another. -/
def Block.AllLie (source : Text) (covers : Span → Nat → Prop) (lo hi : Nat) : List Block → Prop
  | [] => lo ≤ hi
  | b :: bs => ∃ mid, Block.Lies source covers lo mid b ∧ Block.AllLie source covers mid hi bs

/-- The spans in a list item lie in a range. -/
def ListItem.Lies (source : Text) (covers : Span → Nat → Prop) (lo hi : Nat) : ListItem → Prop
  | .mk children span =>
    ∃ stop, covers span stop ∧ lo ≤ span.start ∧ stop ≤ hi ∧
      Block.AllLie source covers span.start stop children

/-- The spans of list items lie in a range, one after another. -/
def ListItem.AllLie (source : Text) (covers : Span → Nat → Prop) (lo hi : Nat) :
    List ListItem → Prop
  | [] => lo ≤ hi
  | i :: is => ∃ mid, ListItem.Lies source covers lo mid i ∧ ListItem.AllLie source covers mid hi is

end

theorem Inline.allLie_iff {source : Text} {covers : Span → Nat → Prop} {lo hi : Nat}
    {is : List Inline} :
    Inline.AllLie source covers lo hi is ↔ ∀ i ∈ is, i.Lies source covers lo hi := by
  induction is with
  | nil => simp [Inline.AllLie]
  | cons i is ih => rw [Inline.AllLie, ih, List.forall_mem_cons]

/-! A range may be widened. -/

theorem Span.IsPart.widen {source : Text} {lo hi lo' hi' : Nat} {s : Span}
    (h : s.IsPart source lo hi) (le : lo' ≤ lo) (ge : hi ≤ hi') : s.IsPart source lo' hi' :=
  ⟨Nat.le_trans le h.lo, h.visible, h.isCut, Nat.le_trans h.hi ge⟩

theorem Block.Lies.widen {source : Text} {covers : Span → Nat → Prop} {lo hi lo' hi' : Nat}
    {b : Block} (h : b.Lies source covers lo hi) (le : lo' ≤ lo) (ge : hi ≤ hi') :
    b.Lies source covers lo' hi' := by
  cases b with
  | widget tag selfClosing children =>
    obtain ⟨tag_lies, inside⟩ := h
    exact ⟨⟨tag_lies.span.widen le ge, tag_lies.named, tag_lies.name, tag_lies.props⟩, inside⟩
  | code info code span =>
    obtain ⟨stop, covered, start, within⟩ := h
    exact ⟨stop, covered, Nat.le_trans le start, Nat.le_trans within ge⟩
  | thematicBreak span =>
    obtain ⟨stop, covered, start, within⟩ := h
    exact ⟨stop, covered, Nat.le_trans le start, Nat.le_trans within ge⟩
  | heading | paragraph | quote | list =>
    obtain ⟨stop, covered, start, within, inside⟩ := h
    exact ⟨stop, covered, Nat.le_trans le start, Nat.le_trans within ge, inside⟩

theorem ListItem.Lies.widen {source : Text} {covers : Span → Nat → Prop} {lo hi lo' hi' : Nat}
    {i : ListItem} (h : i.Lies source covers lo hi) (le : lo' ≤ lo) (ge : hi ≤ hi') :
    i.Lies source covers lo' hi' := by
  obtain ⟨children, span⟩ := i
  obtain ⟨stop, covered, start, within, inside⟩ := h
  exact ⟨stop, covered, Nat.le_trans le start, Nat.le_trans within ge, inside⟩

/-! A span may be taken to cover more. -/

mutual

theorem Inline.Lies.mono {source : Text} {covers covers' : Span → Nat → Prop} {lo hi : Nat}
    (weaken : ∀ s n, covers s n → covers' s n) :
    (i : Inline) → i.Lies source covers lo hi → i.Lies source covers' lo hi
  | .text _, _ => trivial
  | .strong children, lies => Inline.AllLie.mono weaken children lies
  | .emphasis children, lies => Inline.AllLie.mono weaken children lies
  | .strikethrough children, lies => Inline.AllLie.mono weaken children lies
  | .code _, _ => trivial
  | .link _ children, lies => Inline.AllLie.mono weaken children lies
  | .image _ _, _ => trivial
  | .softBreak, _ => trivial
  | .lineBreak, _ => trivial
  | .widget (.mk _ _ children), ⟨tag, inside⟩ => ⟨tag, Block.AllLie.mono weaken children inside⟩
  | .expression _ _, part => part

theorem Inline.AllLie.mono {source : Text} {covers covers' : Span → Nat → Prop} {lo hi : Nat}
    (weaken : ∀ s n, covers s n → covers' s n) :
    (is : List Inline) → Inline.AllLie source covers lo hi is →
      Inline.AllLie source covers' lo hi is
  | [], _ => trivial
  | i :: is, ⟨first, rest⟩ =>
    ⟨Inline.Lies.mono weaken i first, Inline.AllLie.mono weaken is rest⟩

theorem Block.Lies.mono {source : Text} {covers covers' : Span → Nat → Prop} {lo hi : Nat}
    (weaken : ∀ s n, covers s n → covers' s n) :
    (b : Block) → b.Lies source covers lo hi → b.Lies source covers' lo hi
  | .heading _ children _, ⟨stop, covered, start, within, inside⟩ =>
    ⟨stop, weaken _ _ covered, start, within, Inline.AllLie.mono weaken children inside⟩
  | .paragraph children _, ⟨stop, covered, start, within, inside⟩ =>
    ⟨stop, weaken _ _ covered, start, within, Inline.AllLie.mono weaken children inside⟩
  | .quote children _, ⟨stop, covered, start, within, inside⟩ =>
    ⟨stop, weaken _ _ covered, start, within, Block.AllLie.mono weaken children inside⟩
  | .list _ _ _ items _, ⟨stop, covered, start, within, inside⟩ =>
    ⟨stop, weaken _ _ covered, start, within, ListItem.AllLie.mono weaken items inside⟩
  | .code _ _ _, ⟨stop, covered, inside⟩ => ⟨stop, weaken _ _ covered, inside⟩
  | .thematicBreak _, ⟨stop, covered, inside⟩ => ⟨stop, weaken _ _ covered, inside⟩
  | .widget _ _ children, ⟨tag, inside⟩ => ⟨tag, Block.AllLie.mono weaken children inside⟩

theorem Block.AllLie.mono {source : Text} {covers covers' : Span → Nat → Prop} {lo hi : Nat}
    (weaken : ∀ s n, covers s n → covers' s n) :
    (bs : List Block) → Block.AllLie source covers lo hi bs → Block.AllLie source covers' lo hi bs
  | [], le => le
  | b :: bs, ⟨mid, first, rest⟩ =>
    ⟨mid, Block.Lies.mono weaken b first, Block.AllLie.mono weaken bs rest⟩

theorem ListItem.Lies.mono {source : Text} {covers covers' : Span → Nat → Prop} {lo hi : Nat}
    (weaken : ∀ s n, covers s n → covers' s n) :
    (i : ListItem) → i.Lies source covers lo hi → i.Lies source covers' lo hi
  | .mk children _, ⟨stop, covered, start, within, inside⟩ =>
    ⟨stop, weaken _ _ covered, start, within, Block.AllLie.mono weaken children inside⟩

theorem ListItem.AllLie.mono {source : Text} {covers covers' : Span → Nat → Prop} {lo hi : Nat}
    (weaken : ∀ s n, covers s n → covers' s n) :
    (is : List ListItem) → ListItem.AllLie source covers lo hi is →
      ListItem.AllLie source covers' lo hi is
  | [], le => le
  | i :: is, ⟨mid, first, rest⟩ =>
    ⟨mid, ListItem.Lies.mono weaken i first, ListItem.AllLie.mono weaken is rest⟩

end

/-! ### Ends of spans -/

/-- What a span covers ends with a character at an offset `pos`. The span itself runs past that
offset by twice the size of the character less one, or by one byte if a line feed that joins two
pieces has been placed at the character. -/
def Span.Reaches (source : Text) (s : Span) (stop : Nat) : Prop :=
  source.isBoundary s.start = true ∧ ∃ pos c, s.start ≤ pos ∧ source.Holds pos [c] ∧
    pos + c.utf8Size = stop ∧
      (s.stop = pos + (2 * c.utf8Size - 1) ∨ Text.isBlankChar c = true ∧ s.stop = pos + 1)

/-- Where all characters are of one byte, a span ends where what it covers does. -/
theorem Span.Reaches.isCut {source : Text} {s : Span} {stop : Nat} (h : s.Reaches source stop)
    (small : ∀ c ∈ source, c.utf8Size = 1) : source.IsCut s.start s.stop ∧ s.stop = stop := by
  obtain ⟨boundary, pos, c, le, held, rfl, ends⟩ := h
  have size := small c (held.mem (List.mem_singleton_self c))
  have stop_eq : s.stop = pos + c.utf8Size := by
    rcases ends with eq | ⟨-, eq⟩ <;> omega
  have stop_boundary := held.isBoundary_stop
  rw [Text.bytes_cons, Text.bytes_nil, Nat.add_zero] at stop_boundary
  refine ⟨⟨by omega, boundary, ?_⟩, stop_eq⟩
  rwa [stop_eq]

namespace Region.Faithful

variable {source : Text} {r : Region} {start n : Nat} {c : Char}

/-- The span of a range that ends with a character of a line. -/
theorem span_reaches (h : Faithful source r) (boundary : r.text.isBoundary start = true)
    (held : r.text.Holds n [c]) (le : start ≤ n) (visible : c ≠ '\n') :
    (r.span start (n + c.utf8Size)).Reaches source (r.toSource (n + c.utf8Size)) := by
  obtain ⟨stands, next⟩ := (h.joins held).holds visible
  have ordered := h.toSource_le ⟨le, boundary, held.isBoundary⟩
  rw [h.span_eq boundary held le]
  exact ⟨h.isBoundary_toSource boundary, r.toSource n, c, ordered, stands, next, .inl rfl⟩

/-- The span of any range that is not empty. -/
theorem exists_span_reaches (h : Faithful source r) (boundary : r.text.isBoundary start = true)
    (held : r.text.Holds n [c]) (le : start ≤ n) :
    ∃ stop ≤ r.toSource (n + c.utf8Size),
      (r.span start (n + c.utf8Size)).Reaches source stop := by
  have ordered := h.toSource_le ⟨le, boundary, held.isBoundary⟩
  have opens := h.isBoundary_toSource boundary
  obtain ⟨d, stands, ⟨rfl, next⟩ | ⟨rfl, blank, le'⟩⟩ := h.joins held
  · rw [h.span_eq boundary held le]
    exact ⟨_, Nat.le_of_eq next, opens, r.toSource n, c, ordered, stands, rfl, .inl rfl⟩
  · rw [h.span_eq boundary held le]
    exact ⟨_, le', opens, r.toSource n, d, ordered, stands, rfl, .inr ⟨blank, rfl⟩⟩

/-- The span of a range that ends with a character of one byte. -/
theorem span_isPart {lo hi stop : Nat} (h : Faithful source r)
    (visible : r.text.IsVisible start) (closes : r.text.Closes start stop)
    (le : lo ≤ r.toSource start) (ge : r.toSource stop ≤ hi) :
    (r.span start stop).IsPart source lo hi := by
  rw [h.span_of_closes closes]
  exact ⟨le, h.isVisible visible, (h.closes closes).isCut, ge⟩

end Region.Faithful
end Folio
