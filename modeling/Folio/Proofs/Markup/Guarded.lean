import Folio.Proofs.Markup.DocumentSpans

/-!
# Guarded text

Code, widgets and expressions are not read as prose, and a declaration is not to be looked for in
them. `Block.guarded` are their spans, at any depth. Main statements:

* `Block.Lies.within_of_mem_guarded`: what is guarded in a block lies where the block does;
* `Span.Within.isProtected`: where no declaration is, what a span covers stays in the stripped text.
-/

namespace Folio

open Declaration (scan)

/-! ### Guarded spans -/

mutual

/-- The spans of the widgets and the expressions in inline content, and of what is in the bodies of
the widgets. -/
def Inline.guarded : Inline → List Span
  | .text _ => []
  | .strong children => Inline.allGuarded children
  | .emphasis children => Inline.allGuarded children
  | .strikethrough children => Inline.allGuarded children
  | .code _ => []
  | .link _ children => Inline.allGuarded children
  | .image _ _ => []
  | .softBreak => []
  | .lineBreak => []
  | .widget (.mk tag _ children) => tag.span :: Block.allGuarded children
  | .expression _ span => [span]

/-- The spans of the widgets and the expressions in pieces of inline content. -/
def Inline.allGuarded : List Inline → List Span
  | [] => []
  | i :: is => Inline.guarded i ++ Inline.allGuarded is

/-- The spans of the code, the widgets and the expressions in a block. -/
def Block.guarded : Block → List Span
  | .heading _ children _ => Inline.allGuarded children
  | .paragraph children _ => Inline.allGuarded children
  | .quote children _ => Block.allGuarded children
  | .list _ _ _ items _ => ListItem.allGuarded items
  | .code _ _ span => [span]
  | .thematicBreak _ => []
  | .widget tag _ children => tag.span :: Block.allGuarded children

/-- The spans of the code, the widgets and the expressions in blocks. -/
def Block.allGuarded : List Block → List Span
  | [] => []
  | b :: bs => Block.guarded b ++ Block.allGuarded bs

/-- The spans of the code, the widgets and the expressions in a list item. -/
def ListItem.guarded : ListItem → List Span
  | .mk children _ => Block.allGuarded children

/-- The spans of the code, the widgets and the expressions in list items. -/
def ListItem.allGuarded : List ListItem → List Span
  | [] => []
  | i :: is => ListItem.guarded i ++ ListItem.allGuarded is

end

/-! ### Where guarded text lies -/

/-- A span covers a part of a source in a range. -/
structure Span.Within (source : Text) (lo hi : Nat) (s : Span) : Prop where
  lo : lo ≤ s.start
  exists_stop : ∃ stop ≤ hi, source.IsCut s.start stop ∧ (s.stop = stop ∨ s.Reaches source stop)

section Within

variable {source : Text} {lo hi lo' hi' : Nat} {s : Span}

theorem Span.Within.widen (h : s.Within source lo hi) (le : lo' ≤ lo) (ge : hi ≤ hi') :
    s.Within source lo' hi' := by
  obtain ⟨start, stop, within, rest⟩ := h
  exact ⟨Nat.le_trans le start, stop, Nat.le_trans within ge, rest⟩

theorem Span.IsPart.within (h : s.IsPart source lo hi) : s.Within source lo hi :=
  ⟨h.lo, s.stop, h.hi, h.isCut, .inl rfl⟩

theorem Span.Reaches.isCut_start {stop : Nat} (h : s.Reaches source stop) :
    source.IsCut s.start stop := by
  obtain ⟨boundary, pos, c, le, held, rfl, -⟩ := h
  have stop_boundary := held.isBoundary_stop
  rw [Text.bytes_cons, Text.bytes_nil, Nat.add_zero] at stop_boundary
  exact ⟨Nat.le_add_right_of_le le, boundary, stop_boundary⟩

/-- A range in which a block lies is a range. -/
theorem Block.Lies.le {b : Block} (h : b.Lies source (Span.Reaches source) lo hi) : lo ≤ hi := by
  have of_covers : ∀ {s : Span} {stop : Nat}, s.Reaches source stop → lo ≤ s.start → stop ≤ hi →
      lo ≤ hi :=
    fun covered start within => Nat.le_trans start (Nat.le_trans covered.isCut_start.ordered within)
  cases b with
  | widget tag selfClosing children =>
    have part := h.1.span
    exact Nat.le_trans part.lo (Nat.le_trans part.isCut.ordered part.hi)
  | code info code span =>
    obtain ⟨stop, covered, start, within⟩ := h
    exact of_covers covered start within
  | thematicBreak span =>
    obtain ⟨stop, covered, start, within⟩ := h
    exact of_covers covered start within
  | heading | paragraph | quote | list =>
    obtain ⟨stop, covered, start, within, -⟩ := h
    exact of_covers covered start within

theorem ListItem.Lies.le {i : ListItem} (h : i.Lies source (Span.Reaches source) lo hi) :
    lo ≤ hi := by
  obtain ⟨children, span⟩ := i
  obtain ⟨stop, covered, start, within, -⟩ := h
  exact Nat.le_trans start (Nat.le_trans covered.isCut_start.ordered within)

theorem Block.AllLie.le {bs : List Block} (h : Block.AllLie source (Span.Reaches source) lo hi bs) :
    lo ≤ hi := by
  induction bs generalizing lo with
  | nil => exact h
  | cons b bs ih =>
    obtain ⟨mid, first, rest⟩ := h
    exact Nat.le_trans first.le (ih rest)

theorem ListItem.AllLie.le {is : List ListItem}
    (h : ListItem.AllLie source (Span.Reaches source) lo hi is) : lo ≤ hi := by
  induction is generalizing lo with
  | nil => exact h
  | cons i is ih =>
    obtain ⟨mid, first, rest⟩ := h
    exact Nat.le_trans first.le (ih rest)

end Within

mutual

theorem Inline.Lies.within_of_mem_guarded {source : Text} {lo hi : Nat} :
    (i : Inline) → i.Lies source (Span.Reaches source) lo hi →
      ∀ s ∈ i.guarded, s.Within source lo hi
  | .text _, _ => List.forall_mem_nil _
  | .strong children, h => Inline.AllLie.within_of_mem_guarded children h
  | .emphasis children, h => Inline.AllLie.within_of_mem_guarded children h
  | .strikethrough children, h => Inline.AllLie.within_of_mem_guarded children h
  | .code _, _ => List.forall_mem_nil _
  | .link _ children, h => Inline.AllLie.within_of_mem_guarded children h
  | .image _ _, _ => List.forall_mem_nil _
  | .softBreak, _ => List.forall_mem_nil _
  | .lineBreak, _ => List.forall_mem_nil _
  | .widget (.mk _ _ children), ⟨tag, inside⟩ => List.forall_mem_cons.2
    ⟨tag.span.within, fun s mem =>
      (Block.AllLie.within_of_mem_guarded children inside s mem).widen tag.span.lo tag.span.hi⟩
  | .expression _ _, part => List.forall_mem_singleton.2 part.within

theorem Inline.AllLie.within_of_mem_guarded {source : Text} {lo hi : Nat} :
    (is : List Inline) → Inline.AllLie source (Span.Reaches source) lo hi is →
      ∀ s ∈ Inline.allGuarded is, s.Within source lo hi
  | [], _ => List.forall_mem_nil _
  | i :: is, ⟨first, rest⟩ => List.forall_mem_append.2
    ⟨Inline.Lies.within_of_mem_guarded i first, Inline.AllLie.within_of_mem_guarded is rest⟩

/-- What is guarded in a block lies where the block does. -/
theorem Block.Lies.within_of_mem_guarded {source : Text} {lo hi : Nat} :
    (b : Block) → b.Lies source (Span.Reaches source) lo hi →
      ∀ s ∈ b.guarded, s.Within source lo hi
  | .heading _ children _, ⟨_, _, start, within, inside⟩ => fun s mem =>
    (Inline.AllLie.within_of_mem_guarded children inside s mem).widen start within
  | .paragraph children _, ⟨_, _, start, within, inside⟩ => fun s mem =>
    (Inline.AllLie.within_of_mem_guarded children inside s mem).widen start within
  | .quote children _, ⟨_, _, start, within, inside⟩ => fun s mem =>
    (Block.AllLie.within_of_mem_guarded children inside s mem).widen start within
  | .list _ _ _ items _, ⟨_, _, start, within, inside⟩ => fun s mem =>
    (ListItem.AllLie.within_of_mem_guarded items inside s mem).widen start within
  | .code _ _ _, ⟨stop, covered, start, within⟩ => List.forall_mem_singleton.2
    ⟨start, stop, within, covered.isCut_start, .inr covered⟩
  | .thematicBreak _, _ => List.forall_mem_nil _
  | .widget _ _ children, ⟨tag, inside⟩ => List.forall_mem_cons.2
    ⟨tag.span.within, fun s mem =>
      (Block.AllLie.within_of_mem_guarded children inside s mem).widen tag.span.lo tag.span.hi⟩

theorem Block.AllLie.within_of_mem_guarded {source : Text} {lo hi : Nat} :
    (bs : List Block) → Block.AllLie source (Span.Reaches source) lo hi bs →
      ∀ s ∈ Block.allGuarded bs, s.Within source lo hi
  | [], _ => List.forall_mem_nil _
  | b :: bs, ⟨_, first, rest⟩ => List.forall_mem_append.2
    ⟨fun s mem => (Block.Lies.within_of_mem_guarded b first s mem).widen (Nat.le_refl _) rest.le,
      fun s mem => (Block.AllLie.within_of_mem_guarded bs rest s mem).widen first.le (Nat.le_refl _)⟩

theorem ListItem.Lies.within_of_mem_guarded {source : Text} {lo hi : Nat} :
    (i : ListItem) → i.Lies source (Span.Reaches source) lo hi →
      ∀ s ∈ i.guarded, s.Within source lo hi
  | .mk children _, ⟨_, _, start, within, inside⟩ => fun s mem =>
    (Block.AllLie.within_of_mem_guarded children inside s mem).widen start within

theorem ListItem.AllLie.within_of_mem_guarded {source : Text} {lo hi : Nat} :
    (is : List ListItem) → ListItem.AllLie source (Span.Reaches source) lo hi is →
      ∀ s ∈ ListItem.allGuarded is, s.Within source lo hi
  | [], _ => List.forall_mem_nil _
  | i :: is, ⟨_, first, rest⟩ => List.forall_mem_append.2
    ⟨fun s mem => (ListItem.Lies.within_of_mem_guarded i first s mem).widen (Nat.le_refl _) rest.le,
      fun s mem => (ListItem.AllLie.within_of_mem_guarded is rest s mem).widen first.le
        (Nat.le_refl _)⟩

end

/-! ### Protected text -/

theorem holds_stripSpans {spans : List Span} {source t : Text} {pos : Nat}
    (held : source.Holds pos t)
    (apart : ∀ s ∈ spans, pos + Text.bytes t ≤ s.start ∨ s.stop ≤ pos) :
    (stripSpans spans 0 source).Holds pos t := by
  obtain ⟨after, before, rfl, size⟩ := held
  refine ⟨stripSpans spans (pos + Text.bytes t) after, stripSpans spans 0 before, ?_,
    (bytes_stripSpans ..).trans size⟩
  rw [stripSpans_append, stripSpans_append, Nat.zero_add, size, stripSpans_of_apart apart]

/-- What is apart from all declarations stays in the stripped text. -/
theorem holds_strip {source t : Text} {pos : Nat} (held : source.Holds pos t)
    (apart : ∀ d ∈ scan source, pos + Text.bytes t ≤ d.span.start ∨ d.span.stop ≤ pos) :
    (strip source).Holds pos t :=
  holds_stripSpans held (List.forall_mem_map.2 apart)

/-- What a span covers is apart from all declarations, and stays in the stripped text. -/
def Span.IsProtected (source : Text) (s : Span) : Prop :=
  ∃ t, source.Holds s.start t ∧ (strip source).Holds s.start t ∧
    (s.stop = s.start + Text.bytes t ∨ s.Reaches source (s.start + Text.bytes t)) ∧
    ∀ d ∈ scan source, s.start + Text.bytes t ≤ d.span.start ∨ d.span.stop ≤ s.start

theorem Span.Within.isProtected {source : Text} {lo hi : Nat} {s : Span}
    (h : s.Within source lo hi) (apart : ∀ d ∈ scan source, hi ≤ d.span.start ∨ d.span.stop ≤ lo) :
    s.IsProtected source := by
  obtain ⟨start, stop, within, cut, ends⟩ := h
  obtain ⟨t, held, rfl⟩ := cut.exists_holds
  have apart' : ∀ d ∈ scan source,
      s.start + Text.bytes t ≤ d.span.start ∨ d.span.stop ≤ s.start :=
    fun d mem => (apart d mem).imp (Nat.le_trans within) (Nat.le_trans · start)
  exact ⟨t, held, holds_strip held apart', ends, apart'⟩

end Folio
