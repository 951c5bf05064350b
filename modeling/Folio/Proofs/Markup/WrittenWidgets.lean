import Folio.Proofs.Markup.Snippets
import Folio.Proofs.Markup.WrittenTags

/-!
# Widgets as they are written

A widget that is written on lines of its own is one block, wherever it stands: a tag that closes
itself, or an opening tag, the lines of a body and a closing tag.

* `isSnippet_selfClosing`;
* `exists_blockAt_enclosing`: what is in the widget is what its body says on its own;
* `isSnippet_enclosing`: the same of a body without tags, code and fences.
-/

namespace Folio

open Block (textFrom tailAt)

/-- The tag of a widget that is written, without its spans. -/
def plainTag (name : Text) (ps : List PlainProp) : WidgetTag where
  name := String.ofList name
  props := ps.map PlainProp.prop
  span := ⟨0, 0⟩

section Opening

variable {name w v : Text} {ps : List PlainProp} {selfClosing : Bool} {r : Region} {l : Line}
  {ls : List Line} {tag : OpenTag}

theorem isWidgetStart_write (named : IsTagName name) :
    isWidgetStart (OpenTag.write name ps selfClosing) = true := by
  obtain ⟨starts, -⟩ := named
  cases name with
  | nil => cases starts
  | cons c name => exact starts

/-- What is read from an opening tag that is written. -/
structure IsRead (tag : OpenTag) (name : Text) (ps : List PlainProp) (selfClosing : Bool) (stop : Nat) :
    Prop where
  name : tag.name = String.ofList name
  props : tag.props.map OpenTag.unspanned = ps.map PlainProp.prop
  selfClosing : tag.selfClosing = selfClosing
  stop : tag.stop = stop

theorem IsRead.spanless_tagIn {n : Nat} (read : IsRead tag name ps selfClosing n) (start stop : Nat) :
    (Inline.tagIn r tag start stop).spanless = plainTag name ps := by
  simp only [Inline.tagIn, WidgetTag.spanless, plainTag, List.map_map, read.name, ← read.props]
  rfl

/-- The opening tag at a line is read back. -/
theorem exists_tagAt (named : IsTagName name) (plain : ∀ p ∈ ps, p.IsPlain)
    (text : l.text = OpenTag.write name ps selfClosing) (ls : List Line) :
    ∃ tag, Block.tagAt l ls = .ok tag ∧ IsRead tag name ps selfClosing l.stop := by
  obtain ⟨props, contents, read⟩ := OpenTag.exists_read_write l.start named plain selfClosing
    (l.ending.text ++ Line.join ls)
  refine ⟨{ name := String.ofList name, props, selfClosing, stop := l.stop }, ?_,
    ⟨rfl, contents, rfl, rfl⟩⟩
  rw [Block.tagAt, Line.join_cons, Line.raw, List.append_assoc, Line.stop, text]
  exact read

/-- What follows a part of some lines. -/
theorem textFrom_append (flush : indentation l.text = 0) (text : Line.join (l :: ls) = w ++ v) :
    textFrom l ls (l.start + Text.bytes w) = v := by
  rw [textFrom, flush, List.drop_zero, Nat.add_zero, text, Nat.add_sub_cancel_left,
    Text.dropBytes_append]

end Opening

section Snippets

variable {name : Text} {ps : List PlainProp}

theorem starts_write (named : IsTagName name) (selfClosing : Bool)
    (qs : List (Text × LineEnding)) :
    ∀ q ∈ ((OpenTag.write name ps selfClosing, LineEnding.lf) :: qs).head?,
      startsBlock q.1 = true ∧ Text.isBlank q.1 = false := by
  rintro q ⟨⟩
  have kind : isWidgetStart (OpenTag.write name ps selfClosing) = true := isWidgetStart_write named
  refine ⟨?_, isBlank_of_head? (head?_of_isWidgetStart kind)⟩
  rw [startsBlock, kind, Bool.or_true, Bool.true_or]

/-- A widget without a body is one block. -/
theorem isSnippet_selfClosing (named : IsTagName name) (plain : ∀ p ∈ ps, p.IsPlain)
    (us : List Text) :
    IsSnippet [(OpenTag.write name ps true, .lf)] us (.widget (plainTag name ps) true []) where
  starts := starts_write named true []
  taken := by
    intro r l ls rest suffix text _
    obtain ⟨l_pair, none⟩ := List.cons.inj text
    obtain rfl := List.map_eq_nil_iff.1 none
    have l_text : l.text = OpenTag.write name ps true := congrArg Prod.fst l_pair
    have l_ending : l.ending = .lf := congrArg Prod.snd l_pair
    have flush : indentation l.text = 0 := by rw [l_text]; rfl
    have kind : Block.opening l.text = .widget := by
      rw [l_text]
      exact Block.opening_of_isWidgetStart (isWidgetStart_write named)
    obtain ⟨tag, tag_eq, read⟩ := exists_tagAt named plain l_text rest
    have closes : tag.selfClosing = true := read.selfClosing
    have tail : tailAt l rest tag.stop = [] := by
      rw [tailAt, read.stop, Line.stop, textFrom_append flush (v := '\n' :: Line.join rest)]
      · rfl
      · rw [Line.join_cons, Line.raw, l_ending, List.append_assoc]
        rfl
    refine ⟨.widget (Inline.tagIn r tag l.start tag.stop) true [], tag.stop, ?_, ?_,
      List.forall_mem_nil _, ?_⟩
    · rw [Block.blockAt_eq, kind, List.nil_append]
      dsimp only
      rw [Block.widgetAt_eq, tag_eq]
      dsimp only
      rw [Block.bodyOf, closes, if_pos rfl, flush]
      dsimp only [bind, Except.bind]
      rw [tail]
      rfl
    · rw [Block.spanless, read.spanless_tagIn]
      rfl
    · intro m mem
      have after := (Line.whole_of_suffix suffix).2.2 m mem
      have le : l.stop ≤ l.next := Nat.le_add_right ..
      rw [read.stop]
      exact le.trans after

/-- Lines as the body of a widget. -/
def bodyText (inside : List Text) : Text := '\n' :: inside.flatMap (· ++ ['\n'])

/-- A widget with a body on lines of its own. -/
def enclosing (name : Text) (ps : List PlainProp) (inside : List Text) : List (Text × LineEnding) :=
  (OpenTag.write name ps false, .lf) ::
    (inside.map (·, LineEnding.lf) ++ [(ClosingTag.write name, .lf)])

/-- The body between an opening tag and the closing tag that is found after it. -/
theorem exists_bodyOf (at_ : Nat) {levels : Nat} {r : Region} {tag : OpenTag} {front body after : Text}
    {children : List Block} (text : r.text = front ++ (body ++ (ClosingTag.write name ++ after)))
    (read : IsRead tag name ps false (Text.bytes front))
    (closing : ClosingTag.find? name false (Text.bytes front)
      (body ++ (ClosingTag.write name ++ after)) =
        some { start := Text.bytes front + Text.bytes body
               stop := Text.bytes front + Text.bytes body + Text.bytes (ClosingTag.write name) })
    (content : (Block.dedent (Region.root body) >>= Block.parse levels []).map Block.allSpanless =
      .ok children) :
    ∃ bs, Block.bodyOf (Block.parse levels []) r at_ tag (body ++ (ClosingTag.write name ++ after)) =
      .ok (bs, Text.bytes front + Text.bytes body + Text.bytes (ClosingTag.write name)) ∧
      Block.allSpanless bs = children := by
  obtain ⟨inner, sliced⟩ : ∃ inner, Block.slice r (Text.bytes front)
      (Text.bytes front + Text.bytes body) = .ok inner := by
    refine Block.slice_isOk ?_
    rw [text]
    exact Text.isCut_of_parts front body _
  have inner_text : inner.text = body := by
    refine (Block.fills_of_slice sliced).unique ⟨⟨ClosingTag.write name ++ after, ?_⟩, rfl⟩
    exact ⟨front, text, rfl⟩
  have same : Block.SameText (Region.root body) inner := by
    rw [Block.SameText, Region.text_root, inner_text]
  have alike : Alike Block.SameBlocks (Block.dedent (Region.root body) >>= Block.parse levels [])
      (Block.dedent inner >>= Block.parse levels []) :=
    (Block.dedent_parallel same).alike.bind fun _ _ texts =>
      (Block.parse_parallel levels [] texts).alike
  obtain ⟨own, done, rfl⟩ : ∃ own, (Block.dedent (Region.root body) >>= Block.parse levels []) =
      .ok own ∧ Block.allSpanless own = children := by
    cases done : Block.dedent (Region.root body) >>= Block.parse levels [] with
    | error e =>
      rw [done] at content
      cases content
    | ok own =>
      rw [done] at content
      exact ⟨own, rfl, Except.ok.inj content⟩
  obtain ⟨bs, done', blocks⟩ := alike.exists_of_ok done
  refine ⟨bs, ?_, blocks.symm⟩
  rw [Block.bodyOf, read.selfClosing, if_neg Bool.false_ne_true, read.name, String.toList_ofList,
    read.stop, closing]
  dsimp only
  rw [sliced]
  dsimp only [bind, Except.bind] at done' ⊢
  cases dedented : Block.dedent inner with
  | error e =>
    rw [dedented] at done'
    cases done'
  | ok body =>
    rw [dedented] at done'
    dsimp only at done' ⊢
    rw [done']
    rfl

/-- A body of rows is their paragraphs. -/
theorem content_of_rows {body text : Text} (rows : List Row)
    (dedented : (Block.dedent (Region.root body)).map Region.text = .ok text)
    (lines : (Line.split text).map Line.text = rows.map Prod.fst) (are_rows : Rows rows) :
    (Block.dedent (Region.root body) >>= Block.parse innerNesting []).map Block.allSpanless =
      .ok (paragraphs (rows.map Prod.snd)) := by
  cases content : Block.dedent (Region.root body) with
  | error e =>
    rw [content] at dedented
    cases dedented
  | ok r =>
    rw [content] at dedented
    obtain rfl := Except.ok.inj dedented
    obtain ⟨bs, read, contents⟩ := Block.exists_parse_rows (innerNesting - 1) lines are_rows
    dsimp only [bind, Except.bind]
    rw [show innerNesting = innerNesting - 1 + 1 from rfl, read, ← contents]
    rfl

/-- What is read at a line with an opening tag. -/
theorem exists_blockAt_open (inner : Block.Inner) (r : Region) {l : Line} (named : IsTagName name)
    (plain : ∀ p ∈ ps, p.IsPlain) (text : l.text = OpenTag.write name ps false) (ls : List Line) :
    ∃ tag, IsRead tag name ps false l.stop ∧
      Block.blockAt inner r l ls = (do
        let (children, stop) ← Block.bodyOf inner r l.start tag (l.ending.text ++ Line.join ls)
        if Text.isBlank (tailAt l ls stop) then
          return (.widget (Inline.tagIn r tag l.start stop) false children, stop)
        else
          mistake (r.toSource (stop + indentation (tailAt l ls stop)))
            (.invalid s!"unexpected text after </{tag.name}>")) := by
  have flush : indentation l.text = 0 := by rw [text]; rfl
  have kind : Block.opening l.text = .widget := by
    rw [text]
    exact Block.opening_of_isWidgetStart (isWidgetStart_write named)
  obtain ⟨tag, tag_eq, read⟩ := exists_tagAt named plain text ls
  have after : textFrom l ls tag.stop = l.ending.text ++ Line.join ls := by
    rw [read.stop, Line.stop, textFrom_append flush]
    rw [Line.join_cons, Line.raw, List.append_assoc]
  refine ⟨tag, read, ?_⟩
  rw [Block.blockAt_eq, kind]
  dsimp only
  rw [Block.widgetAt_eq, tag_eq]
  dsimp only
  rw [after, read.selfClosing, flush, Nat.add_zero]
  rfl

/-- The text of a body that stands on lines. -/
theorem bodyText_eq {l : Line} {ls : List Line} {inside : List Text} (ended : l.ending = .lf)
    (body : ls.map Line.pair = inside.map (·, LineEnding.lf)) :
    l.ending.text ++ Line.join ls = bodyText inside := by
  rw [ended, Line.join_eq_flatMap_pair, body, List.flatMap_map]
  rfl

section Enclosing

variable {r : Region} {l close : Line} {ls rest : List Line} {inside : List Text}

/-- What follows the opening tag of a widget on lines. -/
theorem source_of_enclosing (ended : l.ending = .lf)
    (body : ls.map Line.pair = inside.map (·, LineEnding.lf)) (closed : close.text = ClosingTag.write name)
    (rest : List Line) :
    l.ending.text ++ Line.join (ls ++ close :: rest) =
      bodyText inside ++ (ClosingTag.write name ++ (close.ending.text ++ Line.join rest)) := by
  rw [Line.join_append, ← List.append_assoc, bodyText_eq ended body, Line.join_cons, Line.raw, closed,
    List.append_assoc]

/-- Where the closing tag of a widget on lines stands. -/
theorem start_of_enclosing (suffix : l :: (ls ++ close :: rest) <:+ Line.split r.text)
    (ended : l.ending = .lf) (body : ls.map Line.pair = inside.map (·, LineEnding.lf)) :
    close.start = l.stop + Text.bytes (bodyText inside) := by
  obtain ⟨pre, split⟩ := suffix
  have before : Line.split r.text = (pre ++ l :: ls) ++ close :: rest := by
    rw [← split]
    simp
  rw [Line.start_of_split before, Line.join_append, Line.join_cons, Text.bytes_append,
    ← Line.start_of_split split.symm, Line.raw, List.append_assoc, bodyText_eq ended body,
    Text.bytes_append, Line.stop, Nat.add_assoc]

/-- **A widget with a body is one block.** What is in it is what the body says on its own. -/
theorem exists_blockAt_enclosing {levels : Nat} (named : IsTagName name) (plain : ∀ p ∈ ps, p.IsPlain)
    {children : List Block} (suffix : l :: (ls ++ close :: rest) <:+ Line.split r.text)
    (opened : l.pair = (OpenTag.write name ps false, LineEnding.lf))
    (body : ls.map Line.pair = inside.map (·, LineEnding.lf)) (closed : close.text = ClosingTag.write name)
    (closing : ClosingTag.find? name false l.stop
      (bodyText inside ++ (ClosingTag.write name ++ (close.ending.text ++ Line.join rest))) =
        some { start := close.start, stop := close.stop })
    (content : (Block.dedent (Region.root (bodyText inside)) >>= Block.parse levels []).map
      Block.allSpanless = .ok children) :
    ∃ b, Block.blockAt (Block.parse levels []) r l (ls ++ close :: rest) = .ok (b, close.stop) ∧
      b.spanless = .widget (plainTag name ps) false children := by
  have l_text : l.text = OpenTag.write name ps false := congrArg Prod.fst opened
  have l_ending : l.ending = .lf := congrArg Prod.snd opened
  have start := start_of_enclosing suffix l_ending body
  have stop : close.stop =
      l.stop + Text.bytes (bodyText inside) + Text.bytes (ClosingTag.write name) := by
    rw [Line.stop, start, closed]
  have source := source_of_enclosing l_ending body closed rest
  obtain ⟨tag, read, block⟩ :=
    exists_blockAt_open (Block.parse levels []) r named plain l_text (ls ++ close :: rest)
  have last : close :: rest <:+ Line.split r.text :=
    (List.suffix_append (l :: ls) _).trans suffix
  obtain ⟨pre, split⟩ := suffix
  have front : Text.bytes (Line.join pre ++ l.text) = l.stop := by
    rw [Text.bytes_append, ← Line.start_of_split split.symm, Line.stop]
  have r_text : r.text = (Line.join pre ++ l.text) ++
      (bodyText inside ++ (ClosingTag.write name ++ (close.ending.text ++ Line.join rest))) := by
    rw [Line.eq_join_append split.symm, Line.join_cons, Line.raw, List.append_assoc l.text, source,
      List.append_assoc]
  have read' := read
  rw [← front] at read' closing
  rw [stop, start, ← front] at closing
  obtain ⟨bs, done, contents⟩ := exists_bodyOf l.start r_text read' closing content
  rw [front, ← stop] at done
  have tail : Text.isBlank (tailAt l (ls ++ close :: rest) close.stop) = true := by
    have size : close.stop = l.start +
        Text.bytes (l.text ++ (bodyText inside ++ ClosingTag.write name)) := by
      rw [stop, Line.stop]
      simp only [Text.bytes_append, Nat.add_assoc]
    have flush : indentation l.text = 0 := by rw [l_text]; rfl
    rw [tailAt, size, textFrom_append flush (v := close.ending.text ++ Line.join rest)]
    · cases ending : close.ending with
      | none =>
        obtain ⟨-, rfl⟩ := (Line.whole_of_suffix last).2.1 ending
        rfl
      | lf => rfl
      | crlf => rfl
    · rw [Line.join_cons, Line.raw, List.append_assoc, source]
      simp only [List.append_assoc]
  refine ⟨.widget (Inline.tagIn r tag l.start close.stop) false bs, ?_, ?_⟩
  · rw [block, source, done]
    dsimp only [bind, Except.bind]
    rw [if_pos tail]
    rfl
  · rw [Block.spanless, read.spanless_tagIn, contents]

/-- The lines of a widget start before its end, and those after it do not. -/
theorem passed_of_enclosing (suffix : l :: (ls ++ close :: rest) <:+ Line.split r.text)
    (closed : close.text = ClosingTag.write name) :
    (∀ m ∈ ls ++ [close], m.start < close.stop) ∧ ∀ m ∈ rest, close.stop ≤ m.start := by
  have filled : close.start < close.stop := by
    rw [Line.stop, closed, ClosingTag.write, Text.bytes_cons]
    have size : '<'.utf8Size = 1 := rfl
    omega
  have whole : ls ++ close :: rest <:+ Line.split r.text := (List.suffix_cons _ _).trans suffix
  constructor
  · intro m mem
    rcases List.mem_append.1 mem with inside | last
    · obtain ⟨a, b, rfl⟩ := List.append_of_mem inside
      rw [List.append_assoc, List.cons_append] at whole
      have after := (Line.whole_of_suffix ((List.suffix_append a _).trans whole)).2.2 close (by simp)
      have le : m.start ≤ m.next := (Nat.le_add_right ..).trans (Nat.le_add_right ..)
      omega
    · obtain rfl := List.mem_singleton.1 last
      exact filled
  · intro m mem
    have after := (Line.whole_of_suffix ((List.suffix_append ls _).trans whole)).2.2 m mem
    have le : close.stop ≤ close.next := Nat.le_add_right ..
    exact le.trans after

end Enclosing

/-- A body without tags, code and fences ends at the closing tag that is written after it. -/
theorem isSnippet_enclosing (named : IsTagName name) (plain : ∀ p ∈ ps, p.IsPlain)
    {inside : List Text} {children : List Block} (bare : ClosingTag.IsBare (bodyText inside))
    (content : (Block.dedent (Region.root (bodyText inside)) >>= Block.parse innerNesting []).map
      Block.allSpanless = .ok children) (us : List Text) :
    IsSnippet (enclosing name ps inside) us (.widget (plainTag name ps) false children) where
  starts := starts_write named false _
  taken := by
    intro r l ls rest suffix text _
    obtain ⟨l_pair, text⟩ := List.cons.inj text
    obtain ⟨body, more, rfl, body_pairs, more_pairs⟩ := List.map_eq_append_iff.1 text
    obtain ⟨close, none, rfl, close_pair, nil⟩ := List.map_eq_cons_iff.1 more_pairs
    obtain rfl := List.map_eq_nil_iff.1 nil
    have close_text : close.text = ClosingTag.write name := congrArg Prod.fst close_pair
    rw [List.append_assoc, List.singleton_append] at suffix ⊢
    have start := start_of_enclosing suffix (congrArg Prod.snd l_pair) body_pairs
    have closing := ClosingTag.findFrom_write l.stop bare name false
      (close.ending.text ++ Line.join rest)
    rw [← start, ← close_text, ← Line.stop, close_text] at closing
    obtain ⟨b, block, same⟩ :=
      exists_blockAt_enclosing named plain suffix l_pair body_pairs close_text closing content
    obtain ⟨before, after⟩ := passed_of_enclosing suffix close_text
    exact ⟨b, close.stop, block, same, before, after⟩

end Snippets

end Folio
