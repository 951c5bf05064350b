import Folio.Proofs.Markup.EnclosedBodies
import Folio.Proofs.Markup.Literals

/-!
# A widget that is the whole text

A text that starts with a tag keeps its first line when it is stripped, and its first block is read
there. If it is one tag closing itself, with nothing but white space after it, perhaps over several
lines, then nothing is declared in it, whatever the tag's props say, and it is read as this widget.

* `Document.exists_blockAt_of_widget` and `strip_append_of_widget`: texts that start with a tag;
* `IsLone`, `IsLone.scan_eq_nil` and `IsLone.parse_eq`: texts that are one tag;
* `OpenTag.read_propLead` and `OpenTag.prefix_of_readFrom`: a tag's first prop, which stays the first.
-/

namespace Folio

variable {own tail s t : Text} {c : Char} {tag : OpenTag}

/-! ### The first line -/

namespace Line

theorem exists_divide_append {w : Text} (filled : w ≠ []) (plain : ∀ c ∈ w, c ≠ '\n' ∧ c ≠ '\r')
    (s : Text) : ∃ t e qs, divide (w ++ s) = (w ++ t, e) :: qs := by
  induction w with
  | nil => exact absurd rfl filled
  | cons c w ih =>
    obtain ⟨⟨eol, cr⟩, plain⟩ := List.forall_mem_cons.1 plain
    by_cases last : w = []
    · subst last
      cases lines : divide s with
      | nil =>
        have nothing := join_divide s
        rw [lines] at nothing
        obtain rfl : s = [] := nothing.symm
        exact ⟨[], .none, [], divide_of_eol_not_mem (by simpa using Ne.symm eol) (List.cons_ne_nil _ _)⟩
      | cons q qs => exact ⟨q.1, q.2, qs, divide_cons eol (fun _ is_cr => absurd is_cr cr) lines⟩
    · obtain ⟨t, e, qs, lines⟩ := ih last plain
      exact ⟨t, e, qs, divide_cons eol (fun _ is_cr => absurd is_cr cr) lines⟩

/-- A text that begins with characters of one line begins with a line that begins with them. -/
theorem exists_split_append {w : Text} (filled : w ≠ []) (plain : ∀ c ∈ w, c ≠ '\n' ∧ c ≠ '\r')
    (s : Text) : ∃ l ls t, split (w ++ s) = l :: ls ∧ l.start = 0 ∧ l.text = w ++ t := by
  obtain ⟨t, e, qs, lines⟩ := exists_divide_append filled plain s
  exact ⟨⟨0, w ++ t, e⟩, _, t, by rw [split, lines]; rfl, rfl, rfl⟩

/-- The lines that start in the last part of a text hold characters of that part only. -/
theorem subset_of_le_start {l : Line} (mem : l ∈ split (s ++ t)) (le : Text.bytes s ≤ l.start) :
    l.text ⊆ t := by
  obtain ⟨before, after, lines⟩ := List.append_of_mem mem
  have whole := eq_join_append lines
  obtain ⟨w, inside⟩ : ∃ w, join before = s ++ w :=
    Text.prefix_of_bytes_le whole (by rw [← start_of_split lines]; exact le)
  rw [inside, List.append_assoc, List.append_cancel_left_eq] at whole
  intro c c_mem
  rw [whole, join_cons, raw]
  simp [c_mem]

end Line

/-! ### Texts that start with a tag -/

/-- A text that begins with a tag's first characters begins with a line that starts a widget. -/
theorem exists_split_of_isUpper (upper : isUpper c = true) (s : Text) :
    ∃ l ls, Line.split ('<' :: c :: s) = l :: ls ∧ l.start = 0 ∧ indentation l.text = 0 ∧
      isWidgetStart l.text = true := by
  have plain : ∀ d ∈ ['<', c], d ≠ '\n' ∧ d ≠ '\r' := by
    have letter : c ≠ '\n' ∧ c ≠ '\r' := by constructor <;> rintro rfl <;> cases upper
    simp [letter]
  obtain ⟨l, ls, t, split, start, first⟩ :=
    Line.exists_split_append (List.cons_ne_nil '<' [c]) plain s
  refine ⟨l, ls, split, start, by rw [first]; rfl, ?_⟩
  rw [first]
  exact upper

/-- The tag at the first line is the one that the text starts with. -/
theorem Block.tagAt_of_split {l : Line} {ls : List Line} (split : Line.split s = l :: ls)
    (start : l.start = 0) (flush : indentation l.text = 0) : Block.tagAt l ls = OpenTag.read 0 s := by
  rw [Block.tagAt, flush, start, ← split, Line.join_split]
  rfl

section First

variable {l : Line} {ls : List Line} (split : Line.split s = l :: ls)
  (widget : isWidgetStart l.text = true)

include split widget

/-- What a text declares comes after a first line that starts a widget. -/
theorem next_le_start_of_widget : ∀ d ∈ Declaration.scan s, l.next ≤ d.span.start := by
  have suffix : l :: ls <:+ Line.split s := split ▸ List.suffix_refl _
  intro d mem
  rw [scan_of_widget split widget] at mem
  obtain ⟨m, among, -, start, -⟩ :=
    Declaration.exists_start ((List.suffix_cons l ls).trans suffix) mem
  rw [start]
  exact (Line.whole_of_suffix suffix).2.2 m among

/-- The first block of a document is the one at a first line that starts a widget. -/
theorem Document.exists_blockAt_of_widget {formats : Formats} {d : Document}
    (read : Document.parse formats s = .ok d) :
    ∃ b stop bs, Block.blockAt (Block.parse innerNesting []) (Region.root s) l ls = .ok (b, stop) ∧
      d.blocks = b :: bs := by
  have bare : l.isCovered (Declaration.scan s) = false := by
    refine List.any_eq_false.2 fun e mem => ?_
    have after := next_le_start_of_widget split widget e mem
    have lt := Line.start_lt_next (split ▸ List.mem_cons_self : l ∈ Line.split s)
    simp only [Declaration.covers, Bool.and_eq_true, decide_eq_true_eq, not_and]
    omega
  have filled : Text.isBlank l.text = false := isBlank_of_head? (head?_of_isWidgetStart widget)
  unfold Document.parse at read
  obtain ⟨metadata, -, read⟩ := exists_of_bind_eq_ok read
  obtain ⟨bs, blocks, read⟩ := exists_of_bind_eq_ok read
  cases read
  rw [Block.parse_root, split] at blocks
  obtain ⟨⟨b, stop⟩, rest, block, -, rfl⟩ :=
    Block.exists_of_blocksFrom_cons (Nat.zero_le _) bare filled blocks
  exact ⟨b, stop, rest, block, rfl⟩

end First

/-- Stripping leaves a first line alone that starts a widget. -/
theorem strip_append_of_widget {w : Text} (filled : w ≠ []) (plain : ∀ c ∈ w, c ≠ '\n' ∧ c ≠ '\r')
    (widget : ∀ t, isWidgetStart (w ++ t) = true) (s : Text) :
    ∃ spans, strip (w ++ s) = w ++ stripSpans spans (Text.bytes w) s := by
  obtain ⟨l, ls, t, split, start, text⟩ := Line.exists_split_append filled plain s
  have after := next_le_start_of_widget split (text ▸ widget t)
  have within : Text.bytes w ≤ l.next := by
    rw [Line.next, Line.stop, start, text, Text.bytes_append]
    omega
  refine ⟨(Declaration.scan (w ++ s)).map (·.span), ?_⟩
  have apart : ∀ d ∈ (Declaration.scan (w ++ s)).map (·.span),
      0 + Text.bytes w ≤ d.start ∨ d.stop ≤ 0 := by
    intro d mem
    obtain ⟨e, declared, rfl⟩ := List.mem_map.1 mem
    have := after e declared
    omega
  rw [strip, stripSpans_append, stripSpans_of_apart apart, Nat.zero_add]

/-! ### Texts that are one tag -/

/-- A text that is a tag closing itself and white space after it. -/
structure IsLone (own tail : Text) (tag : OpenTag) : Prop where
  starts : ∃ c rest, own = '<' :: c :: rest ∧ isUpper c = true
  read : OpenTag.read 0 (own ++ tail) = .ok tag
  selfClosing : tag.selfClosing = true
  stop : tag.stop = Text.bytes own
  blank : Text.isBlank tail = true

namespace IsLone

variable (lone : IsLone own tail tag)

include lone

theorem exists_split : ∃ l ls, Line.split (own ++ tail) = l :: ls ∧ l.start = 0 ∧
    indentation l.text = 0 ∧ isWidgetStart l.text = true := by
  obtain ⟨c, rest, rfl, upper⟩ := lone.starts
  exact exists_split_of_isUpper upper (rest ++ tail)

/-- A line that does not start in the tag is blank. -/
theorem passed : ∀ m ∈ Line.split (own ++ tail), m.start < tag.stop ∨ Text.isBlank m.text = true := by
  intro m mem
  by_cases inside : m.start < tag.stop
  · exact .inl inside
  · have within := Line.subset_of_le_start mem (by rw [← lone.stop]; omega)
    exact .inr (List.all_eq_true.2 fun c c_mem => List.all_eq_true.1 lone.blank c (within c_mem))

/-- **Nothing is declared in a tag.** -/
theorem scan_eq_nil : Declaration.scan (own ++ tail) = [] := by
  obtain ⟨l, ls, split, start, flush, widget⟩ := lone.exists_split
  have tag_eq : Block.tagAt l ls = .ok tag := (Block.tagAt_of_split split start flush).trans lone.read
  obtain ⟨c, rest, text, -⟩ := lone.starts
  have filled : 0 < tag.stop := by
    rw [lone.stop, text, Text.bytes_cons]
    exact Nat.add_pos_left '<'.utf8Size_pos _
  have within : tag.stop - 1 < Text.bytes (own ++ tail) := by
    rw [Text.bytes_append, ← lone.stop]
    omega
  -- the scan goes on after the line that the tag ends on
  have past : tag.stop ≤ Declaration.past l ls := by
    have lines : l :: ls <:+ Line.split (own ++ tail) := split ▸ List.suffix_refl _
    obtain ⟨chunk, after, -, found, -, lt⟩ :=
      Declaration.exists_lineAt? lines (start ▸ Nat.zero_le _) within
    rw [Declaration.past, Fence.open?_of_isWidgetStart widget]
    dsimp only
    rw [if_pos widget, Block.pastWidget?_eq widget, tag_eq]
    dsimp only
    rw [Block.widgetStop?, if_pos lone.selfClosing]
    dsimp only [Option.getD_some]
    rw [found]
    exact Nat.le_of_pred_lt lt
  rw [scan_of_widget split widget]
  refine Declaration.scanFrom_of_all_passed fun m mem => ?_
  have passed := lone.passed m (by rw [split]; exact List.mem_cons_of_mem l mem)
  exact passed.imp_left fun lt => Nat.lt_of_lt_of_le lt past

/-- **The text is read as the widget.** -/
theorem parse_eq (formats : Formats) :
    Document.parse formats (own ++ tail) =
      .ok { metadata := none, imports := []
            blocks := [.widget (Inline.tagIn (Region.root (own ++ tail)) tag 0 tag.stop) true []] } := by
  obtain ⟨l, ls, split, start, flush, widget⟩ := lone.exists_split
  have tag_eq : Block.tagAt l ls = .ok tag := (Block.tagAt_of_split split start flush).trans lone.read
  have after : Block.textFrom l ls tag.stop = tail := by
    have text : Line.join (l :: ls) = own ++ tail := by rw [← split, Line.join_split]
    have rest := textFrom_append flush text
    rwa [start, Nat.zero_add, ← lone.stop] at rest
  have blank : Text.isBlank (Block.tailAt l ls tag.stop) = true := by
    rw [Block.tailAt, after]
    exact List.all_eq_true.2 fun c mem =>
      List.all_eq_true.1 lone.blank c ((List.takeWhile_prefix _).subset mem)
  have block : Block.blockAt (Block.parse innerNesting []) (Region.root (own ++ tail)) l ls =
      .ok (.widget (Inline.tagIn (Region.root (own ++ tail)) tag 0 tag.stop) true [], tag.stop) := by
    rw [Block.blockAt_eq, Block.opening_of_isWidgetStart widget]
    dsimp only
    rw [Block.widgetAt_eq, tag_eq]
    dsimp only
    rw [Block.bodyOf, if_pos lone.selfClosing]
    dsimp only [bind, Except.bind]
    rw [if_pos blank, lone.selfClosing, flush, start]
    rfl
  have rest : ∀ m ∈ ls, m.start < tag.stop ∨ Text.isBlank m.text = true :=
    fun m mem => lone.passed m (by rw [split]; exact List.mem_cons_of_mem l mem)
  rw [Document.parse_of_scan_eq_nil lone.scan_eq_nil, Block.parse_root, split,
    Block.blocksFrom_cons (Nat.zero_le _) rfl
      (isBlank_of_head? (head?_of_isWidgetStart widget)), block]
  dsimp only [bind, Except.bind]
  rw [Block.blocksFrom_of_all_passed rest]
  rfl

/-- The span of a widget is the whole tag. -/
theorem span_eq {w : Text} (last : own = w ++ ['>']) :
    (Region.root (own ++ tail)).span 0 tag.stop = ⟨0, Text.bytes own⟩ := by
  have held : (own ++ tail).Holds 0 (w ++ ['>']) := ⟨tail, [], by rw [last]; rfl, rfl⟩
  have closes : (Region.root (own ++ tail)).text.Closes 0 (0 + Text.bytes (w ++ ['>'])) := by
    rw [Region.text_root]
    exact held.closes rfl rfl
  rw [Nat.zero_add, ← last] at closes
  have le : Text.bytes own ≤ Text.bytes (own ++ tail) := by
    rw [Text.bytes_append]
    exact Nat.le_add_right _ _
  rw [lone.stop, (Region.faithful_root _).span_of_closes closes, Region.toSource_root,
    Region.toSource_root, Nat.min_eq_left le, Nat.zero_min]

end IsLone

/-! ### Tags with one prop -/

namespace OpenTag

variable {name prop value rest e : Text} {at_ : Nat}

/-- The start of a tag with one prop, up to the prop's value. -/
def propLead (name prop : Text) : Text := '<' :: (name ++ ' ' :: (prop ++ ['=']))

/-- A prop's name. -/
structure IsPropName (prop : Text) : Prop where
  starts : prop.head?.any TagToken.isNameStart = true
  chars : ∀ c ∈ prop, isNameChar c = true

/-- A tag is read up to the value of its first prop, whatever comes then. -/
theorem read_propLead (at_ : Nat) (named : IsTagName name) (propNamed : IsPropName prop) (s : Text) :
    ∃ start, read at_ (propLead name prop ++ s) =
      readFrom at_ (.valued (String.ofList name) [] (String.ofList prop) start)
        (at_ + Text.bytes (propLead name prop)) (at_ + Text.bytes (propLead name prop)) s := by
  obtain ⟨starts, chars⟩ := propNamed
  cases prop with
  | nil => cases starts
  | cons c w =>
    rw [List.forall_mem_cons] at chars
    have parts : propLead name (c :: w) ++ s = '<' :: (name ++ ' ' :: c :: (w ++ '=' :: s)) := by
      simp [propLead]
    have size : at_ + Text.bytes (propLead name (c :: w)) =
        at_ + Text.bytes ('<' :: name) + 1 + Text.bytes (c :: w) + 1 := by
      have space : ' '.utf8Size = 1 := rfl
      have equals : '='.utf8Size = 1 := rfl
      simp only [propLead, Text.bytes_cons, Text.bytes_append, Text.bytes_nil, space, equals]
      omega
    refine ⟨at_ + Text.bytes ('<' :: name) + 1, ?_⟩
    rw [parts, read_name at_ named rfl, readFrom_space, readFrom_name (.ready []) starts chars.2 rfl,
      readFrom_equals, ← size]

/-! The props that have been read stay the first ones. -/

/-- The props that have been read before the one that is being read, the latest first. -/
def State.props : State → List WidgetProp
  | .opened => []
  | .ready _ props => props
  | .named _ props _ _ => props
  | .valued _ props _ _ => props

/-- What a step leaves of the props before. -/
def Step.Keeps (props : List WidgetProp) : Step → Prop
  | .more next _ => props <:+ next.props
  | .done t => props.reverse <+: t.props

theorem readyStep_keeps {name : String} {props : List WidgetProp} {token : Option TagToken} {next : Step}
    (done : readyStep name props at_ c token = .ok next) : next.Keeps props := by
  unfold readyStep at done
  split at done
  · cases done
    exact List.prefix_refl _
  · cases done
    exact List.prefix_refl _
  · cases done
    exact List.suffix_refl _
  · cases done
  · split at done <;> cases done

theorem Step.Keeps.of_cons {p : WidgetProp} {props : List WidgetProp} {next : Step}
    (h : next.Keeps (p :: props)) : next.Keeps props := by
  cases next with
  | more state resume => exact (List.suffix_cons p props).trans h
  | done t =>
    have first : props.reverse <+: (p :: props).reverse := by
      rw [List.reverse_cons]
      exact List.prefix_append _ _
    exact first.trans h

theorem step_keeps {state : State} {next : Step} (done : step state at_ c s = .ok next) :
    next.Keeps state.props := by
  cases state with
  | opened =>
    unfold step at done
    dsimp only at done
    split at done
    · cases done
      exact List.suffix_refl _
    · cases done
  | ready name props => exact readyStep_keeps done
  | named name props prop span =>
    by_cases equals : TagToken.read? (c :: s) = some .equals
    · rw [step, equals] at done
      cases done
      exact List.suffix_refl _
    · have due : Due name ({ name := prop, value := .flag, span } :: props)
          (.named name props prop span) := .named props prop span
      rw [due.step_eq equals] at done
      exact (readyStep_keeps done).of_cons
  | valued name props prop start =>
    unfold step valueStep at done
    dsimp only at done
    split at done
    · cases done
      exact List.suffix_cons _ _
    · split at done
      · cases done
      · cases done
        exact List.suffix_cons _ _
    · split at done <;> cases done
    · cases done

/-- The tag that is read begins with the props that have been read. -/
theorem prefix_of_readFrom {tag resume : Nat} {state : State} {t : OpenTag}
    (found : readFrom tag state resume at_ s = .ok t) : state.props.reverse <+: t.props := by
  induction s generalizing state resume at_ with
  | nil => cases found
  | cons c s ih =>
    rw [readFrom] at found
    split at found
    · exact ih found
    · cases done : step state at_ c s with
      | error e =>
        rw [done] at found
        cases found
      | ok next =>
        rw [done] at found
        have keeps := step_keeps done
        cases next with
        | done t' =>
          obtain rfl := Except.ok.inj found
          exact keeps
        | more state' resume' => exact (List.reverse_prefix.2 keeps).trans (ih found)

/-- A quoted string is the value of a prop that is kept. -/
theorem exists_quoted_of_readFrom {tag start : Nat} {name prop : String}
    {props : List WidgetProp} {t : OpenTag}
    (found : readFrom tag (.valued name props prop start) at_ at_ ('"' :: s) = .ok t) :
    ∃ v span, TagToken.quotedRest? '"' s = some v ∧
      ({ name := prop, value := .string (String.ofList (TagToken.unquote ('"' :: v))), span } ::
        props).reverse <+: t.props := by
  cases quoted : TagToken.quotedRest? '"' s with
  | none =>
    have unread : TagToken.read? ('"' :: s) = none := by
      rw [TagToken.read?_quote, quoted, Option.map_none]
    rw [readFrom, if_neg (by simp [TagToken.isSkipped])] at found
    have fails : step (.valued name props prop start) at_ '"' s = fail at_ .unterminatedString := by
      show valueStep name props prop start at_ '"' s _ = _
      rw [unread]
      rfl
    rw [fails] at found
    cases found
  | some v =>
    obtain ⟨rest, rfl⟩ := TagToken.isPrefix_of_quotedRest? quoted
    rw [readFrom_quoted rest quoted] at found
    exact ⟨v, _, rfl, prefix_of_readFrom found⟩

/-- A braced expression is read as the value of a prop. -/
theorem readFrom_expression {tag : Nat} {name prop : String} {props : List WidgetProp} {start : Nat}
    (literal : Expression.IsLiteral e) (rest : Text) :
    readFrom tag (.valued name props prop start) at_ at_ (e ++ rest) =
      readFrom tag
        (.ready name ({ name := prop, value := .expression (Expression.source e),
                        span := ⟨start, at_ + Text.bytes e⟩ } :: props))
        (at_ + Text.bytes e) (at_ + Text.bytes e) rest := by
  have read := literal.read at_ rest
  obtain ⟨u, -, rfl⟩ := literal
  refine readFrom_token rfl ?_
  show valueStep name props prop start at_ '{' _ (some .brace) = _
  rw [valueStep]
  dsimp only
  rw [show '{' :: (u ++ ['}'] ++ rest) = '{' :: (u ++ ['}']) ++ rest from rfl, read]

end OpenTag

end Folio
