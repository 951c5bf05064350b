import Folio.Proofs.Markup.Crossings

/-!
# A widget and its closing tag

A text that is one widget, with the lines of a body between its tags: it is read as this widget exactly if
the search for the closing tag finds the one after the body.

* `widgetText`: the text, and `IsEnclosed`: what the search finds;
* `Document.parse_widgetText`: the text is read as the widget with what its body says;
* `isEnclosed_of_parse`: a text that is read as one widget is closed by its last tag.
-/

namespace Folio

/-- A widget with the lines of a body. It may end with the text or with a line ending. -/
def widgetText (name : Text) (ts : List Text) (e : LineEnding) : Text :=
  OpenTag.write name [] false ++ (bodyText ts ++ (ClosingTag.write name ++ e.text))

/-- The search for the closing tag of the widget finds the one after the body. -/
def IsEnclosed (name : Text) (ts : List Text) (e : LineEnding) : Prop :=
  let start := Text.bytes (OpenTag.write name [] false)
  ClosingTag.find? name false start (bodyText ts ++ (ClosingTag.write name ++ e.text)) =
    some { start := start + Text.bytes (bodyText ts)
           stop := start + Text.bytes (bodyText ts) + Text.bytes (ClosingTag.write name) }

instance (name : Text) (ts : List Text) (e : LineEnding) : Decidable (IsEnclosed name ts e) :=
  inferInstanceAs (Decidable (_ = _))

namespace ClosingTag

variable {name s body after : Text} {depth resume at_ : Nat} {lineStart : Bool} {close : ClosingTag}

/-- A closing tag that is found stands in the text. -/
theorem exists_of_findFrom (found : findFrom name depth lineStart resume at_ s = some close) :
    ∃ u v size, s = u ++ v ∧ size? name v = some size ∧ close.start = at_ + Text.bytes u ∧
      close.stop = close.start + size := by
  induction s generalizing depth lineStart resume at_ with
  | nil => cases found
  | cons c s ih =>
    have later : (∃ u v size, s = u ++ v ∧ size? name v = some size ∧
        close.start = at_ + c.utf8Size + Text.bytes u ∧ close.stop = close.start + size) →
        ∃ u v size, c :: s = u ++ v ∧ size? name v = some size ∧ close.start = at_ + Text.bytes u ∧
          close.stop = close.start + size := by
      rintro ⟨u, v, size, rfl, sized, start, stop⟩
      exact ⟨c :: u, v, size, rfl, sized, by rw [start, Text.bytes_cons, Nat.add_assoc], stop⟩
    by_cases passed : at_ < resume
    · rw [findFrom, if_pos passed] at found
      exact later (ih found)
    · rw [findFrom_look (Nat.le_of_not_lt passed)] at found
      split at found
      · rename_i last
        obtain ⟨-, size, sight⟩ := exists_of_depth?_eq_none last
        cases found
        refine ⟨[], c :: s, size, rfl, (size?_of_sightAt sight).2, rfl, ?_⟩
        rw [sight]
        rfl
      · exact later (ih found)

/-- What starts with an angle bracket and has no other one does not reach the next one. -/
theorem bytes_le_of_angle {u t v rest : Text} (only : '<' ∉ t) (filled : u ≠ [])
    (parts : u ++ '<' :: v = '<' :: t ++ rest) : Text.bytes ('<' :: t) ≤ Text.bytes u := by
  obtain ⟨more, tag, last⟩ | ⟨more, rfl, -⟩ := List.append_eq_append_iff.1 parts
  · cases more with
    | nil => rw [tag, List.append_nil]
    | cons d more =>
      obtain ⟨rfl, -⟩ := List.cons.inj last
      cases u with
      | nil => exact absurd rfl filled
      | cons c u =>
        obtain ⟨-, tail⟩ := List.cons.inj tag
        exact absurd (by rw [tail]; simp) only
  · rw [Text.bytes_append]
    exact Nat.le_add_right _ _

/-- A closing tag that reaches into the last one of a text is the last one. -/
theorem eq_last_of_reaches (named : IsTagName name) (angle : '<' ∉ after)
    (found : find? name lineStart at_ (body ++ (write name ++ after)) = some close)
    (reaches : at_ + Text.bytes body < close.stop) :
    close = { start := at_ + Text.bytes body
              stop := at_ + Text.bytes body + Text.bytes (write name) } := by
  have unnamed : '<' ∉ name := fun mem => by cases named.chars _ mem
  have last_text : write name ++ after = '<' :: ('/' :: (name ++ '>' :: after)) := by simp [write]
  obtain ⟨u, v, size, parts, sized, start, stop⟩ := exists_of_findFrom found
  have same : body = u → v = write name ++ after →
      close = ⟨at_ + Text.bytes body, at_ + Text.bytes body + Text.bytes (write name)⟩ := by
    rintro rfl rfl
    rw [size?_write] at sized
    obtain rfl := Option.some.inj sized
    rw [← start, ← stop]
  obtain ⟨blanks, rest, blank, text, rfl⟩ := size?_eq_some_iff.1 sized
  have unblank : '<' ∉ blanks := fun mem => by cases blank _ mem
  have tag : v = '<' :: ('/' :: name ++ blanks ++ ['>']) ++ rest := by
    rw [text]
    simp
  have size : Text.bytes ('<' :: ('/' :: name ++ blanks ++ ['>'])) =
      Text.bytes ('<' :: '/' :: name) + Text.bytes blanks + 1 := by
    simp only [Text.bytes_cons, Text.bytes_append, Text.bytes_nil, List.cons_append]
    have one : '>'.utf8Size = 1 := rfl
    omega
  obtain ⟨w, rfl, last⟩ | ⟨w, rfl, rest_eq⟩ := List.append_eq_append_iff.1 parts
  · -- the tag that is found starts in the last one
    by_cases empty : w = []
    · subst empty
      exact same (List.append_nil _).symm last.symm
    · rw [last_text, tag] at last
      have only : '<' ∉ '/' :: (name ++ '>' :: after) := by simp [unnamed, angle]
      have whole := congrArg Text.bytes last
      rw [← List.append_nil ('<' :: _)] at last
      have short := bytes_le_of_angle only empty last.symm
      rw [Text.bytes_append, Text.bytes_append, size] at whole
      omega
  · -- the tag that is found starts before the last one
    by_cases empty : w = []
    · subst empty
      exact same (List.append_nil _) rest_eq
    · rw [last_text, tag] at rest_eq
      have only : '<' ∉ '/' :: name ++ blanks ++ ['>'] := by simp [unnamed, unblank]
      have short := bytes_le_of_angle only empty rest_eq.symm
      rw [size] at short
      rw [stop, start, Text.bytes_append] at reaches
      omega

end ClosingTag

section Widget

variable {name : Text} {ts : List Text} {e : LineEnding} (named : IsTagName name)
  (whole : ∀ t ∈ ts, Line.IsWhole t .lf)

/-! ### The lines -/

theorem isWhole_of_name (named : IsTagName name) (e : LineEnding) :
    Line.IsWhole (OpenTag.write name [] false) .lf ∧ Line.IsWhole (ClosingTag.write name) e := by
  have letters : ∀ c, isNameChar c = false → c ∉ name := by
    intro c other mem
    rw [named.chars c mem] at other
    cases other
  have eol : '\n' ∉ name := letters _ rfl
  have open_text : OpenTag.write name [] false = '<' :: (name ++ ['>']) := by
    simp [OpenTag.write, OpenTag.ending]
  have close_text : ClosingTag.write name = '<' :: '/' :: (name ++ ['>']) := by
    simp [ClosingTag.write]
  rw [open_text, close_text]
  refine ⟨⟨by simp [eol], fun _ last => ?_⟩, ⟨by simp [eol], fun _ last => ?_⟩⟩
  · rw [← List.cons_append, List.getLast?_concat] at last
    cases last
  · rw [← List.cons_append, ← List.cons_append, List.getLast?_concat] at last
    cases last

include named whole in
/-- The lines of the text: the opening tag, the body and the closing tag. -/
theorem exists_split_widgetText (e : LineEnding) :
    ∃ l ls close, Line.split (widgetText name ts e) = l :: (ls ++ [close]) ∧
      l.pair = (OpenTag.write name [] false, .lf) ∧ ls.map Line.pair = ts.map (·, LineEnding.lf) ∧
      close.pair = (ClosingTag.write name, e) := by
  obtain ⟨whole_open, whole_close⟩ := isWhole_of_name named e
  have filled : ClosingTag.write name ≠ [] := List.cons_ne_nil _ _
  have last : Line.Divided [(ClosingTag.write name, e)] :=
    ⟨whole_close, fun _ => ⟨filled, rfl⟩, trivial⟩
  have lines := Line.map_pair_split_append (List.forall_mem_cons.2 ⟨whole_open, whole⟩) last
  have text : (OpenTag.write name [] false :: ts).flatMap (· ++ ['\n']) ++
      [(ClosingTag.write name, e)].flatMap (fun q => q.1 ++ q.2.text) = widgetText name ts e := by
    simp [widgetText, bodyText]
  rw [text, List.map_cons, List.cons_append] at lines
  obtain ⟨l, more, split, opened, lines⟩ := List.map_eq_cons_iff.1 lines
  obtain ⟨ls, last, rfl, body, lines⟩ := List.map_eq_append_iff.1 lines
  obtain ⟨close, none, rfl, closed, nil⟩ := List.map_eq_cons_iff.1 lines
  obtain rfl := List.map_eq_nil_iff.1 nil
  exact ⟨l, ls, close, split, opened, body, closed⟩

/-! ### Declarations -/

namespace Declaration

/-- Nothing is declared at lines that are passed over or blank. -/
theorem scanFrom_of_all_passed {metadata : Bool} {resume : Nat} {ls : List Line}
    (passed : ∀ m ∈ ls, m.start < resume ∨ Text.isBlank m.text = true) :
    scanFrom metadata resume ls = [] := by
  induction ls with
  | nil => rfl
  | cons l ls ih =>
    rw [List.forall_mem_cons] at passed
    rw [scanFrom_of_passed passed.1, ih passed.2]

/-- Where no metadata is exported, lines without imports declare nothing. -/
theorem scanFrom_of_no_import {resume : Nat} {ls : List Line} (other : ∀ m ∈ ls, isImport m.text = false) :
    scanFrom false resume ls = [] := by
  induction ls generalizing resume with
  | nil => rfl
  | cons l ls ih =>
    rw [List.forall_mem_cons] at other
    by_cases passed : l.start < resume ∨ Text.isBlank l.text = true
    · rw [scanFrom_of_passed passed, ih other.2]
    · rw [not_or, Bool.not_eq_true] at passed
      have bare : declared? false l ls = none := by
        rw [declared?_eq_none_iff, other.1]
        exact .inr ⟨nofun, nofun⟩
      rw [scanFrom_of_bare (Nat.le_of_not_lt passed.1) passed.2 bare, ih other.2]

end Declaration

open Block (textFrom)

section Lines

variable {s : Text} {l close : Line} {ls : List Line}

/-- A text that starts with a widget declares what its other lines declare. -/
theorem scan_of_widget (split : Line.split s = l :: ls) (widget : isWidgetStart l.text = true) :
    Declaration.scan s = Declaration.scanFrom false (Declaration.past l ls) ls := by
  have angle : (Text.trimStart l.text).head? = some '<' := head?_of_isWidgetStart widget
  have first : ∀ m ∈ (l :: ls).head?, m.text.head? ≠ some '-' := by
    rintro m ⟨⟩ dash
    obtain ⟨t, text⟩ : ∃ t, l.text = '-' :: t := List.head?_eq_some_iff.1 dash
    rw [text] at angle
    cases angle
  have bare : Declaration.declared? true l ls = none := by
    rw [Declaration.declared?_eq_none_iff]
    refine .inr ⟨fun imports => ?_, fun exports => ?_⟩
    · obtain ⟨rest, text⟩ := Declaration.exists_of_isImport imports
      rw [text] at angle
      cases angle
    · have letter := Declaration.head?_of_isExport exports.2
      rw [letter] at angle
      cases angle
  unfold Declaration.scan
  rw [split]
  dsimp only
  rw [Declaration.frontMatter?_eq_none first]
  exact Declaration.scanFrom_of_bare (Nat.zero_le _) (isBlank_of_head? angle) bare

section Enclosed

variable (split : Line.split s = l :: (ls ++ [close]))
  (opened : l.pair = (OpenTag.write name [] false, .lf))
  (body : ls.map Line.pair = ts.map (·, LineEnding.lf)) (closed : close.text = ClosingTag.write name)
  (closing : ClosingTag.find? name false l.stop (bodyText ts ++ (ClosingTag.write name ++
    close.ending.text)) = some { start := close.start, stop := close.stop })

include named opened body closed closing

/-- A widget whose closing tag is found ends with its last line. -/
theorem exists_widgetStop? :
    ∃ tag, Block.tagAt l (ls ++ [close]) = .ok tag ∧
      Block.widgetStop? tag l (ls ++ [close]) = some close.stop := by
  have l_text : l.text = OpenTag.write name [] false := congrArg Prod.fst opened
  have flush : indentation l.text = 0 := by rw [l_text]; rfl
  obtain ⟨tag, tag_eq, read⟩ := exists_tagAt named (List.forall_mem_nil _) l_text (ls ++ [close])
  have source := source_of_enclosing (congrArg Prod.snd opened) body closed []
  rw [show Line.join [] = [] from rfl, List.append_nil] at source
  have after : textFrom l (ls ++ [close]) l.stop = l.ending.text ++ Line.join (ls ++ [close]) := by
    rw [Line.stop, textFrom_append flush]
    rw [Line.join_cons, Line.raw, List.append_assoc]
  refine ⟨tag, tag_eq, ?_⟩
  rw [Block.widgetStop?, read.selfClosing, if_neg Bool.false_ne_true, Block.closeOf?, read.name,
    String.toList_ofList, read.stop, after, source, closing]
  rfl

include split

/-- What is declared in a widget is passed over. -/
theorem scan_of_isEnclosed : Declaration.scan s = [] := by
  have l_text : l.text = OpenTag.write name [] false := congrArg Prod.fst opened
  have suffix : l :: (ls ++ [close]) <:+ Line.split s := split ▸ List.suffix_refl _
  have kind : isWidgetStart l.text = true := by rw [l_text]; exact isWidgetStart_write named
  obtain ⟨tag, tag_eq, stop⟩ := exists_widgetStop? named opened body closed closing
  -- the line that the widget ends on comes after the start of all others
  have suffix' : l :: (ls ++ close :: []) <:+ Line.split (Region.root s).text := by
    rwa [Region.text_root]
  obtain ⟨before, -⟩ := passed_of_enclosing suffix' closed
  have last : Line.split s = (l :: ls) ++ [close] := split
  have size : Text.bytes s = close.next := by
    rw [Line.eq_join_append last, Text.bytes_append, ← Line.start_of_split last, Line.join,
      List.flatMap_singleton, Line.bytes_raw]
  have le : close.stop ≤ close.next := Nat.le_add_right ..
  have start : l.start < close.stop := by
    have lt := Line.start_lt_of_mem suffix (m := close) (by simp)
    have inside := before close (by simp)
    omega
  obtain ⟨chunk, rest, -, found, -, lt⟩ :=
    Declaration.exists_lineAt? suffix (n := close.stop - 1) (by omega) (by omega)
  have past : Declaration.past l (ls ++ [close]) = ((l :: chunk).getLast?.getD l).next := by
    rw [Declaration.past, Fence.open?_of_isWidgetStart kind]
    dsimp only
    rw [if_pos kind, Block.pastWidget?_eq kind, tag_eq]
    dsimp only
    rw [stop]
    dsimp only [Option.getD_some]
    rw [found]
    rfl
  rw [scan_of_widget split kind, past]
  refine Declaration.scanFrom_of_all_passed fun m mem => .inl ?_
  have inside := before m mem
  omega

end Enclosed

/-- The search, from the lines of the text. -/
theorem isEnclosed_iff (split : Line.split s = l :: (ls ++ [close]))
    (opened : l.pair = (OpenTag.write name [] false, .lf))
    (body : ls.map Line.pair = ts.map (·, LineEnding.lf)) (closed : close.pair = (ClosingTag.write name, e)) :
    IsEnclosed name ts e ↔ ClosingTag.find? name false l.stop (bodyText ts ++ (ClosingTag.write name ++
      close.ending.text)) = some { start := close.start, stop := close.stop } := by
  have l_text : l.text = OpenTag.write name [] false := congrArg Prod.fst opened
  have ending : close.ending = e := congrArg Prod.snd closed
  have lines : Line.split s = [] ++ l :: (ls ++ [close]) := split
  have first : l.start = 0 := Line.start_of_split lines
  have stop : l.stop = Text.bytes (OpenTag.write name [] false) := by
    rw [Line.stop, first, l_text, Nat.zero_add]
  have suffix : l :: (ls ++ [close]) <:+ Line.split (Region.root s).text := by
    rw [Region.text_root, split]
  have start := start_of_enclosing suffix (congrArg Prod.snd opened) body
  have close_stop : close.stop = close.start + Text.bytes (ClosingTag.write name) := by
    rw [Line.stop, show close.text = ClosingTag.write name from congrArg Prod.fst closed]
  rw [IsEnclosed, close_stop, start, stop, ending]

end Lines

/-! ### Documents -/

/-- Where no more blocks are read, the lines are passed over or blank. -/
theorem Block.passed_of_blocksFrom {inner : Block.Inner} {r : Region} {resume : Nat} {ls : List Line}
    (nothing : Block.blocksFrom inner r [] resume ls = .ok []) :
    ∀ m ∈ ls, m.start < resume ∨ Text.isBlank m.text = true := by
  induction ls with
  | nil => nofun
  | cons l ls ih =>
    rw [List.forall_mem_cons]
    by_cases passed : l.start < resume
    · rw [Block.blocksFrom, if_pos passed] at nothing
      exact ⟨.inl passed, ih nothing⟩
    by_cases blank : Text.isBlank l.text = true
    · rw [Block.blocksFrom_of_isBlank (Nat.le_of_not_lt passed) blank] at nothing
      exact ⟨.inr blank, ih nothing⟩
    rw [Bool.not_eq_true] at blank
    rw [Block.blocksFrom_cons (Nat.le_of_not_lt passed) rfl blank] at nothing
    dsimp only [bind, Except.bind] at nothing
    split at nothing
    · cases nothing
    · split at nothing <;> cases nothing

/-- Lines that are passed over or blank are no blocks. -/
theorem Block.blocksFrom_of_all_passed {inner : Block.Inner} {r : Region} {resume : Nat} {ls : List Line}
    (passed : ∀ m ∈ ls, m.start < resume ∨ Text.isBlank m.text = true) :
    Block.blocksFrom inner r [] resume ls = .ok [] := by
  induction ls with
  | nil => rfl
  | cons l ls ih =>
    rw [List.forall_mem_cons] at passed
    by_cases reached : l.start < resume
    · rw [Block.blocksFrom, if_pos reached, ih passed.2]
    · rw [Block.blocksFrom_of_isBlank (Nat.le_of_not_lt reached) (passed.1.resolve_left reached),
        ih passed.2]

/-- A body that is read ends with a closing tag. -/
theorem Block.exists_of_bodyOf {inner : Block.Inner} {r : Region} {at_ : Nat} {tag : OpenTag} {s : Text}
    {read : List Block × Nat} (open_ : tag.selfClosing = false)
    (done : Block.bodyOf inner r at_ tag s = .ok read) :
    ∃ close, ClosingTag.find? tag.name.toList false tag.stop s = some close ∧ close.stop = read.2 := by
  rw [Block.bodyOf, open_, if_neg Bool.false_ne_true] at done
  cases found : ClosingTag.find? tag.name.toList false tag.stop s with
  | none =>
    rw [found] at done
    cases done
  | some close =>
    refine ⟨close, rfl, ?_⟩
    rw [found] at done
    dsimp only [bind, Except.bind] at done
    repeat' split at done
    all_goals cases done
    rfl

/-- A text that is read as one block has it at its first line, and nothing after it. -/
theorem Document.exists_blockAt_of_parse {formats : Formats} {s : Text} {l : Line} {ls : List Line}
    {block : Block} (nothing : Declaration.scan s = []) (split : Line.split s = l :: ls)
    (filled : Text.isBlank l.text = false)
    (read : (Document.parse formats s).map Document.spanless = .ok (Document.ofBlocks [block])) :
    ∃ b stop, Block.blockAt (Block.parse innerNesting []) (Region.root s) l ls = .ok (b, stop) ∧
      Block.blocksFrom (Block.parse innerNesting []) (Region.root s) [] stop ls = .ok [] := by
  rw [Document.parse_of_scan_eq_nil nothing] at read
  obtain ⟨document, read, same⟩ := exists_of_map_eq_ok read
  obtain ⟨bs, blocks, rfl⟩ := exists_of_map_eq_ok read
  rw [Block.parse_root, split] at blocks
  obtain ⟨⟨b, stop⟩, rest, block', more, rfl⟩ :=
    Block.exists_of_blocksFrom_cons (Nat.zero_le _) rfl filled blocks
  have one : Block.allSpanless (b :: rest) = [block] := congrArg Document.blocks same
  rw [Block.allSpanless_eq_map, List.map_eq_singleton_iff] at one
  obtain ⟨_, single, -⟩ := one
  obtain ⟨-, rfl⟩ := List.cons.inj single
  exact ⟨b, stop, block', more⟩

include named whole

/-- **A widget whose closing tag is found is read as one block**: the widget with what its body says on its
own. -/
theorem parse_widgetText (formats : Formats) (enclosed : IsEnclosed name ts e) {children : List Block}
    (content : (Block.dedent (Region.root (bodyText ts)) >>= Block.parse innerNesting []).map Block.allSpanless =
      .ok children) :
    (Document.parse formats (widgetText name ts e)).map Document.spanless =
      .ok (Document.ofBlocks [.widget (plainTag name []) false children]) := by
  obtain ⟨l, ls, close, split, opened, body, closed⟩ := exists_split_widgetText named whole e
  have closing := (isEnclosed_iff split opened body closed).1 enclosed
  have close_text : close.text = ClosingTag.write name := congrArg Prod.fst closed
  have nothing := scan_of_isEnclosed named split opened body close_text closing
  have suffix : l :: (ls ++ [close]) <:+ Line.split (Region.root (widgetText name ts e)).text := by
    rw [Region.text_root, split]
  have after : close.ending.text = close.ending.text ++ Line.join [] := (List.append_nil _).symm
  rw [after] at closing
  obtain ⟨b, block, contents⟩ := exists_blockAt_enclosing named (List.forall_mem_nil _) suffix opened body
    close_text closing content
  obtain ⟨passed, -⟩ := passed_of_enclosing suffix close_text
  have filled : Text.isBlank l.text = false := by
    rw [show l.text = OpenTag.write name [] false from congrArg Prod.fst opened]
    rfl
  have read : Block.parse maxNesting [] (Region.root (widgetText name ts e)) = .ok [b] := by
    have rest : Block.blocksFrom (Block.parse innerNesting []) (Region.root (widgetText name ts e)) [] close.stop
        (ls ++ [close]) = .ok [] := by
      rw [← List.append_nil (ls ++ [close])]
      exact Block.blocksFrom_of_passed passed
    rw [Block.parse_root, split,
      Block.blocksFrom_cons (Nat.zero_le _) rfl filled, block]
    dsimp only [bind, Except.bind]
    rw [rest]
    rfl
  rw [Document.parse_of_scan_eq_nil nothing, read, ← contents]
  rfl

/-- **A text that is read as one block is closed by its last tag.** -/
theorem isEnclosed_of_parse {formats : Formats} {block : Block}
    (nothing : Declaration.scan (widgetText name ts e) = [])
    (read : (Document.parse formats (widgetText name ts e)).map Document.spanless =
      .ok (Document.ofBlocks [block])) : IsEnclosed name ts e := by
  obtain ⟨l, ls, close, split, opened, body, closed⟩ := exists_split_widgetText named whole e
  have close_text : close.text = ClosingTag.write name := congrArg Prod.fst closed
  have l_text : l.text = OpenTag.write name [] false := congrArg Prod.fst opened
  have ending : close.ending = e := congrArg Prod.snd closed
  have filled : Text.isBlank l.text = false := by
    rw [l_text]
    rfl
  rw [isEnclosed_iff split opened body closed]
  obtain ⟨b, stop, taken, none_after⟩ := Document.exists_blockAt_of_parse nothing split filled read
  -- the last line holds the end of the block
  have reaches : close.start < stop := by
    refine (Block.passed_of_blocksFrom none_after close (by simp)).resolve_right ?_
    rw [close_text]
    exact Bool.false_ne_true
  obtain ⟨tag, tag_read, block_eq⟩ := exists_blockAt_open (Block.parse innerNesting [])
    (Region.root (widgetText name ts e)) named (List.forall_mem_nil _) l_text (ls ++ [close])
  rw [block_eq] at taken
  obtain ⟨found, found_eq, found_stop⟩ : ∃ found, ClosingTag.find? tag.name.toList false tag.stop
      (l.ending.text ++ Line.join (ls ++ [close])) = some found ∧ found.stop = stop := by
    cases done : Block.bodyOf (Block.parse innerNesting []) (Region.root (widgetText name ts e)) l.start tag
        (l.ending.text ++ Line.join (ls ++ [close])) with
    | error halt =>
      rw [done] at taken
      cases taken
    | ok p =>
      rw [done] at taken
      dsimp only [bind, Except.bind] at taken
      split at taken
      · cases taken
        exact Block.exists_of_bodyOf tag_read.selfClosing done
      · cases taken
  have suffix : l :: (ls ++ [close]) <:+ Line.split (Region.root (widgetText name ts e)).text := by
    rw [Region.text_root, split]
  have start := start_of_enclosing suffix (congrArg Prod.snd opened) body
  have source := source_of_enclosing (congrArg Prod.snd opened) body close_text []
  have angle : '<' ∉ close.ending.text := by cases close.ending <;> decide
  rw [show Line.join [] = [] from rfl, List.append_nil] at source
  rw [source, tag_read.name, String.toList_ofList, tag_read.stop] at found_eq
  have last := ClosingTag.eq_last_of_reaches named angle found_eq (by rw [found_stop, ← start]; exact reaches)
  rw [found_eq, last, ← start, ← close_text]
  rfl

end Widget

end Folio
