import Folio.Proofs.Markup.Crossings

/-!
# Trees of widgets

Widgets may stand in widgets, of the same name or of another, to any depth that the reading allows. Each
body is read on its own, and where it ends is told by a search through the text after its opening tag.

* `WidgetTree` and `WidgetTree.print`: a tree of widgets and words, and the text that it is written as;
* `WidgetTree.crosses_forest`: the search for a closing tag goes through written trees and has as many
  bodies open after them as before;
* `WidgetTree.parse_print`: a tree that is written is read back.
-/

namespace Folio

/-! ### Trees -/

/-- A word of letters. -/
structure Word where
  text : Text
  filled : text ≠ []
  letters : ∀ c ∈ text, c.isAlpha = true

/-- A widget with what is in it, or a word. -/
inductive WidgetTree
  | word (w : Word)
  | node (name : PlainName) (children : List WidgetTree)

namespace WidgetTree

mutual

/-- The lines that a tree is written on. -/
def lines : WidgetTree → List Text
  | .word w => [w.text, []]
  | .node name ts =>
    OpenTag.write name.text [] false :: (allLines ts ++ [ClosingTag.write name.text])

/-- The lines that trees are written on. -/
def allLines : List WidgetTree → List Text
  | [] => []
  | t :: ts => t.lines ++ allLines ts

end

mutual

/-- How many widgets stand in each other. -/
def height : WidgetTree → Nat
  | .word _ => 0
  | .node _ ts => allHeight ts + 1

/-- The largest height among trees. -/
def allHeight : List WidgetTree → Nat
  | [] => 0
  | t :: ts => max t.height (allHeight ts)

end

mutual

/-- The block that a tree says, without spans. -/
def block : WidgetTree → Block
  | .word w => .paragraph [.text (String.ofList w.text)] ⟨0, 0⟩
  | .node name ts => .widget (plainTag name.text []) false (allBlocks ts)

/-- The blocks that trees say, without spans. -/
def allBlocks : List WidgetTree → List Block
  | [] => []
  | t :: ts => t.block :: allBlocks ts

end

/-- The text that a tree is written as. -/
def print (t : WidgetTree) : Text := t.lines.flatMap (· ++ ['\n'])

end WidgetTree

/-! ### The search in written trees -/

namespace WidgetTree

open ClosingTag (Crosses)

variable {name : Text}

/-- A word is written without tags and code. -/
theorem crosses_word (named : IsTagName name) (w : Word) (depth : Nat) :
    Crosses name true depth (w.text ++ ['\n']) true depth := by
  have absent : ∀ c, c.isAlpha = false → c ∉ w.text := by
    intro c other mem
    rw [w.letters c mem] at other
    cases other
  exact .line (eol_not_mem_name named.chars) ⟨absent _ rfl, absent _ rfl, absent _ rfl⟩ (absent _ rfl)

mutual

/-- The search goes through a tree. -/
theorem crosses_tree (named : IsTagName name) : ∀ (t : WidgetTree) (depth : Nat),
    Crosses name true depth (t.lines.flatMap (· ++ ['\n'])) true depth
  | .word w, depth => by
    rw [lines, List.flatMap_cons, List.flatMap_singleton]
    exact (crosses_word named w depth).append (.lineEnd name true depth)
  | .node n ts, depth => by
    have opening := Crosses.opening named n.isTagName depth
    have closing := Crosses.closing named n.isTagName depth
    have inside := crosses_forest named ts (if n.text = name then depth + 1 else depth)
    rw [lines, List.flatMap_cons, List.flatMap_append, List.flatMap_singleton]
    exact opening.append (inside.append closing)

/-- The search goes through trees. -/
theorem crosses_forest (named : IsTagName name) : ∀ (ts : List WidgetTree) (depth : Nat),
    Crosses name true depth ((allLines ts).flatMap (· ++ ['\n'])) true depth
  | [], _ => .nil
  | t :: ts, depth => by
    rw [allLines, List.flatMap_append]
    exact (crosses_tree named t depth).append (crosses_forest named ts depth)

end

/-- The closing tag after trees is found, whatever widgets stand in the body. -/
theorem find?_allLines (named : IsTagName name) (ts : List WidgetTree) (at_ : Nat) (after : Text) :
    ClosingTag.find? name false at_ (bodyText (allLines ts) ++ (ClosingTag.write name ++ after)) =
      some { start := at_ + Text.bytes (bodyText (allLines ts))
             stop := at_ + Text.bytes (bodyText (allLines ts)) + Text.bytes (ClosingTag.write name) } :=
  ClosingTag.find?_of_crosses (crosses_forest named ts 0) at_ after

/-! ### Written lines -/

/-- The characters that trees are written with. -/
def IsTreeChar (c : Char) : Prop := c.isAlphanum = true ∨ c = '<' ∨ c = '/' ∨ c = '>'

mutual

theorem isTreeChar_of_mem_lines : ∀ (t : WidgetTree), ∀ line ∈ t.lines, ∀ c ∈ line, IsTreeChar c
  | .word w => by
    rw [lines, List.forall_mem_cons, List.forall_mem_singleton]
    refine ⟨fun c mem => .inl ?_, List.forall_mem_nil _⟩
    rw [Char.isAlphanum, w.letters c mem]
    rfl
  | .node n ts => by
    have name : ∀ c ∈ n.text, IsTreeChar c := fun c mem => .inl (n.chars c mem)
    rw [lines, List.forall_mem_cons, List.forall_mem_append, List.forall_mem_singleton]
    refine ⟨?_, isTreeChar_of_mem_allLines ts, ?_⟩ <;> intro c mem
    · simp only [OpenTag.write, OpenTag.ending, List.flatMap_nil, List.nil_append, Bool.false_eq_true,
        if_false, List.mem_cons, List.mem_append, List.not_mem_nil, or_false] at mem
      obtain rfl | letter | rfl := mem
      · exact .inr (.inl rfl)
      · exact name c letter
      · exact .inr (.inr (.inr rfl))
    · simp only [ClosingTag.write, List.mem_cons, List.mem_append, List.not_mem_nil, or_false] at mem
      obtain rfl | rfl | letter | rfl := mem
      · exact .inr (.inl rfl)
      · exact .inr (.inr (.inl rfl))
      · exact name c letter
      · exact .inr (.inr (.inr rfl))

theorem isTreeChar_of_mem_allLines : ∀ (ts : List WidgetTree), ∀ line ∈ allLines ts, ∀ c ∈ line,
    IsTreeChar c
  | [] => nofun
  | t :: ts => by
    rw [allLines, List.forall_mem_append]
    exact ⟨isTreeChar_of_mem_lines t, isTreeChar_of_mem_allLines ts⟩

end

section TreeChars

variable {line : Text} (chars : ∀ c ∈ line, IsTreeChar c)

include chars in
theorem not_mem_of_isTreeChar {c : Char} (other : ¬ IsTreeChar c) : c ∉ line :=
  fun mem => other (chars c mem)

include chars in
theorem isWhole_of_isTreeChar : Line.IsWhole line .lf where
  eol := not_mem_of_isTreeChar chars (by simp [IsTreeChar])
  ending := fun _ last =>
    not_mem_of_isTreeChar chars (c := '\r') (by simp [IsTreeChar]) (List.mem_of_getLast? last)

include chars in
theorem indentation_of_isTreeChar : indentation line = 0 := by
  cases line with
  | nil => rfl
  | cons c line =>
    have visible : ¬ isIndent c = true := by
      intro indent
      rw [isIndent, Bool.or_eq_true, beq_iff_eq, beq_iff_eq] at indent
      have start := chars c List.mem_cons_self
      rcases indent with rfl | rfl <;> simp [IsTreeChar] at start
    rw [indentation, List.takeWhile_cons_of_neg visible]
    rfl

end TreeChars

/-- The lines of trees, as the body of a widget. -/
theorem map_pair_split_bodyText (ts : List WidgetTree) :
    (Line.split (bodyText (allLines ts))).map Line.pair =
      ([], LineEnding.lf) :: (allLines ts).map (·, LineEnding.lf) := by
  have whole : ∀ t ∈ [] :: allLines ts, Line.IsWhole t .lf := by
    rw [List.forall_mem_cons]
    exact ⟨isWhole_of_isTreeChar (List.forall_mem_nil _), fun t mem =>
      isWhole_of_isTreeChar (isTreeChar_of_mem_allLines ts t mem)⟩
  exact Line.map_pair_split_lines whole

/-- A body of trees stays as it is. -/
theorem dedent_bodyText (ts : List WidgetTree) :
    Block.dedent (Region.root (bodyText (allLines ts))) = .ok (Region.root (bodyText (allLines ts))) := by
  refine Block.dedent_of_flush fun l mem => ?_
  rw [Region.lines, Region.text_root] at mem
  have pair : l.pair ∈ ([], LineEnding.lf) :: (allLines ts).map (·, LineEnding.lf) := by
    rw [← map_pair_split_bodyText]
    exact List.mem_map_of_mem mem
  obtain first | later := List.mem_cons.1 pair
  · have empty : l.text = [] := congrArg Prod.fst first
    rw [empty]
    rfl
  · obtain ⟨t, among, same⟩ := List.mem_map.1 later
    have text : t = l.text := congrArg Prod.fst same
    exact text ▸ indentation_of_isTreeChar (isTreeChar_of_mem_allLines ts t among)

/-! ### Reading trees -/

open Block (blocksFrom parse allSpanless)

/-- Lines are read to some blocks, and what comes after them on its own. -/
def IsReadTo (levels : Nat) (written : List Text) (blocks : List Block) : Prop :=
  ∀ ⦃r : Region⦄ ⦃ls rest : List Line⦄ ⦃resume : Nat⦄, ls ++ rest <:+ Line.split r.text →
    ls.map Line.pair = written.map (·, LineEnding.lf) → (∀ m ∈ ls ++ rest, resume ≤ m.start) →
    ∃ bs next, (∀ m ∈ rest, next ≤ m.start) ∧ allSpanless bs = blocks ∧
      blocksFrom (parse levels []) r [] resume (ls ++ rest) =
        (blocksFrom (parse levels []) r [] next rest).map (bs ++ ·)

section Reading

variable {levels : Nat} {written written' : List Text} {blocks blocks' : List Block}

theorem IsReadTo.nil (levels : Nat) : IsReadTo levels [] [] := by
  intro r ls rest resume _ lines reached
  obtain rfl := List.map_eq_nil_iff.1 lines
  refine ⟨[], resume, reached, rfl, ?_⟩
  rw [List.nil_append]
  cases blocksFrom (parse levels []) r [] resume rest <;> rfl

theorem IsReadTo.append (h : IsReadTo levels written blocks) (h' : IsReadTo levels written' blocks') :
    IsReadTo levels (written ++ written') (blocks ++ blocks') := by
  intro r ls rest resume suffix lines reached
  rw [List.map_append] at lines
  obtain ⟨ls, ls', rfl, first, second⟩ := List.map_eq_append_iff.1 lines
  rw [List.append_assoc] at suffix reached ⊢
  obtain ⟨bs, next, after, contents, read⟩ := h suffix first reached
  obtain ⟨bs', next', after', contents', read'⟩ :=
    h' ((List.suffix_append ls _).trans suffix) second after
  refine ⟨bs ++ bs', next', after', ?_, ?_⟩
  · rw [allSpanless_append, contents, contents']
  · rw [read, read']
    cases blocksFrom (parse levels []) r [] next' rest with
    | error e => rfl
    | ok more => simp [Except.map]

theorem Word.isTail (w : Word) : w.text.IsTail where
  chars := fun c mem => by rw [Text.isWordChar, w.letters c mem]; rfl
  stops := by
    rw [Option.all_eq_true]
    exact fun c last => w.letters c (List.mem_of_getLast? last)

/-- A word is a paragraph. -/
theorem isReadTo_word (levels : Nat) (w : Word) :
    IsReadTo levels (lines (.word w)) [block (.word w)] := by
  intro r ls rest resume suffix text reached
  obtain ⟨l, more, rfl, l_pair, more_pairs⟩ := List.map_eq_cons_iff.1 text
  obtain ⟨gap, more, rfl, gap_pair, nil⟩ := List.map_eq_cons_iff.1 more_pairs
  obtain rfl := List.map_eq_nil_iff.1 nil
  have gap_blank : Text.isBlank gap.text = true := by
    rw [show gap.text = [] from congrArg Prod.fst gap_pair]
    rfl
  have rows : Rows ([w.text].map wordRow) := rows_of_words (by simpa using Word.isTail w)
  have ends : ∀ m ∈ (gap :: rest).head?, Block.goesOn m = false := by
    rintro m ⟨⟩
    rw [Block.goesOn, gap_blank]
    rfl
  have row : [l].map Line.text = ([w.text].map wordRow).map Prod.fst :=
    congrArg (fun p : Text × LineEnding => [p.1]) l_pair
  have whole : [l] ++ gap :: rest <:+ Line.split r.text := suffix
  obtain ⟨bs, next, after, contents, read⟩ :=
    Block.exists_blocksFrom_rows (parse levels []) whole row rows ends reached
  have content : texts (body w.text) = [.text (String.ofList w.text)] := by
    have starts : w.text.head?.all Char.isAlpha = true := by
      rw [Option.all_eq_true]
      exact fun c first => w.letters c (List.mem_of_mem_head? first)
    rw [body_of_starts starts, texts, if_neg w.filled]
  refine ⟨bs, next, fun m mem => after m (List.mem_cons_of_mem gap mem), ?_, ?_⟩
  · rw [contents, List.map_singleton, List.map_singleton, wordRow, content]
    rfl
  · have passed : blocksFrom (parse levels []) r [] next (gap :: rest) =
        blocksFrom (parse levels []) r [] next rest :=
      Block.blocksFrom_of_isBlank (after gap List.mem_cons_self) gap_blank
    rw [← passed]
    exact read

/-- What trees are read to in a region of their own. -/
theorem IsReadTo.parse_lines {r : Region} (h : IsReadTo levels written blocks)
    (lines : (Line.split r.text).map Line.pair = written.map (·, LineEnding.lf)) :
    (parse (levels + 1) [] r).map allSpanless = .ok blocks := by
  have suffix : Line.split r.text ++ [] <:+ Line.split r.text := by rw [List.append_nil]
  obtain ⟨bs, next, -, contents, read⟩ := h suffix lines fun m _ => Nat.zero_le _
  rw [List.append_nil] at read
  rw [parse, Region.lines, read, blocksFrom, ← contents]
  show Except.ok (allSpanless (bs ++ [])) = _
  rw [List.append_nil]

/-- The body of a widget is read to the blocks in it. -/
theorem content_of_isReadTo {ts : List WidgetTree} (h : IsReadTo levels (allLines ts) (allBlocks ts)) :
    (Block.dedent (Region.root (bodyText (allLines ts))) >>= parse (levels + 1) []).map allSpanless =
      .ok (allBlocks ts) := by
  -- the line of the opening tag has nothing more on it
  have gap : IsReadTo levels [[]] [] := by
    intro r ls rest resume suffix text reached
    obtain ⟨l, more, rfl, l_pair, nil⟩ := List.map_eq_cons_iff.1 text
    obtain rfl := List.map_eq_nil_iff.1 nil
    have blank : Text.isBlank l.text = true := by
      rw [show l.text = [] from congrArg Prod.fst l_pair]
      rfl
    refine ⟨[], resume, fun m mem => reached m (List.mem_cons_of_mem l mem), rfl, ?_⟩
    rw [List.singleton_append, Block.blocksFrom_of_isBlank (reached l List.mem_cons_self) blank]
    cases blocksFrom (parse levels []) r [] resume rest <;> rfl
  rw [dedent_bodyText]
  refine (gap.append h).parse_lines ?_
  rw [Region.text_root]
  exact map_pair_split_bodyText ts

/-- A widget is one block, with the blocks of its body. -/
theorem isReadTo_node (name : PlainName) {ts : List WidgetTree}
    (inside : IsReadTo levels (allLines ts) (allBlocks ts)) :
    IsReadTo (levels + 1) (lines (.node name ts)) [block (.node name ts)] := by
  intro r ls rest resume suffix text reached
  rw [lines, List.map_cons, List.map_append, List.map_singleton] at text
  obtain ⟨l, more, rfl, l_pair, text⟩ := List.map_eq_cons_iff.1 text
  obtain ⟨body, last, rfl, body_pairs, last_pair⟩ := List.map_eq_append_iff.1 text
  obtain ⟨close, none, rfl, close_pair, nil⟩ := List.map_eq_cons_iff.1 last_pair
  obtain rfl := List.map_eq_nil_iff.1 nil
  have named := name.isTagName
  have close_text : close.text = ClosingTag.write name.text := congrArg Prod.fst close_pair
  have suffix' : l :: (body ++ close :: rest) <:+ Line.split r.text := by simpa using suffix
  have start := start_of_enclosing suffix' (congrArg Prod.snd l_pair) body_pairs
  have closing := find?_allLines named ts l.stop (close.ending.text ++ Line.join rest)
  rw [← start, ← close_text, ← Line.stop, close_text] at closing
  obtain ⟨b, block, contents⟩ := exists_blockAt_enclosing named (List.forall_mem_nil _) suffix' l_pair
    body_pairs close_text closing (content_of_isReadTo inside)
  obtain ⟨before, after⟩ := passed_of_enclosing suffix' close_text
  have filled : Text.isBlank l.text = false := by
    rw [show l.text = OpenTag.write name.text [] false from congrArg Prod.fst l_pair]
    rfl
  refine ⟨[b], close.stop, after, ?_, ?_⟩
  · rw [allSpanless, contents]
    rfl
  · have lines : l :: (body ++ [close]) ++ rest = l :: (body ++ close :: rest) := by simp
    have passed : blocksFrom (parse (levels + 1) []) r [] close.stop (body ++ close :: rest) =
        blocksFrom (parse (levels + 1) []) r [] close.stop rest := by
      rw [← List.singleton_append, ← List.append_assoc]
      exact Block.blocksFrom_of_passed before
    rw [lines, Block.blocksFrom_cons (reached l List.mem_cons_self) rfl filled, block]
    dsimp only [bind, Except.bind]
    rw [passed]
    cases blocksFrom (parse (levels + 1) []) r [] close.stop rest <;> rfl

mutual

/-- A tree is read to its block. -/
theorem isReadTo_tree : ∀ (t : WidgetTree) {levels : Nat}, t.height ≤ levels →
    IsReadTo levels t.lines [t.block]
  | .word w, levels, _ => isReadTo_word levels w
  | .node name ts, 0, le => absurd le (by simp [height])
  | .node name ts, levels + 1, le => by
    have inside : IsReadTo levels (allLines ts) (allBlocks ts) :=
      isReadTo_forest ts (by rw [height] at le; omega)
    exact isReadTo_node name inside

/-- Trees are read to their blocks. -/
theorem isReadTo_forest : ∀ (ts : List WidgetTree) {levels : Nat}, allHeight ts ≤ levels →
    IsReadTo levels (allLines ts) (allBlocks ts)
  | [], levels, _ => .nil levels
  | t :: ts, levels, le => by
    rw [allHeight] at le
    have first : IsReadTo levels t.lines [t.block] := isReadTo_tree t (by omega)
    exact first.append (isReadTo_forest ts (by omega))

end

end Reading

/-! ### Documents -/

theorem map_pair_split_print (t : WidgetTree) :
    (Line.split t.print).map Line.pair = t.lines.map (·, LineEnding.lf) :=
  Line.map_pair_split_lines fun line mem => isWhole_of_isTreeChar (isTreeChar_of_mem_lines t line mem)

/-- A tree declares nothing. -/
theorem scan_print (t : WidgetTree) : Declaration.scan t.print = [] := by
  refine Declaration.scan_eq_nil_of_chars fun l mem c inside => ?_
  have pair : l.pair ∈ t.lines.map (·, LineEnding.lf) := by
    rw [← map_pair_split_print]
    exact List.mem_map_of_mem mem
  obtain ⟨line, among, same⟩ := List.mem_map.1 pair
  have text : line = l.text := congrArg Prod.fst same
  have written : IsTreeChar c := isTreeChar_of_mem_lines t line among c (text ▸ inside)
  rw [← Bool.not_eq_true]
  intro declaring
  simp only [Declaration.isDeclaring, List.contains_eq_mem, List.mem_cons, List.not_mem_nil, or_false,
    decide_eq_true_eq] at declaring
  rcases declaring with rfl | rfl | rfl | rfl <;> simp [IsTreeChar] at written

/-- **A tree of widgets that is written is read back**: the document is one block, which is the tree, with
the same names, and with children and words in order. At most 47 widgets may stand in each other. -/
theorem parse_print (formats : Formats) (t : WidgetTree) (nested : t.height ≤ 47) :
    (Document.parse formats t.print).map Document.spanless = .ok (Document.ofBlocks [t.block]) := by
  have read : (parse maxNesting [] (Region.root t.print)).map allSpanless = .ok [t.block] := by
    refine (isReadTo_tree t nested).parse_lines ?_
    rw [Region.text_root]
    exact map_pair_split_print t
  rw [Document.parse_of_scan_eq_nil (scan_print t)]
  cases done : parse maxNesting [] (Region.root t.print) with
  | error e =>
    rw [done] at read
    cases read
  | ok bs =>
    rw [done] at read
    obtain contents := Except.ok.inj read
    show Except.ok (Document.ofBlocks (allSpanless bs)) = _
    rw [contents]

/-- A widget in another of the same name, with one of a longer name and a word after it. -/
def sample : WidgetTree :=
  .node .box
    [.node .box [.word ⟨['a'], List.cons_ne_nil _ _, List.all_eq_true.1 (by decide)⟩],
      .node ⟨"Box2".toList, rfl, List.all_eq_true.1 (by decide)⟩ [],
      .word ⟨['b'], List.cons_ne_nil _ _, List.all_eq_true.1 (by decide)⟩]

theorem parse_print_sample :
    let formats : Formats := { json := fun _ => .ok .null, yaml := fun _ => .ok .null }
    sample.height ≤ 47 ∧
      sample.print = "<Box>\n<Box>\na\n\n</Box>\n<Box2>\n</Box2>\nb\n\n</Box>\n".toList ∧
      (Document.parse formats sample.print).map Document.spanless = .ok ⟨none, [],
        [.widget ⟨"Box", [], ⟨0, 0⟩⟩ false
          [.widget ⟨"Box", [], ⟨0, 0⟩⟩ false [.paragraph [.text "a"] ⟨0, 0⟩],
            .widget ⟨"Box2", [], ⟨0, 0⟩⟩ false [], .paragraph [.text "b"] ⟨0, 0⟩]]⟩ := by
  intro formats
  have nested : sample.height ≤ 47 := by decide
  exact ⟨nested, by decide, parse_print formats sample nested⟩

end WidgetTree

end Folio
