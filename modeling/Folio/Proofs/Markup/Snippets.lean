import Folio.Proofs.Markup.BlocksAlike
import Folio.Proofs.Markup.Words

/-!
# Blocks between paragraphs

Some lines are one block wherever they stand: a thematic break, fenced code that is closed, or the
lines of a widget. Lines of words before and after them are read to paragraphs as if they stood alone.

* `IsSnippet` says of some lines that they are one block;
* `isSnippet_thematicBreak`, `isSnippet_code` and `isSnippet_openCode`;
* `Document.parse_snippet`: a snippet between rows.
-/

namespace Folio

open Text (isBlankChar)

/-- Lines, with their endings, that are one block when they stand before some other lines. -/
structure IsSnippet (qs : List (Text × LineEnding)) (us : List Text) (block : Block) : Prop where
  starts : ∀ q ∈ qs.head?, startsBlock q.1 = true ∧ Text.isBlank q.1 = false
  taken : ∀ (r : Region) (l : Line) (ls rest : List Line), l :: (ls ++ rest) <:+ Line.split r.text →
    (l :: ls).map Line.pair = qs → rest.map Line.text = us →
      ∃ b next, Block.blockAt (Block.parse innerNesting []) r l (ls ++ rest) = .ok (b, next) ∧
        b.spanless = block ∧ (∀ m ∈ ls, m.start < next) ∧ ∀ m ∈ rest, next ≤ m.start

namespace Block

variable {r : Region} {ls rest : List Line} {qs : List (Text × LineEnding)} {us : List Text}
  {block : Block}

/-- What is read from a snippet and the lines after it. -/
theorem exists_blocksFrom_snippet {resume : Nat} (snippet : IsSnippet qs us block) (filled : qs ≠ [])
    (suffix : ls ++ rest <:+ Line.split r.text) (lines : ls.map Line.pair = qs)
    (lines' : rest.map Line.text = us) (reached : ∀ m ∈ ls, resume ≤ m.start) :
    ∃ b next, b.spanless = block ∧ (∀ m ∈ rest, next ≤ m.start) ∧
      blocksFrom (parse innerNesting []) r [] resume (ls ++ rest) =
        (blocksFrom (parse innerNesting []) r [] next rest).map (b :: ·) := by
  cases ls with
  | nil => exact absurd lines.symm filled
  | cons l ls =>
    obtain ⟨b, next, taken, same, inside, after⟩ := snippet.taken r l ls rest suffix lines lines'
    have visible : Text.isBlank l.text = false :=
      (snippet.starts l.pair (by rw [← lines]; rfl)).2
    refine ⟨b, next, same, after, ?_⟩
    rw [List.cons_append, blocksFrom_cons (reached l List.mem_cons_self) rfl visible, taken]
    dsimp only [bind, Except.bind]
    rw [blocksFrom_of_passed inside]
    cases blocksFrom (parse innerNesting []) r [] next rest <;> rfl

end Block

theorem allSpanless_append (bs bs' : List Block) :
    Block.allSpanless (bs ++ bs') = Block.allSpanless bs ++ Block.allSpanless bs' := by
  simp only [Block.allSpanless_eq_map, List.map_append]

/-- **A snippet between rows** is read to its block between their paragraphs. -/
theorem Document.parse_snippet (formats : Formats) {s : Text} {qs₁ qs qs₂ : List (Text × LineEnding)}
    {ps ps' : List Row} {block : Block}
    (lines : (Line.split s).map Line.pair = qs₁ ++ (qs ++ qs₂))
    (before : qs₁.map Prod.fst = ps.map Prod.fst) (after : qs₂.map Prod.fst = ps'.map Prod.fst)
    (rows : Rows ps) (rows' : Rows ps') (snippet : IsSnippet qs (qs₂.map Prod.fst) block)
    (filled : qs ≠ []) (nothing : Declaration.scan s = []) :
    (parse formats s).map spanless = .ok (ofBlocks
      (paragraphs (ps.map Prod.snd) ++ block :: paragraphs (ps'.map Prod.snd))) := by
  obtain ⟨ls₁, more, split, rfl, pairs⟩ := List.map_eq_append_iff.1 lines
  obtain ⟨ls₂, ls₃, rfl, inside, rfl⟩ := List.map_eq_append_iff.1 pairs
  rw [← Line.map_text_eq_map_pair] at before after
  have whole : ls₁ ++ (ls₂ ++ ls₃) <:+ Line.split (Region.root s).text := by
    rw [Region.text_root, split]
  have whole₂ : ls₂ ++ ls₃ <:+ Line.split (Region.root s).text :=
    (List.suffix_append _ _).trans whole
  have ends : ∀ m ∈ (ls₂ ++ ls₃).head?, Block.goesOn m = false := by
    intro m mem
    obtain ⟨q, qs, rfl⟩ := List.exists_cons_of_ne_nil filled
    obtain ⟨l, ls, eq, rfl, -⟩ := List.map_eq_cons_iff.1 inside
    rw [eq] at mem
    cases mem
    have starts : startsBlock m.text = true := (snippet.starts m.pair rfl).1
    rw [Block.goesOn, starts, Bool.or_true]
    rfl
  obtain ⟨bs₁, next₁, after₁, contents₁, blocks₁⟩ := Block.exists_blocksFrom_rows
    (Block.parse innerNesting []) whole before rows ends fun _ _ => Nat.zero_le _
  obtain ⟨b, next₂, same, after₂, blocks₂⟩ := Block.exists_blocksFrom_snippet snippet filled whole₂
    inside (Line.map_text_eq_map_pair ls₃) fun m mem => after₁ m (List.mem_append_left _ mem)
  have whole₃ : ls₃ ++ [] <:+ Line.split (Region.root s).text := by
    rw [List.append_nil]
    exact (List.suffix_append _ _).trans whole₂
  obtain ⟨bs₃, next₃, -, contents₃, blocks₃⟩ := Block.exists_blocksFrom_rows
    (Block.parse innerNesting []) whole₃ after rows' (by simp)
    (show ∀ m ∈ ls₃ ++ [], next₂ ≤ m.start by simpa using after₂)
  have read : Block.parse maxNesting [] (Region.root s) = .ok (bs₁ ++ b :: bs₃) := by
    rw [List.append_nil] at blocks₃
    rw [Block.parse_root, split, blocks₁, blocks₂, blocks₃, Block.blocksFrom]
    simp [Except.map]
  have content : Block.allSpanless (bs₁ ++ b :: bs₃) =
      paragraphs (ps.map Prod.snd) ++ block :: paragraphs (ps'.map Prod.snd) := by
    rw [allSpanless_append, Block.allSpanless, contents₁, same, contents₃]
  rw [parse_of_scan_eq_nil nothing, read, ← content]
  rfl

/-! ### Snippets without tags -/

section Leaves

variable {qs : List (Text × LineEnding)} {t : Text}

theorem isSnippet_thematicBreak (us : List Text) :
    IsSnippet [(['-', '-', '-'], .lf)] us (.thematicBreak ⟨0, 0⟩) where
  starts := by
    rintro q ⟨⟩
    decide
  taken := by
    intro r l ls rest suffix text _
    obtain ⟨⟨dashes, -⟩, rfl⟩ : (l.text = ['-', '-', '-'] ∧ l.ending = .lf) ∧ ls = [] := by
      simpa [Line.pair] using text
    have kind : Block.opening l.text = .thematicBreak := by
      rw [dashes]
      decide
    refine ⟨.thematicBreak (r.span l.start l.stop), l.next, ?_, rfl, nofun,
      (Line.whole_of_suffix suffix).2.2⟩
    rw [Block.blockAt_eq, kind]

/-- The line of three backticks. -/
def backticks : Text := ['\x60', '\x60', '\x60']

/-- The fence that this line opens. -/
def fence : Fence := { marker := '\x60', length := 3, indent := 0, info := none }

theorem opening_backticks : Block.opening backticks = .fence fence := by decide

/-- Lines as the code in a fence. -/
def codeOf (ts : List Text) : String := String.ofList (ts.flatMap (· ++ ['\n']))

/-- The line of three backticks with its ending. -/
def fenceLine : Text × LineEnding := (backticks, .lf)

theorem closes_of_not_mem (absent : '\x60' ∉ t) : fence.closes t = false := by
  have run : (Text.trimStart t).takeWhile (· == '\x60') = [] := by
    cases rest : Text.trimStart t with
    | nil => rfl
    | cons c u =>
      have mem : c ∈ t := (List.dropWhile_suffix _).subset (show c ∈ Text.trimStart t by simp [rest])
      refine List.takeWhile_cons_of_neg ?_
      rw [beq_iff_eq]
      rintro rfl
      exact absent mem
  unfold Fence.closes fence
  dsimp only
  rw [run]
  simp

theorem flatMap_outdent {fence : Fence} (flush : fence.indent = 0) (ls : List Line) :
    (ls.flatMap fun m => Block.outdent fence.indent m.text ++ ['\n']) =
      (ls.map Line.text).flatMap (· ++ ['\n']) := by
  have whole : ∀ t, Block.outdent fence.indent t = t := fun t => by
    rw [Block.outdent, flush, Nat.min_zero, List.drop_zero]
  simp only [whole, List.flatMap_map]

/-- What is read at a fence that is not indented, with a line that closes it. -/
theorem blockAt_code (inner : Block.Inner) (r : Region) {fence : Fence} {l close : Line}
    {ls : List Line} (opening : Block.opening l.text = .fence fence) (flush : fence.indent = 0)
    (open_ : ∀ m ∈ ls, fence.closes m.text = false) (closed : fence.closes close.text = true)
    (rest : List Line) :
    Block.blockAt inner r l (ls ++ close :: rest) =
      .ok (.code fence.info (codeOf (ls.map Line.text)) (r.span l.start close.stop), close.next) := by
  have body : (ls ++ close :: rest).takeWhile (fun m => !fence.closes m.text) = ls := by
    rw [List.takeWhile_append_of_pos fun m mem => by rw [open_ m mem]; rfl,
      List.takeWhile_cons_of_neg (by simp [closed]), List.append_nil]
  have last : ((l :: (ls ++ close :: rest)).drop (ls.length + 1)).head?.getD
      (ls.getLast?.getD l) = close := by simp
  rw [Block.blockAt_eq, opening]
  dsimp only
  rw [Block.fenced, body, last, flatMap_outdent flush]
  rfl

/-- Fenced code goes on to the line that closes it. -/
theorem isSnippet_code (qs : List (Text × LineEnding)) (absent : ∀ q ∈ qs, '\x60' ∉ q.1) (us : List Text) :
    IsSnippet (fenceLine :: (qs ++ [fenceLine])) us (.code none (codeOf (qs.map Prod.fst)) ⟨0, 0⟩) where
  starts := by
    rintro q ⟨⟩
    decide
  taken := by
    intro r l ls rest suffix text _
    obtain ⟨l_pair, text⟩ := List.cons.inj text
    obtain ⟨inside, more, rfl, rfl, more_text⟩ := List.map_eq_append_iff.1 text
    obtain ⟨close, none, rfl, close_pair, nil⟩ := List.map_eq_cons_iff.1 more_text
    obtain rfl := List.map_eq_nil_iff.1 nil
    have l_text : l.text = backticks := congrArg Prod.fst l_pair
    have close_text : close.text = backticks := congrArg Prod.fst close_pair
    have open_ : ∀ m ∈ inside, fence.closes m.text = false := fun m mem =>
      closes_of_not_mem (show '\x60' ∉ m.text from absent m.pair (List.mem_map_of_mem mem))
    have closed : fence.closes close.text = true := by
      rw [close_text]
      decide
    have last' : (l :: (inside ++ [close])).getLast?.getD l = close := by
      rw [← List.cons_append, List.getLast?_concat, Option.getD_some]
    obtain ⟨before, after⟩ := Line.next_of_getLast? suffix
    rw [last'] at before after
    have opening : Block.opening l.text = .fence fence := by rw [l_text, opening_backticks]
    refine ⟨.code none (codeOf ((inside.map Line.pair).map Prod.fst)) (r.span l.start close.stop),
      close.next, ?_, rfl,
      fun m mem => (before m (List.mem_cons_of_mem l mem)).1, after⟩
    rw [List.append_assoc, List.singleton_append, blockAt_code _ r opening rfl open_ closed rest,
      Line.map_text_eq_map_pair]
    rfl

/-- Fenced code that no line closes goes on to the end. -/
theorem isSnippet_openCode (absent : ∀ q ∈ qs, '\x60' ∉ q.1) :
    IsSnippet (fenceLine :: qs) [] (.code none (codeOf (qs.map Prod.fst)) ⟨0, 0⟩) where
  starts := by
    rintro q ⟨⟩
    decide
  taken := by
    intro r l ls rest suffix text nil
    obtain ⟨l_pair, rfl⟩ := List.cons.inj text
    obtain rfl := List.map_eq_nil_iff.1 nil
    have l_text : l.text = backticks := congrArg Prod.fst l_pair
    have open_ : ∀ m ∈ ls, (!fence.closes m.text) = true := by
      intro m mem
      rw [closes_of_not_mem (show '\x60' ∉ m.text from absent m.pair (List.mem_map_of_mem mem))]
      rfl
    have body : (ls ++ []).takeWhile (fun m => !fence.closes m.text) = ls := by
      rw [List.append_nil, List.takeWhile_eq_self_iff.2 open_]
    have last : ((l :: (ls ++ [])).drop (ls.length + 1)).head?.getD (ls.getLast?.getD l) =
        (l :: ls).getLast?.getD l := by simp [List.getLast?_cons]
    obtain ⟨before, after⟩ := Line.next_of_getLast? suffix
    refine ⟨.code none (codeOf ((ls.map Line.pair).map Prod.fst))
      (r.span l.start ((l :: ls).getLast?.getD l).stop), ((l :: ls).getLast?.getD l).next, ?_, rfl,
      fun m mem => (before m (List.mem_cons_of_mem l mem)).1, after⟩
    rw [Block.blockAt_eq, l_text, opening_backticks]
    dsimp only
    rw [Block.fenced, body, last, flatMap_outdent rfl, Line.map_text_eq_map_pair]
    rfl

end Leaves

end Folio
