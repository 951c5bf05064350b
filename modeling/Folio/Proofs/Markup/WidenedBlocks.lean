import Folio.Proofs.Markup.BlockAgreement
import Folio.Proofs.Markup.BlocksAlike
import Folio.Proofs.Text.LineEndings

/-!
# Blocks of lines that move

When carriage returns are added to a region's line endings, its lines move, and the parts that blocks
take of them move along: the same text stands in them. Within blocks, lines are joined with line
feeds, so what is read there does not change at all. Main statements:

* `Block.SamePart` and `Block.gather_widened`: what is joined from parts that move;
* `Block.itemLines_widened`: the lines of a list item, step by step;
* `Block.parse_widened`: the blocks, in a region without tags.
-/

namespace Folio

/-- The second region has the lines of the first one, with carriage returns in their endings. Offsets
between lines move as `f` says. -/
structure Region.Widened (f : Nat → Nat) (r r' : Region) : Prop where
  lines : r'.lines = r.lines.map (Line.widened f)
  mono : StrictMono f
  zero : f 0 = 0
  next : ∀ l ∈ r.lines, (l.widened f).next = f l.next

theorem Region.widened_root {s : Text} (cr : '\r' ∉ s) :
    Widened (Text.widen s) (root s) (root (Text.crlf s)) where
  lines := by
    rw [lines, lines, text_root, text_root]
    exact Line.split_crlf cr
  mono := Text.strictMono_widen s
  zero := Text.widen_append [] s
  next := by
    rw [lines, text_root]
    exact fun l => Line.next_widened cr

namespace Line

variable {f : Nat → Nat} {l : Line} {ls : List Line}

/-- Lines are taken for their text. -/
theorem takeWhile_widened {p : Line → Bool} (texts : ∀ m, p (widened f m) = p m) :
    (ls.map (widened f)).takeWhile p = (ls.takeWhile p).map (widened f) := by
  rw [List.takeWhile_map]
  congr 2
  exact funext texts

theorem dropWhile_widened {p : Line → Bool} (texts : ∀ m, p (widened f m) = p m) :
    (ls.map (widened f)).dropWhile p = (ls.dropWhile p).map (widened f) := by
  rw [List.dropWhile_map]
  congr 2
  exact funext texts

theorem getLast?_widened :
    (l.widened f :: ls.map (widened f)).getLast?.getD (l.widened f) =
      ((l :: ls).getLast?.getD l).widened f := by
  rw [← List.map_cons, List.getLast?_map, Option.getD_map]

end Line

namespace Block

variable {f : Nat → Nat} {r r' : Region} {l : Line} {ls : List Line} {inner inner' : Inner}
  {p p' : Nat × Nat} {ps ps' : List (Nat × Nat)}

/-! ### Parts that move -/

/-- Parts of two regions in which the same text stands. -/
def SamePart (r r' : Region) (p p' : Nat × Nat) : Prop :=
  ∃ w, r.text.Fills p w ∧ r'.text.Fills p' w

theorem SamePart.eq_iff (same : SamePart r r' p p') : p.1 = p.2 ↔ p'.1 = p'.2 := by
  obtain ⟨w, fills, fills'⟩ := same
  rw [fills.eq_iff, fills'.eq_iff]

theorem isCut_of_fills {s w : Text} (fills : s.Fills p w) : Text.IsCut s p.1 p.2 :=
  fills.2 ▸ fills.1.isCut

theorem exists_fills_of_forall₂ (same : List.Forall₂ (SamePart r r') ps ps') :
    ∃ ws, List.Forall₂ r.text.Fills ps ws ∧ List.Forall₂ r'.text.Fills ps' ws := by
  induction same with
  | nil => exact ⟨[], .nil, .nil⟩
  | cons first _ ih =>
    obtain ⟨w, fills, fills'⟩ := first
    obtain ⟨ws, rest, rest'⟩ := ih
    exact ⟨w :: ws, .cons fills rest, .cons fills' rest'⟩

theorem gather_of_fills {ws : List Text} (fills : List.Forall₂ r.text.Fills ps ws) :
    ∃ content, gather r ps = .ok content ∧ content.text = ['\n'].intercalate ws := by
  have cuts : ∀ p ∈ ps, Text.IsCut r.text p.1 p.2 := by
    induction fills with
    | nil => exact nofun
    | cons first _ ih => exact List.forall_mem_cons.2 ⟨isCut_of_fills first, ih⟩
  obtain ⟨content, joined⟩ := gather_isOk cuts
  obtain ⟨ws', fills', text_eq⟩ := exists_fills_of_gather joined
  have unique : Relator.RightUnique r.text.Fills := fun _ _ _ => Text.Fills.unique
  exact ⟨content, joined, by rw [text_eq, List.right_unique_forall₂' unique fills' fills]⟩

theorem gather_widened (same : List.Forall₂ (SamePart r r') ps ps') :
    Tallies SameText (gather r ps) (gather r' ps') := by
  obtain ⟨ws, fills, fills'⟩ := exists_fills_of_forall₂ same
  obtain ⟨content, joined, text_eq⟩ := gather_of_fills fills
  obtain ⟨content', joined', text_eq'⟩ := gather_of_fills fills'
  rw [joined, joined']
  exact text_eq.trans text_eq'.symm

theorem slice_widened {m n m' n' : Nat} (same : SamePart r r' (m, n) (m', n')) :
    Tallies SameText (slice r m n) (slice r' m' n') := by
  obtain ⟨w, fills, fills'⟩ := same
  obtain ⟨part, taken⟩ := slice_isOk (isCut_of_fills fills)
  obtain ⟨part', taken'⟩ := slice_isOk (isCut_of_fills fills')
  rw [taken, taken']
  exact ((fills_of_slice taken).unique fills).trans (fills'.unique (fills_of_slice taken'))

/-- Parts of lines that move. -/
theorem forall₂_widened {part : Line → Nat × Nat}
    (same : ∀ m ∈ ls, SamePart r r' (part m) (part (m.widened f))) :
    List.Forall₂ (SamePart r r') (ls.map part) ((ls.map (Line.widened f)).map part) := by
  rw [List.map_map, List.forall₂_map_left_iff, List.forall₂_map_right_iff, List.forall₂_same]
  exact same

/-- Empty parts stay empty. -/
theorem dropEmpty_widened (same : List.Forall₂ (SamePart r r') ps ps') :
    List.Forall₂ (SamePart r r') (dropEmpty ps) (dropEmpty ps') := by
  induction same with
  | nil => exact .nil
  | cons first rest ih =>
    cases rest with
    | nil => exact .cons first .nil
    | cons next rest =>
      have empty := first.eq_iff
      rw [dropEmpty, dropEmpty]
      simp only [beq_iff_eq]
      split
      · rename_i eq
        rw [if_pos (empty.1 eq)]
        exact ih
      · rename_i ne
        rw [if_neg (mt empty.2 ne)]
        exact .cons first (.cons next rest)

/-! ### What moves -/

/-- Blocks that are the same but for spans, after which reading goes on where offsets move. -/
def TakesWidened (f : Nat → Nat) (a b : Taken) : Prop :=
  a.1.spanless = b.1.spanless ∧ b.2 = f a.2

/-- The lines of an item, and the lines of the item with carriage returns. -/
structure WidenedItem (f : Nat → Nat) (r r' : Region) (item item' : ItemLines) : Prop where
  pieces : List.Forall₂ (SamePart r r') item.pieces item'.pieces
  loose : item'.loose = item.loose
  blanksAfter : item'.blanksAfter = item.blanksAfter
  resume : item'.resume = f item.resume
  rest : item'.rest = item.rest.map (Line.widened f)

/-- Items that are the same but for spans, after which reading goes on where offsets move. -/
structure WidenedItems (f : Nat → Nat) (a b : Items) : Prop where
  items : ListItem.allSpanless a.items = ListItem.allSpanless b.items
  tight : a.tight = b.tight
  resume : b.resume = f a.resume

theorem fenceLines_widened (fence : Fence) :
    fenceLines fence (ls.map (Line.widened f)) = (fenceLines fence ls).map (Line.widened f) := by
  have texts : ∀ m, fence.staysOpen (Line.widened f m) = fence.staysOpen m := fun _ => rfl
  rw [fenceLines, fenceLines, Line.takeWhile_widened texts, Line.dropWhile_widened texts,
    List.map_append, List.head?_map, Option.toList_map]

variable {item item' : ItemLines}

theorem isApart_widened (same : WidenedItem f r r' item item') (ordered : Bool) :
    item'.isApart ordered = item.isApart ordered := by
  rw [ItemLines.isApart, ItemLines.isApart, same.blanksAfter, same.rest, List.head?_map,
    Option.any_map]
  rfl

section Widened

variable (widened : Region.Widened f r r')

include widened

/-- The parts of a line move with it. -/
theorem samePart_of_isCut {i j : Nat} (mem : l ∈ r.lines) (cut : Text.IsCut l.text i j) :
    SamePart r r' (l.start + i, l.start + j) (f l.start + i, f l.start + j) := by
  obtain ⟨w, held, size⟩ := cut.exists_holds
  have mem' : l.widened f ∈ r'.lines := by
    rw [widened.lines]
    exact List.mem_map_of_mem mem
  exact ⟨w, Line.fills mem ⟨held, size⟩, Line.fills mem' ⟨held, size⟩⟩

theorem samePart_stop {i : Nat} (mem : l ∈ r.lines) (boundary : Text.isBoundary l.text i = true) :
    SamePart r r' (l.start + i, l.stop) ((l.widened f).start + i, (l.widened f).stop) :=
  samePart_of_isCut widened mem
    ⟨Text.le_bytes_of_isBoundary boundary, boundary, Text.isBoundary_bytes l.text⟩

/-! ### Leaves -/

/-- The line after the last one of some lines moves. -/
theorem next_getLast? (lines : ∀ m ∈ l :: ls, m ∈ r.lines) :
    ((l.widened f :: ls.map (Line.widened f)).getLast?.getD (l.widened f)).next =
      f ((l :: ls).getLast?.getD l).next := by
  rw [Line.getLast?_widened]
  exact widened.next _ (lines _ (mem_of_getLast?_getD l ls))

theorem fenced_widened {fence : Fence} (lines : ∀ m ∈ l :: ls, m ∈ r.lines) :
    TakesWidened f (fenced r fence l ls)
      (fenced r' fence (l.widened f) (ls.map (Line.widened f))) := by
  have texts : ∀ m, fence.staysOpen (Line.widened f m) = fence.staysOpen m := fun _ => rfl
  have among : ∀ m ∈ l :: fenceLines fence ls, m ∈ r.lines :=
    fun m mem => lines m (List.cons_subset_cons l (fenceLines_subset fence ls) mem)
  rw [fenced_eq, fenced_eq, fenceLines_widened, Line.takeWhile_widened texts, List.flatMap_map]
  exact ⟨rfl, next_getLast? widened among⟩

theorem titled_widened {mark : HeadingMark} (mem : l ∈ r.lines)
    (kind : HeadingMark.ofLine? l.text = some mark) :
    Tallies (TakesWidened f) (titled r mark l) (titled r' mark (l.widened f)) := by
  have part := samePart_of_isCut widened mem (HeadingMark.isCut_of_ofLine? kind)
  exact (slice_widened part).bind fun _ _ content => (inlines_parallel content).bind
    fun _ _ children => ⟨congrArg (Block.heading mark.level · ⟨0, 0⟩) children, widened.next l mem⟩

theorem paragraphAt_widened (lines : ∀ m ∈ l :: ls, m ∈ r.lines) :
    Tallies (TakesWidened f) (paragraphAt r l ls)
      (paragraphAt r' (l.widened f) (ls.map (Line.widened f))) := by
  have texts : ∀ m, goesOn (Line.widened f m) = goesOn m := fun _ => rfl
  have among : ∀ m ∈ l :: ls.takeWhile goesOn, m ∈ r.lines :=
    fun m mem => lines m (List.cons_subset_cons l (List.takeWhile_subset _) mem)
  rw [paragraphAt_eq, paragraphAt_eq, Line.takeWhile_widened texts, ← List.map_cons]
  refine (gather_widened (forall₂_widened fun m mem => ?_)).bind fun _ _ content =>
    (inlines_parallel content).bind fun _ _ children => ⟨?_, next_getLast? widened among⟩
  · exact samePart_stop widened (among m mem) (isBoundary_of_le_indentation (Nat.le_refl _))
  · exact congrArg (Block.paragraph · ⟨0, 0⟩) children

/-! ### The lines of an item -/

/-- An item takes a line with a carriage return if it takes the line. -/
theorem takeLine?_widened (column : Nat) (mem : l ∈ r.lines) (same : WidenedItem f r r' item item') :
    Option.Rel (WidenedItem f r r') (takeLine? column item l)
      (takeLine? column item' (l.widened f)) := by
  have next := widened.next l mem
  unfold takeLine?
  rw [Line.text_widened, same.blanksAfter]
  split
  · have boundary := Text.isBoundary_zero l.text
    have part := samePart_of_isCut widened mem ⟨Nat.le_refl 0, boundary, boundary⟩
    exact .some ⟨.cons part same.pieces, same.loose, rfl, next, same.rest⟩
  · split
    · rename_i deep
      have part := samePart_stop widened mem (isBoundary_of_le_indentation deep)
      refine .some ⟨.cons part same.pieces, ?_, rfl, next, same.rest⟩
      dsimp only
      rw [same.loose]
    · split
      · have part := samePart_stop widened mem (isBoundary_of_le_indentation (Nat.le_refl _))
        exact .some ⟨.cons part same.pieces, same.loose, rfl, next, same.rest⟩
      · exact .none

theorem itemLines_widened {column : Nat} (lines : ∀ m ∈ ls, m ∈ r.lines)
    (same : WidenedItem f r r' item item') :
    WidenedItem f r r' (itemLines column item ls)
      (itemLines column item' (ls.map (Line.widened f))) := by
  induction ls generalizing item item' with
  | nil => exact { same with rest := rfl }
  | cons l ls ih =>
    rw [List.forall_mem_cons] at lines
    have step := takeLine?_widened widened column lines.1 same
    rw [List.map_cons, itemLines_cons, itemLines_cons]
    revert step
    generalize takeLine? column item l = taken
    generalize takeLine? column item' (l.widened f) = taken'
    rintro (same' | _)
    · exact ih lines.2 same'
    · exact { same with rest := rfl }

/-- The lines of an item move. -/
theorem itemFrom_widened {mark : ListMark} (lines : ∀ m ∈ l :: ls, m ∈ r.lines)
    (kind : ListMark.ofLine? l.text = some mark) :
    WidenedItem f r r' (itemFrom mark l ls)
      (itemFrom mark (l.widened f) (ls.map (Line.widened f))) := by
  rw [List.forall_mem_cons] at lines
  have boundary := ListMark.isBoundary_of_ofLine? kind
  have part := samePart_stop widened lines.1 boundary
  refine itemLines_widened widened lines.2 ⟨.cons ?_ .nil, rfl, rfl, widened.next l lines.1, rfl⟩
  rw [Line.min_stop boundary, Line.min_stop (l := l.widened f) boundary]
  exact part

/-! ### Containers -/

section Inner

variable (inside : ∀ {r r' : Region}, SameText r r' → Tallies SameBlocks (inner r) (inner' r'))

include inside

theorem quoted_widened (lines : ∀ m ∈ l :: ls, m ∈ r.lines) (kind : isQuoted l = true) :
    Tallies (TakesWidened f) (quoted inner r l ls)
      (quoted inner' r' (l.widened f) (ls.map (Line.widened f))) := by
  have texts : ∀ m, isQuoted (Line.widened f m) = isQuoted m := fun _ => rfl
  have among : ∀ m ∈ l :: ls.takeWhile isQuoted, m ∈ r.lines :=
    fun m mem => lines m (List.cons_subset_cons l (List.takeWhile_subset _) mem)
  have marked : ∀ m ∈ l :: ls.takeWhile isQuoted, isQuoted m = true :=
    List.forall_mem_cons.2 ⟨kind, List.all_eq_true.1 List.all_takeWhile⟩
  have kind' : isQuoted (l.widened f) = true := kind
  rw [quoted_eq r ls kind, quoted_eq r' _ kind', Line.takeWhile_widened texts, ← List.map_cons]
  refine (gather_widened (forall₂_widened fun m mem => ?_)).bind fun _ _ content =>
    (inside content).bind fun _ _ children => ⟨?_, next_getLast? widened among⟩
  · obtain ⟨n, mark⟩ := Option.isSome_iff_exists.1 (marked m mem)
    have boundary := isBoundary_of_quoteMark? mark
    rw [Line.text_widened, mark, Option.getD_some, Line.min_stop boundary,
      Line.min_stop (l := m.widened f) boundary]
    exact samePart_stop widened (among m mem) boundary
  · exact congrArg (Block.quote · ⟨0, 0⟩) children

theorem itemAt_widened {mark : ListMark} (lines : ∀ m ∈ l :: ls, m ∈ r.lines)
    (kind : ListMark.ofLine? l.text = some mark) :
    Tallies (fun a b => a.1.spanless = b.1.spanless ∧ WidenedItem f r r' a.2 b.2)
      (itemAt inner r mark l ls)
      (itemAt inner' r' mark (l.widened f) (ls.map (Line.widened f))) := by
  have same := itemFrom_widened widened lines kind
  rw [itemAt_eq, itemAt_eq, itemContent, itemContent]
  refine (gather_widened (List.rel_reverse (dropEmpty_widened same.pieces))).bind
    fun _ _ content => (inside content).bind fun _ _ children => ⟨?_, same⟩
  exact congrArg (ListItem.mk · ⟨0, 0⟩) children

theorem itemsFrom_widened {ordered : Bool} (stop stop' resume : Nat)
    (lines : ∀ m ∈ ls, m ∈ r.lines) :
    Tallies (WidenedItems f) (itemsFrom inner r ordered stop resume ls)
      (itemsFrom inner' r' ordered stop' (f resume) (ls.map (Line.widened f))) := by
  induction ls generalizing stop stop' resume with
  | nil => exact ⟨rfl, rfl, rfl⟩
  | cons l ls ih =>
    have later := (List.forall_mem_cons.1 lines).2
    rw [List.map_cons, itemsFrom, itemsFrom, Line.start_widened, Line.text_widened]
    simp only [widened.mono.lt_iff_lt]
    split
    · exact ih stop stop' resume later
    · split
      · exact ⟨rfl, rfl, rfl⟩
      · rename_i mark found
        have kind := (Option.mem_filter_iff.1 found).1
        refine (itemAt_widened widened inside lines kind).bind ?_
        rintro ⟨item, taken⟩ ⟨item', taken'⟩ ⟨first, same⟩
        dsimp only at first same ⊢
        rw [same.resume]
        refine (ih _ _ _ later).bind fun more more' rest => ⟨?_, ?_, rest.resume⟩
        · dsimp only
          rw [ListItem.allSpanless, ListItem.allSpanless, first, rest.items]
        · dsimp only
          rw [isApart_widened same, same.loose, rest.tight]

theorem listed_widened {mark : ListMark} (lines : ∀ m ∈ l :: ls, m ∈ r.lines) :
    Tallies (TakesWidened f) (listed inner r mark l ls)
      (listed inner' r' mark (l.widened f) (ls.map (Line.widened f))) := by
  refine (itemsFrom_widened widened inside l.stop _ l.start lines).bind fun _ _ items =>
    ⟨?_, items.resume⟩
  rw [Block.spanless, Block.spanless, items.tight, items.items]

/-! ### Regions -/

theorem blockAt_widened (tagless : '<' ∉ r.text) (lines : ∀ m ∈ l :: ls, m ∈ r.lines) :
    Tallies (TakesWidened f) (blockAt inner r l ls)
      (blockAt inner' r' (l.widened f) (ls.map (Line.widened f))) := by
  have mem : l ∈ r.lines := lines l List.mem_cons_self
  have fits := opening_fits l.text
  rw [blockAt_eq, blockAt_eq, Line.text_widened]
  cases kind : opening l.text with
  | fence fence => exact fenced_widened widened lines
  | heading mark => exact titled_widened widened mem (ofLine?_of_opening_heading kind)
  | thematicBreak => exact ⟨rfl, widened.next l mem⟩
  | quote =>
    rw [kind] at fits
    exact quoted_widened widened inside lines fits
  | list mark => exact listed_widened widened inside lines
  | widget =>
    -- a line without an opening angle bracket starts no widget
    rw [kind] at fits
    exact absurd ((Line.holds mem).mem (mem_of_isWidgetStart fits)) tagless
  | closingTag name => exact rfl
  | paragraph => exact paragraphAt_widened widened lines

theorem blocksFrom_widened (tagless : '<' ∉ r.text) (resume : Nat)
    (lines : ∀ m ∈ ls, m ∈ r.lines) :
    Tallies SameBlocks (blocksFrom inner r [] resume ls)
      (blocksFrom inner' r' [] (f resume) (ls.map (Line.widened f))) := by
  induction ls generalizing resume with
  | nil => exact rfl
  | cons l ls ih =>
    have later := (List.forall_mem_cons.1 lines).2
    rw [List.map_cons, blocksFrom, blocksFrom, Line.start_widened, Line.text_widened,
      List.find?_nil, List.find?_nil]
    simp only [widened.mono.lt_iff_lt]
    split
    · exact ih resume later
    · split
      · exact ih resume later
      · refine (blockAt_widened widened inside tagless lines).bind ?_
        rintro ⟨block, resume⟩ ⟨block', resume'⟩ ⟨first, moved⟩
        dsimp only at first moved ⊢
        rw [moved]
        refine (ih resume later).bind fun bs bs' rest => ?_
        show allSpanless (block :: bs) = allSpanless (block' :: bs')
        rw [allSpanless, allSpanless, first, rest]

end Inner

/-- With carriage returns, a region without tags has the same blocks, but for spans, or halts for the
same reason. -/
theorem parse_widened (levels : Nat) (tagless : '<' ∉ r.text) :
    Tallies SameBlocks (parse levels [] r) (parse levels [] r') := by
  cases levels with
  | zero => exact rfl
  | succ levels =>
    have blocks := blocksFrom_widened widened (parse_parallel levels []) tagless 0
      fun m (mem : m ∈ r.lines) => mem
    rw [widened.zero, ← widened.lines] at blocks
    rw [parse, parse]
    exact blocks

end Widened

end Block
end Folio
