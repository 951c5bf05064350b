import Folio.Proofs.Markup.LineReading
import Folio.Proofs.Markup.Prose
import Folio.Proofs.Markup.StrippedContainers

/-!
# What is read of a document

A text without tags and declarations is read without loss: what its blocks say, in document order,
has the same characters as the text, for each class of characters that no mark is made of. By
induction on the nesting, a block and the lines after it have the characters of the lines from its
first one on. Main statements:

* `Block.blockAt_kept`: the block at a line, for each kind of block;
* `Block.parse_kept`: the blocks of a region;
* `Document.filter_readings`: the blocks of a document.
-/

namespace Folio

namespace Block

variable {p : Char → Bool} {inner : Inner} {r content : Region} {l m : Line}
  {ls chunk after : List Line}

/-! ### Lines and pieces -/

/-- A block and the lines that are left after it have the characters of all lines. -/
def Keeps (p : Char → Bool) (l : Line) (ls : List Line) (taken : Taken) : Prop :=
  taken.1.reading.filter p ++ (Line.join (ls.filter (taken.2 ≤ ·.start))).filter p =
    (Line.join (l :: ls)).filter p

/-- The lines after the last line of a chunk. -/
theorem filter_chunk (suffix : l :: (chunk ++ after) <:+ r.lines) :
    (chunk ++ after).filter (((l :: chunk).getLast?.getD l).next ≤ ·.start) = after := by
  obtain ⟨before, later⟩ := Line.next_of_getLast? suffix
  rw [List.filter_append, List.filter_eq_nil_iff.2, List.filter_eq_self.2, List.nil_append]
  · intro m mem
    exact decide_eq_true (later m mem)
  · intro m mem
    simpa using (before m (List.mem_cons_of_mem l mem)).1

/-- A block that has the characters of the lines that it takes. -/
theorem keeps_of_chunk {block : Block} (suffix : l :: ls <:+ r.lines) (lines : ls = chunk ++ after)
    (kept : block.reading.filter p = (Line.join (l :: chunk)).filter p) :
    Keeps p l ls (block, ((l :: chunk).getLast?.getD l).next) := by
  subst lines
  rw [Keeps, filter_chunk suffix, kept, ← List.filter_append, ← Line.join_append, List.cons_append]

theorem filter_intercalate (eol : p '\n' = false) (texts : List Text) :
    (['\n'].intercalate texts).filter p = texts.flatMap fun w => w.filter p := by
  induction texts with
  | nil => rfl
  | cons w texts ih =>
    cases texts with
    | nil =>
      rw [List.intercalate_singleton]
      exact (List.append_nil _).symm
    | cons v texts =>
      have none : ['\n'].filter p = [] := List.filter_cons_of_neg (Bool.eq_false_iff.1 eol)
      rw [List.intercalate_cons_cons, List.filter_append, List.filter_append, none,
        List.append_nil, ih]
      rfl

/-- Joined pieces of a text without tags have none. -/
theorem angle_of_gather {pieces : List (Nat × Nat)} (angle : '<' ∉ r.text)
    (h : gather r pieces = .ok content) : '<' ∉ content.text :=
  fun mem => (mem_of_gather h mem).elim nofun angle

/-- The content of a container without tags is read without loss. -/
def ReadsKept (p : Char → Bool) (inner : Inner) : Prop :=
  ∀ r : Region, '<' ∉ r.text →
    Outcome (fun _ => True) (fun bs => (readings bs).filter p = r.text.filter p) (inner r)

section Kept

variable (unmarked : Text.IsUnmarked p)

include unmarked

theorem filter_raw (l : Line) : l.raw.filter p = l.text.filter p := by
  have ending : l.ending.text.filter p = [] := by
    refine unmarked.filter_eq_nil ?_
    cases l.ending <;> exact List.all_eq_true.1 rfl
  rw [Line.raw, List.filter_append, ending, List.append_nil]

theorem filter_join (ls : List Line) :
    (Line.join ls).filter p = ls.flatMap fun m => m.text.filter p := by
  induction ls with
  | nil => rfl
  | cons l ls ih => rw [Line.join_cons, List.filter_append, filter_raw unmarked, ih, List.flatMap_cons]

/-- Lines without marks at their beginnings, joined. -/
theorem filter_gather_lines {from_ : Line → Nat} (lines : ∀ m ∈ ls, m ∈ r.lines)
    (boundary : ∀ m ∈ ls, Text.isBoundary m.text (from_ m) = true)
    (marks : ∀ m ∈ ls, m.text.StartsInMarks (from_ m))
    (h : gather r (ls.map fun m => (m.start + from_ m, m.stop)) = .ok content) :
    content.text.filter p = (Line.join ls).filter p := by
  rw [text_of_gather_lines lines boundary h, filter_intercalate (unmarked '\n' rfl), filter_join unmarked,
    List.flatMap_map]
  exact List.flatMap_congr fun m mem => (marks m mem).filter_dropBytes unmarked

theorem inlines_kept (angle : '<' ∉ r.text) :
    Outcome (fun _ => True) (fun content => (Inline.readings content).filter p = r.text.filter p)
      (inlines r) := by
  have outcome := Inline.read_kept unmarked angle
  unfold inlines
  split
  · rename_i read
    rw [read] at outcome
    exact outcome
  · trivial

/-! ### Leaves -/

section Blocks

variable (suffix : l :: ls <:+ r.lines)

include suffix

/-- A block of one line. -/
theorem keeps_of_line {block : Block} (kept : block.reading.filter p = l.text.filter p) :
    Keeps p l ls (block, l.next) := by
  have whole : block.reading.filter p = (Line.join [l]).filter p := by
    rw [filter_join unmarked, List.flatMap_singleton, kept]
  have lines : ls = [] ++ ls := rfl
  have keeps := keeps_of_chunk suffix lines whole
  exact keeps

theorem thematicBreak_kept (kind : isThematicBreak l.text = true) (span : Span) :
    Keeps p l ls (.thematicBreak span, l.next) := by
  refine keeps_of_line unmarked suffix ?_
  rw [filter_isThematicBreak unmarked kind]
  rfl

theorem fenced_kept {fence : Fence} (kind : Fence.open? l.text = some fence) :
    Keeps p l ls (fenced r fence l ls) := by
  obtain ⟨mark, said⟩ := Fence.filter_open? unmarked kind
  obtain ⟨after, lines⟩ := exists_append_fenceLines fence ls
  have close : (ls.dropWhile fence.staysOpen).head?.toList.flatMap (fun m => m.text.filter p) = [] := by
    have ended := List.head?_dropWhile_not fence.staysOpen ls
    cases last : (ls.dropWhile fence.staysOpen).head? with
    | none => rfl
    | some m =>
      rw [last] at ended
      have closes : fence.closes m.text = true := by simpa [Fence.staysOpen] using ended
      rw [Option.toList_some, List.flatMap_singleton, Fence.filter_closes unmarked mark closes]
  have code : ((ls.takeWhile fence.staysOpen).flatMap
      fun m => outdent fence.indent m.text ++ ['\n']).filter p =
        (ls.takeWhile fence.staysOpen).flatMap fun m => m.text.filter p := by
    have eol : ['\n'].filter p = [] := unmarked.filter_eq_nil (List.forall_mem_singleton.2 rfl)
    rw [List.filter_flatMap]
    refine List.flatMap_congr fun m _ => ?_
    rw [List.filter_append, eol, List.append_nil, filter_outdent unmarked]
  rw [fenced_eq]
  refine keeps_of_chunk suffix lines ?_
  rw [reading, List.filter_append, String.toList_ofList, code, ← said, filter_join unmarked,
    List.flatMap_cons, fenceLines, List.flatMap_append, close, List.append_nil]

variable (angle : '<' ∉ r.text)

include angle

theorem titled_kept {mark : HeadingMark} (kind : HeadingMark.ofLine? l.text = some mark) :
    Outcome (fun _ => True) (Keeps p l ls) (titled r mark l) := by
  have mem : l ∈ r.lines := suffix.subset List.mem_cons_self
  unfold titled
  cases taken : slice r (l.start + mark.start) (l.start + mark.stop) with
  | error halt => trivial
  | ok content =>
    have fills := fills_of_slice taken
    obtain ⟨w, inside, size⟩ := (HeadingMark.isCut_of_ofLine? kind).exists_holds
    have said := HeadingMark.filter_fills unmarked kind ⟨inside, size⟩
    rw [← fills.unique (Line.fills mem ⟨inside, size⟩)] at said
    have angle' : '<' ∉ content.text := fun mem => angle (fills.isInfix.subset mem)
    refine (inlines_kept unmarked angle').bind fun children kept => ?_
    exact keeps_of_line unmarked suffix (kept.trans said)

theorem paragraphAt_kept : Outcome (fun _ => True) (Keeps p l ls) (paragraphAt r l ls) := by
  have lines : ls = ls.takeWhile goesOn ++ ls.dropWhile goesOn :=
    List.takeWhile_append_dropWhile.symm
  have among : ∀ m ∈ l :: ls.takeWhile goesOn, m ∈ r.lines := fun m mem =>
    suffix.subset (List.cons_subset_cons l (List.takeWhile_subset _) mem)
  rw [paragraphAt_eq]
  cases joined : gather r
      ((l :: ls.takeWhile goesOn).map fun m => (m.start + indentation m.text, m.stop)) with
  | error halt => trivial
  | ok content =>
    have kept := filter_gather_lines unmarked among
      (fun m _ => isBoundary_of_le_indentation (Nat.le_refl _))
      (fun m _ => startsInMarks_of_le_indentation (Nat.le_refl _)) joined
    refine (inlines_kept unmarked (angle_of_gather angle joined)).bind fun children inside => ?_
    exact keeps_of_chunk suffix lines (inside.trans kept)

/-! ### Containers -/

theorem quoted_kept (reads : ReadsKept p inner) (kind : isQuoted l = true) :
    Outcome (fun _ => True) (Keeps p l ls) (quoted inner r l ls) := by
  have lines : ls = ls.takeWhile isQuoted ++ ls.dropWhile isQuoted :=
    List.takeWhile_append_dropWhile.symm
  have among : ∀ m ∈ l :: ls.takeWhile isQuoted, m ∈ r.lines := fun m mem =>
    suffix.subset (List.cons_subset_cons l (List.takeWhile_subset _) mem)
  have marked : ∀ m ∈ l :: ls.takeWhile isQuoted, ∃ n, quoteMark? m.text = some n := by
    refine List.forall_mem_cons.2 ⟨Option.isSome_iff_exists.1 kind, fun m mem => ?_⟩
    exact Option.isSome_iff_exists.1 (List.all_eq_true.1 (List.all_takeWhile (p := isQuoted)) m mem)
  have boundary : ∀ m ∈ l :: ls.takeWhile isQuoted,
      Text.isBoundary m.text ((quoteMark? m.text).getD 0) = true := by
    intro m mem
    obtain ⟨n, mark⟩ := marked m mem
    rw [mark]
    exact isBoundary_of_quoteMark? mark
  have marks : ∀ m ∈ l :: ls.takeWhile isQuoted,
      m.text.StartsInMarks ((quoteMark? m.text).getD 0) := by
    intro m mem
    obtain ⟨n, mark⟩ := marked m mem
    rw [mark]
    exact startsInMarks_of_quoteMark? mark
  have pieces : ((l :: ls.takeWhile isQuoted).map fun m =>
      (min (m.start + (quoteMark? m.text).getD 0) m.stop, m.stop)) =
        (l :: ls.takeWhile isQuoted).map fun m =>
          (m.start + (quoteMark? m.text).getD 0, m.stop) :=
    List.map_congr_left fun m mem => by rw [Line.min_stop (boundary m mem)]
  rw [quoted_eq r ls kind, pieces]
  cases joined : gather r ((l :: ls.takeWhile isQuoted).map fun m =>
      (m.start + (quoteMark? m.text).getD 0, m.stop)) with
  | error halt => trivial
  | ok content =>
    have kept := filter_gather_lines unmarked among boundary marks joined
    refine (reads content (angle_of_gather angle joined)).bind fun children inside => ?_
    exact keeps_of_chunk suffix lines (inside.trans kept)

end Blocks

/-! ### List items -/

omit unmarked in
/-- What stands in pieces, of which the latest comes first, has the given characters. -/
def HasPieces (p : Char → Bool) (s : Text) (pieces : List (Nat × Nat)) (kept : Text) : Prop :=
  ∃ texts, List.Forall₂ s.Fills pieces texts ∧ texts.reverse.flatMap (fun w => w.filter p) = kept

omit unmarked in
theorem HasPieces.cons {s w kept : Text} {piece : Nat × Nat} {pieces : List (Nat × Nat)}
    (h : HasPieces p s pieces kept) (fills : s.Fills piece w) :
    HasPieces p s (piece :: pieces) (kept ++ w.filter p) := by
  obtain ⟨texts, filled, rfl⟩ := h
  exact ⟨w :: texts, .cons fills filled, by simp⟩

omit unmarked in
/-- Empty pieces say nothing. -/
theorem HasPieces.dropEmpty {s kept : Text} {pieces : List (Nat × Nat)}
    (h : HasPieces p s pieces kept) : HasPieces p s (dropEmpty pieces) kept := by
  fun_induction Block.dropEmpty pieces with
  | case1 => exact h
  | case2 => exact h
  | case3 start stop q qs empty ih =>
    obtain ⟨texts, filled, rfl⟩ := h
    obtain ⟨w, rest, first, more, rfl⟩ := List.forall₂_cons_left_iff.1 filled
    obtain rfl : w = [] := first.eq_iff.1 (beq_iff_eq.1 empty)
    exact ih ⟨rest, more, by simp⟩
  | case4 => exact h

/-- The characters of joined pieces. -/
theorem HasPieces.content_eq {kept : Text} {pieces : List (Nat × Nat)}
    (h : HasPieces p r.text pieces kept) (joined : gather r pieces.reverse = .ok content) :
    content.text.filter p = kept := by
  obtain ⟨texts, filled, rfl⟩ := h
  obtain ⟨texts', filled', text_eq⟩ := exists_fills_of_gather joined
  have same : texts' = texts.reverse :=
    List.right_unique_forall₂' (fun _ _ _ h h' => h.unique h') filled' (List.forall₂_reverse_iff.2 filled)
  rw [text_eq, same, filter_intercalate (unmarked '\n' rfl)]

/-- An item goes on with the characters of the line that it takes. -/
theorem hasPieces_of_takeLine? {column : Nat} {item item' : ItemLines} {kept : Text}
    (mem : m ∈ r.lines) (taken : takeLine? column item m = some item')
    (h : HasPieces p r.text item.pieces kept) :
    HasPieces p r.text item'.pieces (kept ++ m.text.filter p) := by
  have filled : ∀ n ≤ indentation m.text,
      HasPieces p r.text ((m.start + n, m.stop) :: item.pieces) (kept ++ m.text.filter p) := by
    intro n le
    rw [← (startsInMarks_of_le_indentation le).filter_dropBytes unmarked]
    exact h.cons (Line.fills_dropBytes mem (isBoundary_of_le_indentation le))
  unfold takeLine? at taken
  split at taken
  · rename_i blank
    cases taken
    rw [filter_isBlank unmarked blank, ← List.filter_nil (p := p)]
    exact h.cons ⟨Text.holds_nil_iff.2 (isBoundary_start mem), rfl⟩
  · split at taken
    · rename_i deep
      cases taken
      exact filled column deep
    · split at taken
      · cases taken
        exact filled _ (Nat.le_refl _)
      · cases taken

theorem hasPieces_itemLines {column : Nat} {item : ItemLines} {kept : Text}
    (lines : ∀ m ∈ ls, m ∈ r.lines) (h : HasPieces p r.text item.pieces kept) :
    ∃ chunk, ls = chunk ++ (itemLines column item ls).rest ∧
      HasPieces p r.text (itemLines column item ls).pieces
        (kept ++ (Line.join chunk).filter p) := by
  induction ls generalizing item kept with
  | nil => exact ⟨[], rfl, by rw [itemLines]; simpa [Line.join] using h⟩
  | cons m ls ih =>
    rw [List.forall_mem_cons] at lines
    rw [itemLines_cons]
    cases step : takeLine? column item m with
    | none => exact ⟨[], rfl, by simpa [Line.join] using h⟩
    | some item' =>
      obtain ⟨chunk, eq, pieces⟩ := ih lines.2 (hasPieces_of_takeLine? unmarked lines.1 step h)
      refine ⟨m :: chunk, congrArg (m :: ·) eq, ?_⟩
      rw [Line.join_cons, List.filter_append, filter_raw unmarked, ← List.append_assoc]
      exact pieces

/-- An item has the characters of the lines that it takes. -/
theorem itemAt_kept {mark : ListMark} (suffix : l :: ls <:+ r.lines) (angle : '<' ∉ r.text)
    (reads : ReadsKept p inner) (kind : ListMark.ofLine? l.text = some mark) :
    Outcome (fun _ => True) (fun read => read.2 = itemFrom mark l ls ∧
        ∃ chunk, ls = chunk ++ read.2.rest ∧
          read.1.reading.filter p = (Line.join (l :: chunk)).filter p)
      (itemAt inner r mark l ls) := by
  have mem : l ∈ r.lines := suffix.subset List.mem_cons_self
  have boundary := ListMark.isBoundary_of_ofLine? kind
  have first : HasPieces p r.text [(min (l.start + mark.content) l.stop, l.stop)]
      ([] ++ l.text.filter p) := by
    rw [Line.min_stop boundary, ← (startsInMarks_of_listMark kind).filter_dropBytes unmarked]
    exact HasPieces.cons ⟨[], .nil, rfl⟩ (Line.fills_dropBytes mem boundary)
  obtain ⟨chunk, lines, pieces⟩ : ∃ chunk, ls = chunk ++ (itemFrom mark l ls).rest ∧
      HasPieces p r.text (itemFrom mark l ls).pieces
        ([] ++ l.text.filter p ++ (Line.join chunk).filter p) :=
    hasPieces_itemLines unmarked (fun m mem => suffix.subset (List.mem_cons_of_mem l mem)) first
  rw [itemAt_eq]
  cases joined : itemContent r mark l ls with
  | error halt => trivial
  | ok content =>
    have kept := pieces.dropEmpty.content_eq unmarked joined
    refine (reads content (angle_of_gather angle joined)).bind fun children inside => ?_
    refine ⟨rfl, chunk, lines, inside.trans (kept.trans ?_)⟩
    rw [List.nil_append, Line.join_cons, List.filter_append, filter_raw unmarked]

omit unmarked in
/-- Items and the lines that are left after them have the characters of all lines, and the first
line is taken if it has a mark. -/
structure KeepsItems (p : Char → Bool) (ordered : Bool) (resume : Nat) (ls : List Line)
    (items : Items) : Prop where
  le : resume ≤ items.resume
  first : ∀ l ∈ ls.head?, (itemMark? ordered l.text).isSome → l.start < items.resume
  kept : (ListItem.readings items.items).filter p ++
      (Line.join (ls.filter (items.resume ≤ ·.start))).filter p =
    (Line.join (ls.filter (resume ≤ ·.start))).filter p

theorem itemsFrom_kept {ordered : Bool} (stop : Nat) {resume : Nat} (suffix : ls <:+ r.lines)
    (angle : '<' ∉ r.text) (reads : ReadsKept p inner) :
    Outcome (fun _ => True) (KeepsItems p ordered resume ls)
      (itemsFrom inner r ordered stop resume ls) := by
  induction ls generalizing stop resume with
  | nil => exact ⟨Nat.le_refl _, nofun, rfl⟩
  | cons l ls ih =>
    have suffix' := (List.suffix_cons l ls).trans suffix
    rw [itemsFrom]
    split
    · rename_i passed
      refine (ih stop suffix').mono (fun _ _ => trivial) fun items more => ?_
      have later : l.start < items.resume := Nat.lt_of_lt_of_le passed more.le
      refine ⟨more.le, ?_, ?_⟩
      · rintro l ⟨⟩ -
        exact later
      · rw [List.filter_cons_of_neg (by simpa using later),
          List.filter_cons_of_neg (by simpa using passed), more.kept]
    · rename_i reached
      split
      · rename_i none
        refine ⟨Nat.le_refl _, ?_, rfl⟩
        rintro l ⟨⟩ marked
        rw [none] at marked
        cases marked
      · rename_i mark found
        refine (itemAt_kept unmarked suffix angle reads (Option.mem_filter_iff.1 found).1).bind ?_
        rintro ⟨item, lines⟩ ⟨rfl, chunk, lines_eq, said⟩
        dsimp only at lines_eq said ⊢
        obtain ⟨chunk', lines_eq', takes⟩ := exists_itemFrom_takes mark l ls
        obtain rfl : chunk = chunk' := List.append_cancel_right (lines_eq.symm.trans lines_eq')
        -- the item takes the lines before those that are left
        have left : ls.filter ((itemFrom mark l ls).resume ≤ ·.start) = (itemFrom mark l ls).rest := by
          rw [takes.resume]
          conv_lhs =>
            arg 2
            rw [lines_eq]
          exact filter_chunk (lines_eq ▸ suffix)
        have taken : l.start < (itemFrom mark l ls).resume := by
          rw [takes.resume]
          exact ((Line.next_of_getLast? (lines_eq ▸ suffix)).1 l List.mem_cons_self).1
        have all : (l :: ls).filter (resume ≤ ·.start) = l :: ls := by
          refine List.filter_eq_self.2 fun m mem => decide_eq_true ?_
          exact Nat.le_trans (Nat.le_of_not_lt reached) (Line.start_le_of_mem suffix mem)
        refine (ih _ suffix').bind fun items more => ?_
        have later : l.start < items.resume := Nat.lt_of_lt_of_le taken more.le
        refine ⟨Nat.le_trans (Nat.le_of_not_lt reached) (Nat.le_of_lt later), ?_, ?_⟩
        · rintro l ⟨⟩ -
          exact later
        · rw [List.filter_cons_of_neg (by simpa using later), all, ListItem.readings,
            List.filter_append, List.append_assoc, more.kept, left, said, ← List.filter_append,
            ← Line.join_append, List.cons_append, ← lines_eq]

theorem listed_kept {mark : ListMark} (suffix : l :: ls <:+ r.lines) (angle : '<' ∉ r.text)
    (reads : ReadsKept p inner) (kind : ListMark.ofLine? l.text = some mark)
    (rule : isThematicBreak l.text = false) :
    Outcome (fun _ => True) (Keeps p l ls) (listed inner r mark l ls) := by
  have marked := itemMark?_of_listMark kind rule
  have all : (l :: ls).filter (l.start ≤ ·.start) = l :: ls :=
    List.filter_eq_self.2 fun m mem => decide_eq_true (Line.start_le_of_mem suffix mem)
  refine (itemsFrom_kept unmarked l.stop suffix angle reads).bind fun items more => ?_
  have kept := more.kept
  rw [List.filter_cons_of_neg (by simpa using more.first l rfl (marked ▸ rfl)), all] at kept
  exact kept

/-! ### Regions -/

/-- The block at a line has the characters of the lines that it takes. -/
theorem blockAt_kept (suffix : l :: ls <:+ r.lines) (angle : '<' ∉ r.text)
    (reads : ReadsKept p inner) :
    Outcome (fun _ => True) (Keeps p l ls) (blockAt inner r l ls) := by
  obtain ⟨other, unclosed⟩ := opening_of_angle fun among =>
    angle ((Line.holds (suffix.subset List.mem_cons_self)).mem among)
  have fits := opening_fits l.text
  rw [blockAt_eq]
  cases kind : opening l.text with
  | widget => exact absurd kind other
  | closingTag name => exact absurd kind (unclosed name)
  | paragraph => exact paragraphAt_kept unmarked suffix angle
  | fence fence =>
    rw [kind] at fits
    exact fenced_kept unmarked suffix fits
  | heading mark =>
    rw [kind] at fits
    exact titled_kept unmarked suffix angle fits
  | thematicBreak =>
    rw [kind] at fits
    exact thematicBreak_kept unmarked suffix fits _
  | quote =>
    rw [kind] at fits
    exact quoted_kept unmarked suffix angle reads fits
  | list mark =>
    rw [kind] at fits
    exact listed_kept unmarked suffix angle reads fits.1 fits.2

theorem blocksFrom_kept (resume : Nat) (suffix : ls <:+ r.lines) (angle : '<' ∉ r.text)
    (reads : ReadsKept p inner) :
    Outcome (fun _ => True)
      (fun bs => (readings bs).filter p = (Line.join (ls.filter (resume ≤ ·.start))).filter p)
      (blocksFrom inner r [] resume ls) := by
  induction ls generalizing resume with
  | nil => rfl
  | cons l ls ih =>
    have suffix' := (List.suffix_cons l ls).trans suffix
    rw [blocksFrom, List.find?_nil]
    split
    · rename_i passed
      rw [List.filter_cons_of_neg (by simpa using passed)]
      exact ih _ suffix'
    · rename_i reached
      dsimp only
      split
      · rename_i blank
        rw [List.filter_cons_of_pos (by simpa using reached), Line.join_cons, List.filter_append,
          filter_raw unmarked, filter_isBlank unmarked blank, List.nil_append]
        exact ih _ suffix'
      · have all : (l :: ls).filter (resume ≤ ·.start) = l :: ls := by
          refine List.filter_eq_self.2 fun m mem => decide_eq_true ?_
          exact Nat.le_trans (Nat.le_of_not_lt reached) (Line.start_le_of_mem suffix mem)
        rw [all]
        refine (blockAt_kept unmarked suffix angle reads).bind ?_
        rintro ⟨block, resume'⟩ kept
        refine (ih _ suffix').bind fun bs more => ?_
        show (block.reading ++ readings bs).filter p = (Line.join (l :: ls)).filter p
        rw [List.filter_append, more]
        exact kept

/-- Reading a region without tags loses, repeats and moves no character of a class that no mark is
made of. -/
theorem parse_kept (levels : Nat) : ReadsKept p (parse levels []) := by
  induction levels with
  | zero => exact fun r angle => trivial
  | succ levels ih =>
    intro r angle
    have all : r.lines.filter (0 ≤ ·.start) = r.lines :=
      List.filter_eq_self.2 fun m mem => decide_eq_true (Nat.zero_le _)
    have kept := blocksFrom_kept unmarked 0 (List.suffix_refl r.lines) angle ih
    rw [all, Region.lines, Line.join_split] at kept
    exact kept

end Kept
end Block

/-- Reading a source without tags and declarations loses, repeats and moves no text: for each class
of characters that no mark is made of, as the letters are, the characters of the class in the source
are those in what its blocks say, in the same order. -/
theorem Document.filter_readings {formats : Formats} {source : Text} {d : Document}
    {p : Char → Bool} (unmarked : Text.IsUnmarked p) (angle : '<' ∉ source)
    (bare : Declaration.scan source = []) (parsed : Document.parse formats source = .ok d) :
    source.filter p = (Block.readings d.blocks).filter p := by
  have kept := Block.parse_kept unmarked maxNesting (Region.root source)
    (by rwa [Region.text_root])
  rw [Document.parse_of_scan_eq_nil bare] at parsed
  cases read : Block.parse maxNesting [] (Region.root source) with
  | error halt =>
    rw [read] at parsed
    cases parsed
  | ok blocks =>
    rw [read] at parsed kept
    cases parsed
    rw [Region.text_root] at kept
    exact kept.symm

/-- An item in a quote, with emphasis and a link, and indented code. -/
theorem Document.filter_readings_nested :
    let formats : Formats := { json := fun _ => .error "", yaml := fun _ => .error "" }
    let letter : Char → Bool := fun c => Text.isLetter c && !c.isDigit
    let source : Text := ['>', ' ', '1', '.', ' ', '*', 'a', '*', ' ', '[', 'b', ']', '(', 'c', ')',
      '\n', ' ', '~', '~', '~', 'd', '\n', ' ', 'e', '\n']
    let d : Document := ⟨none, [], [.quote [.list true (some 1) true [.mk [.paragraph
      [.emphasis [.text "a"], .text " ", .link "c" [.text "b"]] ⟨5, 15⟩] ⟨2, 15⟩] ⟨2, 15⟩] ⟨0, 15⟩,
      .code (some "d") "e\n" ⟨16, 24⟩]⟩
    Text.IsUnmarked letter ∧ '<' ∉ source ∧ Declaration.scan source = [] ∧
      Document.parse formats source = .ok d ∧
      source.filter letter = (Block.readings d.blocks).filter letter := by
  intro formats letter source d
  have unmarked : Text.IsUnmarked letter :=
    Text.isUnmarked_of_isLetter fun c among => by simpa [letter] using among
  have angle : '<' ∉ source := by decide
  have bare : Declaration.scan source = [] := by decide
  have parsed : Document.parse formats source = .ok d := by
    rw [Document.parse_of_scan_eq_nil bare]
    unfold source d
    rfl
  exact ⟨unmarked, angle, bare, parsed, filter_readings unmarked angle bare parsed⟩

end Folio
