import Folio.Proofs.Markup.BlockSpans

/-!
# Spans and errors of containers

The content of a quote, of a list item and of a widget's body is a faithful region that starts at a
visible offset. So by induction on the nesting the blocks of a document lie in its source, each in
its container and after the block before it. Main statements:

* `Block.quoted_outcome`, `Block.listed_outcome` and `Block.widgetAt_outcome`: each kind of
  container, when its content is read one level deeper;
* `Block.parse_outcome`: the blocks of a faithful region lie in the source, or an error is found
  there.
-/

namespace Folio
namespace Block

variable {source : Text} {r : Region} {l : Line} {ls : List Line} {lo hi : Nat} {inner : Inner}

/-- The content of a container in a range. -/
structure Contained (source : Text) (lo hi : Nat) (content : Region) : Prop where
  faithful : Region.Faithful source content
  lo : lo ≤ content.toSource 0
  hi : content.stop ≤ hi
  visible : source.IsVisible (content.toSource 0)

/-- The blocks of contents lie in their ranges, or an error is found. -/
def Reads (source : Text) (inner : Inner) : Prop :=
  ∀ content lo hi, Contained source lo hi content →
    Outcome (Halt.Points source) (Block.AllLie source (Span.Reaches source) lo hi) (inner content)

/-- A part of a region that starts in a line that is not blank. -/
theorem Part.contained {start stop n : Nat} {content : Region} (h : Region.Faithful source r)
    (part : Part source r start stop content) (mem : l ∈ r.lines)
    (filled : Text.isBlank l.text = false) (start_eq : start = l.start + n)
    (boundary : Text.isBoundary l.text n = true) :
    Contained source (r.toSource l.start) (r.toSource stop) content where
  faithful := part.faithful
  lo := by
    rw [part.start]
    exact h.toSource_le ⟨by omega, isBoundary_start mem, part.boundary⟩
  hi := Nat.le_of_eq part.stop
  visible := by
    rw [part.start, start_eq]
    exact h.isVisible (Line.isVisible mem filled boundary)

/-! ### Quotes -/

theorem isBlank_of_mem {line : Text} {c : Char} (mem : c ∈ line)
    (visible : Text.isBlankChar c = false) : Text.isBlank line = false := by
  rw [Text.isBlank, List.all_eq_false]
  exact ⟨c, mem, by rw [visible]; exact Bool.false_ne_true⟩

theorem isBlank_of_unindent? {line rest : Text} {c : Char} (h : unindent? line = some (c :: rest))
    (visible : Text.isBlankChar c = false) : Text.isBlank line = false := by
  have line_eq := eq_append_of_unindent? h
  refine isBlank_of_mem (c := c) ?_ visible
  rw [line_eq]
  exact List.mem_append_right _ List.mem_cons_self

theorem isBlank_of_quoteMark? {line : Text} {n : Nat} (h : quoteMark? line = some n) :
    Text.isBlank line = false := by
  unfold quoteMark? at h
  obtain ⟨rest, unindented, marked⟩ := Option.bind_eq_some_iff.1 h
  split at marked
  · exact isBlank_of_unindent? unindented rfl
  · exact isBlank_of_unindent? unindented rfl
  · cases marked

section Containers

variable (h : Region.Faithful source r) (suffix : l :: ls <:+ r.lines) (reads : Reads source inner)

include h suffix reads

theorem quoted_outcome (kind : (quoteMark? l.text).isSome = true) :
    Outcome (Halt.Points source) (Lands source r l.start) (quoted inner r l ls) := by
  have mem : l ∈ r.lines := suffix.subset List.mem_cons_self
  obtain ⟨n, mark⟩ := Option.isSome_iff_exists.1 kind
  have boundary := isBoundary_of_quoteMark? mark
  have fills : ∀ m : Line, (quoteMark? m.text).isSome = true → Text.isBlank m.text = false := by
    intro m marked
    obtain ⟨n, mark⟩ := Option.isSome_iff_exists.1 marked
    exact isBlank_of_quoteMark? mark
  obtain ⟨last, last_mem, last_eq, reaches⟩ := exists_last_taken h suffix (fills l kind) _ fills
  have taken : (l :: ls).takeWhile (fun m => (quoteMark? m.text).isSome) =
      l :: ls.takeWhile fun m => (quoteMark? m.text).isSome := by
    rw [List.takeWhile_cons, if_pos kind]
  unfold quoted
  dsimp only
  rw [taken, last_eq, Option.getD_some]
  have from_le : ∀ m : Line, m.start ≤ min (m.start + (quoteMark? m.text).getD 0) m.stop :=
    fun m => Nat.le_min.2 ⟨Nat.le_add_right .., m.le_stop⟩
  refine (gather_lines h suffix (List.takeWhile_sublist _) _ from_le last_eq).bind
    fun content part => ?_
  have start_eq : min (l.start + (quoteMark? l.text).getD 0) l.stop = l.start + n := by
    rw [mark, Option.getD_some, Line.min_stop boundary]
  refine (reads content _ _ (part.contained h mem (fills l kind) start_eq boundary)).bind ?_
  intro children inside
  exact ⟨last.stop, last.stop_le_next, isBoundary_stop last_mem, r.toSource last.stop, reaches,
    Nat.le_refl _, Nat.le_refl _, inside⟩

end Containers

/-! ### List items -/

theorem exists_of_bullet? {rest : Text} {mark : Option Nat × Nat}
    (h : ListMark.bullet? rest = some mark) :
    ∃ c t, rest = c :: t ∧ Text.isBlankChar c = false := by
  unfold ListMark.bullet? at h
  split at h
  · exact ⟨_, _, rfl, rfl⟩
  · exact ⟨_, _, rfl, rfl⟩
  · exact ⟨_, _, rfl, rfl⟩
  · dsimp only at h
    split at h
    · cases h
    · rename_i digits
      rw [Bool.or_eq_true, not_or] at digits
      cases rest with
      | nil => exact absurd rfl digits.1
      | cons c t =>
        refine ⟨c, t, rfl, ?_⟩
        by_cases digit : c.isDigit = true
        · exact Text.isBlankChar_of_isDigit digit
        · rw [List.takeWhile_cons, if_neg digit] at digits
          exact absurd rfl digits.1

theorem isBlank_of_listMark {line : Text} {mark : ListMark} (h : ListMark.ofLine? line = some mark) :
    Text.isBlank line = false := by
  unfold ListMark.ofLine? at h
  obtain ⟨rest, unindented, marked⟩ := Option.bind_eq_some_iff.1 h
  obtain ⟨bullet, found, -⟩ := Option.bind_eq_some_iff.1 marked
  obtain ⟨c, t, rfl, visible⟩ := exists_of_bullet? found
  exact isBlank_of_unindent? unindented visible

theorem itemMark?_of_listMark {line : Text} {mark : ListMark} (kind : ListMark.ofLine? line = some mark)
    (rule : isThematicBreak line = false) : itemMark? mark.ordered line = some mark := by
  rw [itemMark?, kind, Option.filter_some, rule]
  simp

theorem dropEmpty_cons_empty {n : Nat} {ps : List (Nat × Nat)} (nonempty : ps ≠ []) :
    dropEmpty ((n, n) :: ps) = dropEmpty ps := by
  cases ps with
  | nil => contradiction
  | cons p ps => rw [dropEmpty, if_pos (beq_self_eq_true n)]

theorem dropEmpty_cons_filled {m n : Nat} {ps : List (Nat × Nat)} (lt : m < n) :
    dropEmpty ((m, n) :: ps) = (m, n) :: ps := by
  cases ps with
  | nil => rfl
  | cons p ps => rw [dropEmpty, if_neg (by simpa using Nat.ne_of_lt lt)]

theorem suffix_dropEmpty (ps : List (Nat × Nat)) : dropEmpty ps <:+ ps := by
  fun_induction dropEmpty ps with
  | case1 => exact List.suffix_refl _
  | case2 p => exact List.suffix_refl _
  | case3 start stop p ps empty ih => exact ih.trans (List.suffix_cons _ _)
  | case4 start stop p ps filled => exact List.suffix_refl _

theorem getLast?_dropEmpty (ps : List (Nat × Nat)) : (dropEmpty ps).getLast? = ps.getLast? := by
  fun_induction dropEmpty ps with
  | case1 => rfl
  | case2 p => rfl
  | case3 start stop p ps empty ih => rw [ih, List.getLast?_cons_cons]
  | case4 start stop p ps filled => rfl

/-- A line with content ends what the item or the list that starts at a line takes. -/
structure Ends (r : Region) (l last : Line) (resume : Nat) : Prop where
  mem : last ∈ r.lines
  le : l.start ≤ last.start
  filled : Text.isBlank last.text = false
  resume : last.stop ≤ resume

/-- The lines of the item that starts at the line `l`, before the lines `ls`: the latest piece comes
first, and `first` is the piece of the line `l`. -/
structure Collected (r : Region) (l : Line) (first : Nat × Nat) (ls : List Line)
    (item : ItemLines) : Prop where
  ends : Ends r l item.last item.resume
  are_pieces : ∀ p ∈ item.pieces, r.text.IsCut p.1 p.2 → r.text.IsPiece p
  apart : item.pieces.Pairwise fun q p => r.text.Gap p.2 q.1
  before : ∀ p ∈ item.pieces, ∀ m ∈ ls, r.text.Gap p.2 m.start
  first : item.pieces.getLast? = some first
  last : ∃ start ps, dropEmpty item.pieces = (start, item.last.stop) :: ps

/-- An item goes on with a piece of a line. -/
theorem Collected.cons {first piece : Nat × Nat} {item : ItemLines} {m : Line} {ms : List Line}
    (h : Collected r l first (m :: ms) item) (le : m.start ≤ piece.1)
    (is_piece : r.text.IsCut piece.1 piece.2 → r.text.IsPiece piece)
    (gap : ∀ m' ∈ ms, r.text.Gap piece.2 m'.start) {last : Line} {resume : Nat}
    (loose blanksAfter : Bool) (ends : Ends r l last resume)
    (last_piece : ∃ start ps, dropEmpty (piece :: item.pieces) = (start, last.stop) :: ps) :
    Collected r l first ms
      { item with pieces := piece :: item.pieces, last, loose, blanksAfter, resume } where
  ends := ends
  are_pieces := List.forall_mem_cons.2 ⟨is_piece, h.are_pieces⟩
  apart := .cons (fun p mem => (h.before p mem m List.mem_cons_self).mono le) h.apart
  before := List.forall_mem_cons.2
    ⟨gap, fun p mem m' mem' => h.before p mem m' (List.mem_cons_of_mem m mem')⟩
  first := by
    rw [List.getLast?_cons, h.first]
    rfl
  last := last_piece

theorem indentation_lt_bytes {line : Text} (filled : Text.isBlank line = false) :
    indentation line < Text.bytes line := by
  have whole : line.takeWhile isIndent ++ line.dropWhile isIndent = line :=
    List.takeWhile_append_dropWhile
  have size := Text.bytes_append (line.takeWhile isIndent) (line.dropWhile isIndent)
  rw [whole, Text.bytes_eq_length fun c => utf8Size_of_mem_indent, ← indentation] at size
  cases rest : line.dropWhile isIndent with
  | nil =>
    -- a line of indentation is blank
    rw [rest, List.append_nil] at whole
    rw [Text.isBlank, List.all_eq_false] at filled
    obtain ⟨c, mem, visible⟩ := filled
    rw [← whole] at mem
    exact absurd (isBlankChar_of_isIndent (List.all_eq_true.1 List.all_takeWhile c mem)) visible
  | cons c t =>
    have := c.utf8Size_pos
    rw [rest, Text.bytes_cons] at size
    omega

theorem Collected.last_stop_lt {first : Nat × Nat} {item : ItemLines} {m : Line} {ms : List Line}
    (h : Collected r l first (m :: ms) item) : item.last.stop < m.start := by
  obtain ⟨start, ps, eq⟩ := h.last
  have mem : (start, item.last.stop) ∈ item.pieces := by
    refine (suffix_dropEmpty item.pieces).subset ?_
    rw [eq]
    exact List.mem_cons_self
  exact (h.before _ mem m List.mem_cons_self).lt

/-- An item goes on with a line that is not blank. -/
theorem Collected.cons_filled {first : Nat × Nat} {item : ItemLines} {m : Line} {ms : List Line}
    (h : Collected r l first (m :: ms) item) (suffix : m :: ms <:+ r.lines) (le : l.start ≤ m.start)
    {n : Nat} (within : n ≤ indentation m.text) (filled : Text.isBlank m.text = false)
    (loose blanksAfter : Bool) :
    Collected r l first ms
      { item with
        pieces := (m.start + n, m.stop) :: item.pieces, last := m, loose, blanksAfter
        resume := m.next } := by
  have mem : m ∈ r.lines := suffix.subset List.mem_cons_self
  have lt : m.start + n < m.stop := by
    have := indentation_lt_bytes filled
    rw [Line.stop]
    omega
  refine h.cons (Nat.le_add_right ..) (fun cut => Line.isPiece mem cut (Nat.le_add_right ..))
    (fun m' mem' => (Line.gap suffix mem').1) loose blanksAfter ⟨mem, le, filled, m.stop_le_next⟩ ?_
  exact ⟨m.start + n, item.pieces, dropEmpty_cons_filled lt⟩

theorem Collected.itemLines {column : Nat} {first : Nat × Nat} {item : ItemLines} {ms : List Line}
    (h : Collected r l first ms item) (suffix : ms <:+ r.lines)
    (after : ∀ m ∈ ms, l.start ≤ m.start) :
    Collected r l first [] (itemLines column item ms) := by
  fun_induction Block.itemLines column item ms with
  | case1 item =>
    exact ⟨h.ends, h.are_pieces, h.apart, fun p mem m mem' => absurd mem' List.not_mem_nil, h.first,
      h.last⟩
  | case5 item m ms =>
    exact ⟨h.ends, h.are_pieces, h.apart, fun p mem m mem' => absurd mem' List.not_mem_nil, h.first,
      h.last⟩
  | case2 item m ms blank ih =>
    have mem : m ∈ r.lines := suffix.subset List.mem_cons_self
    have nonempty : item.pieces ≠ [] := by
      intro empty
      have first := h.first
      rw [empty] at first
      cases first
    have ends : Ends r l item.last m.next := by
      refine ⟨h.ends.mem, h.ends.le, h.ends.filled, ?_⟩
      have := h.last_stop_lt
      have := m.le_stop
      have := m.stop_le_next
      omega
    have is_piece : r.text.IsPiece (m.start, m.start) :=
      ⟨[], Text.holds_nil_iff.2 (isBoundary_start mem), List.not_mem_nil, rfl⟩
    refine ih (h.cons (Nat.le_refl _) (fun _ => is_piece)
      (fun m' mem' => (Line.gap suffix mem').2 blank) _ _ ends ?_)
      ((List.suffix_cons m ms).trans suffix) (fun m' mem' => after m' (List.mem_cons_of_mem m mem'))
    rw [dropEmpty_cons_empty nonempty]
    exact h.last
  | case3 item m ms indent content deep ih =>
    rw [Bool.not_eq_true] at content
    exact ih (h.cons_filled suffix (after m List.mem_cons_self) deep content _ _)
      ((List.suffix_cons m ms).trans suffix) (fun m' mem' => after m' (List.mem_cons_of_mem m mem'))
  | case4 item m ms indent content shallow lazy ih =>
    rw [Bool.not_eq_true] at content
    exact ih (h.cons_filled suffix (after m List.mem_cons_self) (Nat.le_refl _) content _ _)
      ((List.suffix_cons m ms).trans suffix) (fun m' mem' => after m' (List.mem_cons_of_mem m mem'))

section Lists

variable (h : Region.Faithful source r) (reads : Reads source inner)

include h

/-- The content of an item. -/
theorem Collected.gather_outcome {first : Nat × Nat} {item : ItemLines}
    (collected : Collected r l first [] item) :
    Outcome (Halt.Points source) (Part source r first.1 item.last.stop)
      (gather r (dropEmpty item.pieces).reverse) := by
  have suffix := suffix_dropEmpty item.pieces
  obtain ⟨start, earlier, last_eq⟩ := collected.last
  obtain ⟨more, pieces_eq⟩ : ∃ more, (dropEmpty item.pieces).reverse = first :: more := by
    refine List.head?_eq_some_iff.1 ?_
    rw [List.head?_reverse, getLast?_dropEmpty, collected.first]
  have are_pieces : ∀ p ∈ first :: more, r.text.IsCut p.1 p.2 → r.text.IsPiece p := by
    intro p mem
    rw [← pieces_eq, List.mem_reverse] at mem
    exact collected.are_pieces p (suffix.subset mem)
  have apart : (first :: more).Pairwise fun p q => r.text.Gap p.2 q.1 := by
    rw [← pieces_eq, List.pairwise_reverse]
    exact collected.apart.sublist suffix.sublist
  have last_piece : (first :: more).getLast? = some (start, item.last.stop) := by
    rw [← pieces_eq, List.getLast?_reverse, last_eq]
    rfl
  rw [pieces_eq]
  exact Block.gather_outcome (start, item.last.stop) h are_pieces apart last_piece

include reads

theorem itemAt_outcome {mark : ListMark} (suffix : l :: ls <:+ r.lines)
    (kind : ListMark.ofLine? l.text = some mark) :
    Outcome (Halt.Points source) (fun (item, lines) => Ends r l lines.last lines.resume ∧
        item.Lies source (Span.Reaches source) (r.toSource l.start) (r.toSource lines.last.stop))
      (itemAt inner r mark l ls) := by
  have mem : l ∈ r.lines := suffix.subset List.mem_cons_self
  have filled := isBlank_of_listMark kind
  have boundary := ListMark.isBoundary_of_ofLine? kind
  have collected : Collected r l (l.start + mark.content, l.stop) [] (itemFrom mark l ls) := by
    unfold itemFrom
    rw [Line.min_stop boundary]
    refine Collected.itemLines ⟨⟨mem, Nat.le_refl _, filled, l.stop_le_next⟩, ?_, ?_, ?_, rfl, ?_⟩
      ((List.suffix_cons l ls).trans suffix)
      (fun m mem => Line.start_le_of_mem suffix (List.mem_cons_of_mem l mem))
    · exact List.forall_mem_singleton.2 fun cut => Line.isPiece mem cut (Nat.le_add_right ..)
    · exact List.pairwise_singleton ..
    · exact List.forall_mem_singleton.2 fun m mem => (Line.gap suffix mem).1
    · exact ⟨_, [], rfl⟩
  have ends := collected.ends
  have reaches := span_reaches_line h (isBoundary_start mem) ends.mem ends.le ends.filled
  rw [itemAt_eq]
  refine (collected.gather_outcome h).bind fun content part => ?_
  refine (reads content _ _ (part.contained h mem filled rfl boundary)).bind ?_
  intro children inside
  exact ⟨ends, r.toSource (itemFrom mark l ls).last.stop, reaches, Nat.le_refl _, Nat.le_refl _, inside⟩

/-- The items from a line on, after the line `last`. -/
theorem itemsFrom_outcome {ordered : Bool} {first last : Line} {resume : Nat}
    (suffix : ls <:+ r.lines) (after : ∀ m ∈ ls, first.start ≤ m.start)
    (ends : Ends r first last resume) :
    Outcome (Halt.Points source)
      (fun items => ∃ last', items.stop = last'.stop ∧ Ends r first last' items.resume ∧
        ListItem.AllLie source (Span.Reaches source) (r.toSource last.stop) (r.toSource items.stop)
          items.items)
      (itemsFrom inner r ordered last.stop resume ls) := by
  induction ls generalizing last resume with
  | nil => exact ⟨last, rfl, ends, Nat.le_refl _⟩
  | cons l ls ih =>
    have suffix' : ls <:+ r.lines := (List.suffix_cons l ls).trans suffix
    have after' : ∀ m ∈ ls, first.start ≤ m.start := fun m mem => after m (List.mem_cons_of_mem l mem)
    have mem : l ∈ r.lines := suffix.subset List.mem_cons_self
    rw [itemsFrom]
    split
    · exact ih suffix' after' ends
    · rename_i reached
      split
      · exact ⟨last, rfl, ends, Nat.le_refl _⟩
      · rename_i mark kind
        refine (itemAt_outcome h reads suffix (Option.mem_filter_iff.1 kind).1).bind ?_
        rintro ⟨item, lines⟩ ⟨ends', lies⟩
        have later : Ends r first lines.last lines.resume :=
          ⟨ends'.mem, Nat.le_trans (after l List.mem_cons_self) ends'.le, ends'.filled, ends'.resume⟩
        refine (ih suffix' after' later).bind ?_
        rintro items ⟨last', stop_eq, ends'', more⟩
        -- the item starts after the line where the items before it end
        have start : r.toSource last.stop ≤ r.toSource l.start := by
          have := ends.resume
          exact h.toSource_le ⟨by omega, isBoundary_stop ends.mem, isBoundary_start mem⟩
        exact ⟨last', stop_eq, ends'', _, lies.widen start (Nat.le_refl _), more⟩

theorem listed_outcome {mark : ListMark} (suffix : l :: ls <:+ r.lines)
    (kind : ListMark.ofLine? l.text = some mark) (rule : isThematicBreak l.text = false) :
    Outcome (Halt.Points source) (Lands source r l.start) (listed inner r mark l ls) := by
  have mem : l ∈ r.lines := suffix.subset List.mem_cons_self
  have marked := itemMark?_of_listMark kind rule
  -- the first item is the one at the line itself
  have first : itemsFrom inner r mark.ordered l.stop l.start (l :: ls) = (do
      let (item, lines) ← itemAt inner r mark l ls
      let more ← itemsFrom inner r mark.ordered lines.last.stop lines.resume ls
      return { more with
        items := item :: more.items
        tight := !lines.loose && !lines.isApart mark.ordered && more.tight }) := by
    rw [itemsFrom, if_neg (Nat.lt_irrefl _), marked]
  have outcome : Outcome (Halt.Points source) (fun items => ∃ last, items.stop = last.stop ∧
      Ends r l last items.resume ∧ ListItem.AllLie source (Span.Reaches source)
        (r.toSource l.start) (r.toSource items.stop) items.items)
      (itemsFrom inner r mark.ordered l.stop l.start (l :: ls)) := by
    rw [first]
    refine (itemAt_outcome h reads suffix kind).bind ?_
    rintro ⟨item, lines⟩ ⟨ends, lies⟩
    refine (itemsFrom_outcome h reads ((List.suffix_cons l ls).trans suffix)
      (fun m mem => Line.start_le_of_mem suffix (List.mem_cons_of_mem l mem)) ends).bind ?_
    rintro items ⟨last, stop_eq, ends', more⟩
    exact ⟨last, stop_eq, ends', _, lies, more⟩
  refine outcome.bind ?_
  rintro items ⟨last, stop_eq, ends, inside⟩
  have reaches := span_reaches_line h (isBoundary_start mem) ends.mem ends.le ends.filled
  rw [← stop_eq] at reaches
  refine ⟨items.stop, ?_, ?_, r.toSource items.stop, reaches, Nat.le_refl _, Nat.le_refl _, inside⟩
  · rw [stop_eq]
    exact ends.resume
  · rw [stop_eq]
    exact isBoundary_stop ends.mem

end Lists

/-! ### Widgets -/

/-- The body of a widget without its margin. -/
theorem dedent_outcome {body : Region} (h : Region.Faithful source body)
    (past : source.IsPast (body.toSource 0)) :
    Outcome (Halt.Points source) (Contained source (body.toSource 0) body.stop) (dedent body) := by
  rw [dedent_eq]
  split
  · exact ⟨h, Nat.le_refl _, Nat.le_refl _,
      past.isVisible (h.isBoundary_toSource (Text.isBoundary_zero _))⟩
  · rename_i margin_pos
    cases lines : body.lines with
    | nil =>
      rw [margin, lines] at margin_pos
      exact absurd rfl margin_pos
    | cons l ls =>
      have suffix : l :: ls <:+ body.lines := lines ▸ List.suffix_refl _
      have mem : l ∈ body.lines := suffix.subset List.mem_cons_self
      have start : l.start = 0 := Line.start_of_split (show _ = [] ++ l :: ls from lines)
      obtain ⟨last, last_eq⟩ : ∃ last, (l :: ls).getLast? = some last :=
        Option.isSome_iff_exists.1 (by simp)
      have last_mem : last ∈ body.lines := suffix.subset (List.mem_of_getLast? last_eq)
      have from_le : ∀ m : Line, m.start ≤ min (m.start + margin body) m.stop :=
        fun m => Nat.le_min.2 ⟨Nat.le_add_right .., m.le_stop⟩
      refine (gather_lines h suffix (List.Sublist.refl ls) _ from_le last_eq).mono (fun _ => id) ?_
      intro content part
      -- the first piece starts in the line of the opening tag
      obtain ⟨v, held, size⟩ := Text.IsCut.exists_holds
        ⟨Nat.zero_le _, Text.isBoundary_zero _, part.boundary⟩
      have begins : v <+: l.text := by
        refine held.isPrefix (start ▸ Line.holds mem) ?_
        have within := Nat.min_le_right (l.start + margin body) l.stop
        rw [← size, Line.stop, start] at within
        omega
      have eol : '\n' ∉ v := fun among => Line.eol_not_mem mem (begins.subset among)
      obtain ⟨stands, next⟩ := h.holds held eol
      rw [size] at next
      refine ⟨part.faithful, ?_, ?_, ?_⟩
      · rw [part.start]
        exact h.toSource_zero_le part.boundary
      · rw [part.stop]
        exact h.toSource_le_stop (isBoundary_stop last_mem)
      · rw [part.start, next]
        exact past.isVisible_add stands eol

theorem exists_of_isWidgetStart {line : Text} (h : isWidgetStart line = true) :
    ∃ c t, line.drop (indentation line) = '<' :: c :: t ∧ isUpper c = true := by
  unfold isWidgetStart at h
  split at h
  · rename_i c t unindented
    refine ⟨c, t, ?_, h⟩
    rw [indentation, Text.drop_length_takeWhile]
    unfold unindent? at unindented
    split at unindented
    · cases unindented
    · exact Option.some.inj unindented
  · cases h

theorem isBlank_of_isWidgetStart {line : Text} (h : isWidgetStart line = true) :
    Text.isBlank line = false := by
  obtain ⟨c, t, tag_eq, -⟩ := exists_of_isWidgetStart h
  refine isBlank_of_mem (List.mem_of_mem_drop (i := indentation line) ?_) (c := '<') rfl
  rw [tag_eq]
  exact List.mem_cons_self

/-- The opening tag of a widget at a line. -/
theorem widgetTag_outcome (suffix : l :: ls <:+ r.lines) (kind : isWidgetStart l.text = true) :
    r.text.IsRest (l.start + indentation l.text)
        ((Line.join (l :: ls)).drop (indentation l.text)) ∧
      Outcome (SyntaxError.Points r.text) (OpenTag.Fits r.text (l.start + indentation l.text))
        (OpenTag.read (l.start + indentation l.text)
          ((Line.join (l :: ls)).drop (indentation l.text))) := by
  obtain ⟨c, t, tag_eq, upper⟩ := exists_of_isWidgetStart kind
  obtain ⟨before, text_eq, size⟩ := exists_before_tag suffix
  have rest : r.text.IsRest (l.start + indentation l.text)
      ((Line.join (l :: ls)).drop (indentation l.text)) := ⟨before, text_eq, size⟩
  have source_eq : (Line.join (l :: ls)).drop (indentation l.text) =
      '<' :: c :: (t ++ (l.ending.text ++ Line.join ls)) := by
    have le : indentation l.text ≤ l.text.length := (List.takeWhile_sublist _).length_le
    rw [Line.join, List.flatMap_cons, Line.raw, List.append_assoc,
      List.drop_append_of_le_length le, tag_eq]
    rfl
  have outcome := OpenTag.read_outcome (source_eq ▸ rest) upper
  rw [← source_eq] at outcome
  exact ⟨rest, outcome⟩

section Widgets

variable (h : Region.Faithful source r)

include h

/-- After a tag, the indentation of what comes next is in the line of the tag. -/
theorem isVisible_after_tag {stop : Nat} {s : Text} (past : r.text.IsPast stop)
    (rest : r.text.IsRest stop s) :
    source.IsVisible (r.toSource (stop + indentation (s.takeWhile (· != '\n')))) := by
  generalize line_eq : s.takeWhile (· != '\n') = line
  have begins : line.takeWhile isIndent <+: s := by
    rw [← line_eq]
    exact (List.takeWhile_prefix _).trans (List.takeWhile_prefix _)
  have eol : '\n' ∉ line.takeWhile isIndent := by
    intro mem
    exact absurd (List.all_eq_true.1 List.all_takeWhile _ mem) (by decide)
  have visible := past.isVisible_add (rest.holds_of_begins begins) eol
  rw [Text.bytes_eq_length fun c => utf8Size_of_mem_indent] at visible
  exact h.isVisible visible

variable (reads : Reads source inner)

include reads

theorem bodyOf_outcome {at_ : Nat} {tag : OpenTag} {s : Text} (fits : tag.Fits r.text at_)
    (rest : r.text.IsRest tag.stop s) :
    Outcome (Halt.Points source)
      (fun (children, stop) => tag.stop ≤ stop ∧ r.text.Closes at_ stop ∧
        Block.AllLie source (Span.Reaches source) (r.toSource at_) (r.toSource stop) children)
      (bodyOf inner r at_ tag s) := by
  unfold bodyOf
  split
  · exact ⟨Nat.le_refl _, fits.closes, h.toSource_le fits.closes.isCut⟩
  · split
    · have found : SyntaxError.Points r.text { pos := at_, fault := .unclosedWidget tag.name } :=
        SyntaxError.points_of_holds rfl fits.named (eol_not_mem_name fits.name) rfl
      exact h.points found
    · rename_i close found
      obtain ⟨le, closes⟩ := ClosingTag.closes_of_find? rest found
      have ends := fits.closes.isCut.stop
      have le_stop : tag.stop ≤ close.stop := Nat.le_trans le (Nat.le_of_lt closes.lt)
      have whole : r.text.Closes at_ close.stop :=
        closes.extend fits.closes.boundary (Nat.le_trans (Nat.le_of_lt fits.closes.lt) le)
      have before : r.toSource at_ ≤ r.toSource tag.stop := h.toSource_le fits.closes.isCut
      have after : r.toSource close.start ≤ r.toSource close.stop := h.toSource_le closes.isCut
      refine (slice_outcome h _ _).bind fun body part => ?_
      have past : source.IsPast (body.toSource 0) := by
        rw [part.start]
        exact h.isPast fits.closes.isPast
      refine (dedent_outcome part.faithful past).bind fun content contained => ?_
      have within : Contained source (r.toSource at_) (r.toSource close.stop) content := by
        refine ⟨contained.faithful, ?_, ?_, contained.visible⟩
        · exact Nat.le_trans before (part.start ▸ contained.lo)
        · exact Nat.le_trans contained.hi (part.stop ▸ after)
      refine (reads content _ _ within).bind fun children inside => ?_
      exact ⟨le_stop, whole, inside⟩

theorem widgetAt_outcome (suffix : l :: ls <:+ r.lines) (kind : isWidgetStart l.text = true) :
    Outcome (Halt.Points source) (Lands source r l.start) (widgetAt inner r l ls) := by
  have mem : l ∈ r.lines := suffix.subset List.mem_cons_self
  obtain ⟨rest, outcome⟩ := widgetTag_outcome suffix kind
  have filled : Text.isBlank l.text = false := isBlank_of_isWidgetStart kind
  have start : r.toSource l.start ≤ r.toSource (l.start + indentation l.text) :=
    h.toSource_le ⟨Nat.le_add_right .., isBoundary_start mem, rest.isBoundary⟩
  unfold widgetAt
  dsimp only
  cases read : OpenTag.read (l.start + indentation l.text)
      ((Line.join (l :: ls)).drop (indentation l.text)) with
  | error e =>
    rw [read] at outcome
    exact h.points outcome
  | ok tag =>
    rw [read] at outcome
    have ends := outcome.closes
    have body_rest := rest.dropBytes ends.isCut.stop (Nat.le_of_lt ends.lt)
    refine (bodyOf_outcome h reads outcome body_rest).bind ?_
    rintro ⟨children, stop⟩ ⟨le, closes, inside⟩
    dsimp only
    split
    · have tag_lies := Inline.tagIn_lies h outcome closes le start (Nat.le_refl _)
      refine ⟨stop, Nat.le_refl _, closes.isCut.stop, tag_lies, ?_⟩
      rw [Inline.tagIn, h.span_of_closes closes]
      exact inside
    · split
      · exact paragraphAt_outcome h suffix filled
      · have tail := rest.dropBytes closes.isCut.stop (Nat.le_of_lt closes.lt)
        exact SyntaxError.points_of_isVisible rfl (isVisible_after_tag h closes.isPast tail)

end Widgets

/-! ### Blocks -/

section Blocks

variable (h : Region.Faithful source r) (reads : Reads source inner)

include h reads

/-- The block at a line lies in the source after the start of the line, and the next one may start
after its end. -/
theorem blockAt_outcome (suffix : l :: ls <:+ r.lines) (filled : Text.isBlank l.text = false) :
    Outcome (Halt.Points source) (Lands source r l.start) (blockAt inner r l ls) := by
  unfold blockAt
  split
  · rename_i fence _
    exact fenced_lands h suffix filled fence
  · split
    · rename_i mark kind
      exact titled_outcome h suffix filled kind
    · split
      · exact thematicBreak_lands h suffix filled
      · rename_i rule
        split
        · rename_i kind
          exact quoted_outcome h suffix reads kind
        · split
          · rename_i mark kind
            rw [Bool.not_eq_true] at rule
            exact listed_outcome h reads suffix kind rule
          · split
            · rename_i kind
              exact widgetAt_outcome h reads suffix kind
            · split
              · have mem : l ∈ r.lines := suffix.subset List.mem_cons_self
                have boundary := isBoundary_of_le_indentation (Nat.le_refl (indentation l.text))
                exact SyntaxError.points_of_isVisible rfl
                  (h.isVisible (Line.isVisible mem filled boundary))
              · exact paragraphAt_outcome h suffix filled

/-- The blocks among some lines lie after the place of `start`, if the lines from `resume` on do. -/
theorem blocksFrom_outcome {skip : List Declaration} {resume : Nat} (suffix : ls <:+ r.lines)
    (le : lo ≤ hi) (stop : r.stop ≤ hi)
    (after : ∀ m ∈ ls, resume ≤ m.start → lo ≤ r.toSource m.start) :
    Outcome (Halt.Points source) (Block.AllLie source (Span.Reaches source) lo hi)
      (blocksFrom inner r skip resume ls) := by
  induction ls generalizing lo resume with
  | nil => exact le
  | cons l ls ih =>
    have suffix' : ls <:+ r.lines := (List.suffix_cons l ls).trans suffix
    rw [blocksFrom]
    split
    · exact ih suffix' le fun m mem => after m (List.mem_cons_of_mem l mem)
    · rename_i reached
      -- all lines from here on start after the place of `lo`
      have reached : resume ≤ l.start := Nat.le_of_not_lt reached
      have later : ∀ m ∈ ls, lo ≤ r.toSource m.start := by
        intro m mem
        have := Line.start_le_of_mem suffix (List.mem_cons_of_mem l mem)
        exact after m (List.mem_cons_of_mem l mem) (Nat.le_trans reached this)
      split
      · exact ih suffix' le fun m mem _ => later m mem
      · split
        · exact ih suffix' le fun m mem _ => later m mem
        · rename_i filled
          rw [Bool.not_eq_true] at filled
          refine (blockAt_outcome h reads suffix filled).bind ?_
          rintro ⟨block, resume'⟩ ⟨n, n_le, boundary, lies⟩
          have start := after l List.mem_cons_self reached
          have within : r.toSource n ≤ hi := Nat.le_trans (h.toSource_le_stop boundary) stop
          refine (ih suffix' within ?_).bind fun blocks more => ?_
          · intro m mem reached'
            have m_mem : m ∈ r.lines := suffix'.subset mem
            exact h.toSource_le ⟨Nat.le_trans n_le reached', boundary, isBoundary_start m_mem⟩
          · exact ⟨r.toSource n, lies.widen start (Nat.le_refl _), more⟩

end Blocks

theorem parse_outcome_of_reads {levels : Nat} {skip : List Declaration}
    (reads : Reads source (parse levels [])) (h : Region.Faithful source r)
    (start : lo ≤ r.toSource 0) (stop : r.stop ≤ hi) :
    Outcome (Halt.Points source) (Block.AllLie source (Span.Reaches source) lo hi)
      (parse (levels + 1) skip r) := by
  have whole : r.toSource 0 ≤ r.stop := h.toSource_le_stop (Text.isBoundary_zero _)
  have le : lo ≤ hi := Nat.le_trans start (Nat.le_trans whole stop)
  refine blocksFrom_outcome h reads (List.suffix_refl _) le stop fun m mem _ => ?_
  exact Nat.le_trans start (h.toSource_zero_le (isBoundary_start mem))

/-- Contents are read at any number of levels. -/
theorem parse_reads (source : Text) (levels : Nat) : Reads source (parse levels []) := by
  induction levels with
  | zero =>
    intro content lo hi contained
    exact SyntaxError.points_of_isVisible rfl contained.visible
  | succ levels ih =>
    intro content lo hi contained
    exact parse_outcome_of_reads ih contained.faithful contained.lo contained.hi

/-- The blocks of a faithful region lie in the source, or an error is found there. -/
theorem parse_outcome {levels : Nat} {skip : List Declaration} (h : Region.Faithful source r)
    (start : lo ≤ r.toSource 0) (stop : r.stop ≤ hi) :
    Outcome (Halt.Points source) (Block.AllLie source (Span.Reaches source) lo hi)
      (parse (levels + 1) skip r) :=
  parse_outcome_of_reads (parse_reads source levels) h start stop

end Block
end Folio
