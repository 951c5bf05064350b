import Folio.Proofs.Markup.StrippedBlocks

/-!
# Tight lists

A list takes lines up to a last one with content, and the blank lines after that one. It is tight if
none of the lines up to the last one is blank, with one exception: a blank line after the last item
makes it loose when the next line is a thematic break that reads as a mark of the same kind, like
`* * *`, although such a line does not go on with the list. Main statements:

* `Block.Gathers.exists_itemLines`: the lines of an item, and whether a blank one is among them.
* `Block.itemsFrom_spreads`: the lines of the items of a list, and whether it is tight.
* `Document.tight_iff_of_mem`: when a list of a document is tight.
-/

namespace Folio

variable {source : Text} {l m last : Line} {ls inside gap after : List Line}

namespace Line

/-- Whether one of some lines is blank. -/
def anyBlank (ls : List Line) : Bool := ls.any fun m => Text.isBlank m.text

theorem anyBlank_cons (m : Line) (ls : List Line) :
    anyBlank (m :: ls) = (Text.isBlank m.text || anyBlank ls) :=
  List.any_cons

theorem anyBlank_append (ls ms : List Line) :
    anyBlank (ls ++ ms) = (anyBlank ls || anyBlank ms) :=
  List.any_append

theorem anyBlank_singleton (m : Line) : anyBlank [m] = Text.isBlank m.text := Bool.or_false _

theorem anyBlank_eq_false_iff : anyBlank ls = false ↔ ∀ m ∈ ls, Text.isBlank m.text = false := by
  rw [anyBlank, List.any_eq_false]
  simp only [Bool.not_eq_true]

theorem anyBlank_of_blank (blank : ∀ m ∈ gap, Text.isBlank m.text = true) :
    anyBlank gap = !gap.isEmpty := by
  cases gap with
  | nil => rfl
  | cons m gap => rw [anyBlank_cons, blank m List.mem_cons_self, Bool.true_or]; rfl

end Line

namespace Block

variable {inner : Inner} {r : Region} {column : Nat} {item item' : ItemLines} {ordered : Bool}

/-! ### The lines of an item -/

/-- What an item has taken after its first line: lines up to the last one with content, and blank ones
after that. -/
structure Gathers (item : ItemLines) (l : Line) (inside gap : List Line) : Prop where
  last : (l :: inside).getLast? = some item.last
  filled : Text.isBlank item.last.text = false
  blank : ∀ m ∈ gap, Text.isBlank m.text = true
  pending : item.blanksAfter = !gap.isEmpty
  loose : item.loose = Line.anyBlank inside

/-- One line more: it is blank, or it comes after all lines that the item has, or after the last one
with content. -/
theorem Gathers.exists_of_takeLine? (h : Gathers item l inside gap)
    (taken : takeLine? column item m = some item') :
    ∃ inside' gap', inside' ++ gap' = inside ++ (gap ++ [m]) ∧ Gathers item' l inside' gap' := by
  unfold takeLine? at taken
  split at taken
  · rename_i blank
    cases taken
    refine ⟨inside, gap ++ [m], rfl, h.last, h.filled, ?_, ?_, h.loose⟩
    · exact List.forall_mem_append.2 ⟨h.blank, List.forall_mem_singleton.2 blank⟩
    · rw [List.isEmpty_eq_false_iff.2 (List.concat_ne_nil m gap), Bool.not_false]
  · rename_i filled
    rw [Bool.not_eq_true] at filled
    split at taken
    · cases taken
      refine ⟨inside ++ (gap ++ [m]), [], List.append_nil _, ?_, filled, nofun, rfl, ?_⟩
      · rw [← List.cons_append, ← List.append_assoc, List.getLast?_concat]
      · dsimp only
        rw [Line.anyBlank_append, Line.anyBlank_append, Line.anyBlank_singleton, filled,
          Bool.or_false, Line.anyBlank_of_blank h.blank, ← h.pending, h.loose]
    · split at taken
      · rename_i lazy
        rw [Bool.and_eq_true, h.pending, Bool.not_not, List.isEmpty_iff] at lazy
        obtain ⟨rfl, -⟩ := lazy
        cases taken
        refine ⟨inside ++ [m], [], List.append_nil _, ?_, filled, nofun, h.pending, ?_⟩
        · rw [← List.cons_append, List.getLast?_concat]
        · rw [Line.anyBlank_append, Line.anyBlank_singleton, filled, Bool.or_false]
          exact h.loose
      · cases taken

/-- An item takes lines with content last, then blank ones, and leaves lines from one with content
on. -/
theorem Gathers.exists_itemLines (h : Gathers item l inside gap) (column : Nat) (ls : List Line) :
    ∃ inside' gap', inside ++ (gap ++ ls) = inside' ++ (gap' ++ (itemLines column item ls).rest) ∧
      Gathers (itemLines column item ls) l inside' gap' ∧
      ∀ m ∈ (itemLines column item ls).rest.head?, Text.isBlank m.text = false := by
  induction ls generalizing item inside gap with
  | nil => exact ⟨inside, gap, rfl, ⟨h.last, h.filled, h.blank, h.pending, h.loose⟩, nofun⟩
  | cons m ls ih =>
    rw [itemLines_cons]
    cases step : takeLine? column item m with
    | none =>
      refine ⟨inside, gap, rfl, ⟨h.last, h.filled, h.blank, h.pending, h.loose⟩, ?_⟩
      rintro m ⟨⟩
      -- a blank line is taken always
      cases blank : Text.isBlank m.text with
      | false => rfl
      | true =>
        rw [takeLine?, if_pos blank] at step
        cases step
    | some item' =>
      obtain ⟨inside', gap', lines', h'⟩ := h.exists_of_takeLine? step
      obtain ⟨inside'', gap'', lines, gathers, next⟩ := ih h'
      refine ⟨inside'', gap'', ?_, gathers, next⟩
      rw [← lines, ← List.append_assoc inside', lines']
      simp only [List.append_assoc, List.singleton_append]

theorem exists_gathers {mark : ListMark} (kind : ListMark.ofLine? l.text = some mark)
    (ls : List Line) :
    ∃ inside gap, ls = inside ++ (gap ++ (itemFrom mark l ls).rest) ∧
      Gathers (itemFrom mark l ls) l inside gap ∧
      ∀ m ∈ (itemFrom mark l ls).rest.head?, Text.isBlank m.text = false := by
  have first : Gathers (itemFrom mark l []) l [] [] :=
    ⟨rfl, isBlank_of_listMark kind, List.forall_mem_nil _, rfl, rfl⟩
  exact first.exists_itemLines mark.content ls

/-! ### The lines of a list -/

/-- Whether there is a gap, and after it a thematic break that reads as a mark of the same kind. -/
def meetsRule (ordered : Bool) (gap after : List Line) : Bool :=
  !gap.isEmpty && after.head?.any fun m =>
    isThematicBreak m.text && (ListMark.ofLine? m.text).any (·.ordered == ordered)

/-- A line that goes on with a list reads as a mark of its kind. -/
theorem any_ofLine?_of_itemMark? {line : Text} {mark : ListMark}
    (h : itemMark? ordered line = some mark) :
    (ListMark.ofLine? line).any (·.ordered == ordered) = true := by
  obtain ⟨kind, same⟩ := Option.mem_filter_iff.1 h
  rw [Bool.and_eq_true] at same
  rw [kind, Option.any_some, same.1]

/-- A line that does not go on with a list is a thematic break if it reads as a mark of its kind. -/
theorem any_ofLine?_of_itemMark?_eq_none {line : Text} (h : itemMark? ordered line = none) :
    (ListMark.ofLine? line).any (·.ordered == ordered) =
      (isThematicBreak line && (ListMark.ofLine? line).any (·.ordered == ordered)) := by
  rw [itemMark?] at h
  cases kind : ListMark.ofLine? line with
  | none => rw [Option.any_none, Bool.and_false]
  | some mark =>
    rw [kind, Option.filter_eq_none_iff] at h
    have other := h mark rfl
    rw [Option.any_some]
    cases rule : isThematicBreak line with
    | true => rfl
    | false =>
      rw [rule, Bool.not_false, Bool.and_true, Bool.not_eq_true] at other
      rw [other, Bool.false_and]

/-- Lines up to a last one with content, and the blank lines after that one, start before an offset,
and the lines from the next one with content on do not. -/
structure Covers (next : Nat) (l last : Line) (inside gap after : List Line) : Prop where
  last_eq : (l :: inside).getLast? = some last
  filled : Text.isBlank last.text = false
  blank : ∀ m ∈ gap, Text.isBlank m.text = true
  after_filled : ∀ m ∈ after.head?, Text.isBlank m.text = false
  before : ∀ m ∈ l :: (inside ++ gap), m.start < next
  later : ∀ m ∈ after, next ≤ m.start

/-- The last one of some items ends with a line. -/
def LastEnds (r : Region) (items : List ListItem) (last : Line) : Prop :=
  ∃ children start, items.getLast? = some (.mk children (r.span start last.stop))

/-- Items take lines, and are tight or not. -/
structure Spreads (r : Region) (ordered : Bool) (items : Items) (l last : Line)
    (inside gap after : List Line) : Prop extends Covers items.resume l last inside gap after where
  stop : items.stop = last.stop
  ends : LastEnds r items.items last
  tight : items.tight = (!Line.anyBlank inside && !meetsRule ordered gap after)

/-- The lines of the item that starts at a line with a mark. -/
theorem exists_covers {mark : ListMark} (suffix : l :: ls <:+ Line.split source)
    (kind : ListMark.ofLine? l.text = some mark) :
    ∃ inside gap, ls = inside ++ (gap ++ (itemFrom mark l ls).rest) ∧
      Gathers (itemFrom mark l ls) l inside gap ∧
      Covers (itemFrom mark l ls).resume l (itemFrom mark l ls).last inside gap
        (itemFrom mark l ls).rest := by
  obtain ⟨inside, gap, lines, gathers, next⟩ := exists_gathers kind ls
  obtain ⟨chunk, taken, takes⟩ := exists_itemFrom_takes mark l ls
  obtain rfl : chunk = inside ++ gap := by
    refine List.append_cancel_right (taken.symm.trans ?_)
    rw [List.append_assoc]
    exact lines
  obtain ⟨before, later⟩ := Line.next_of_getLast? (taken ▸ suffix)
  rw [← takes.resume] at before later
  exact ⟨inside, gap, lines, gathers, gathers.last, gathers.filled, gathers.blank, next,
    fun m mem => (before m mem).1, later⟩

/-- A gap divides an item from the next one. -/
theorem Gathers.isApart_of_marked {mark : ListMark} (h : Gathers item l inside gap)
    (rest : item.rest = m :: ls) (marked : itemMark? ordered m.text = some mark) :
    item.isApart ordered = !gap.isEmpty := by
  rw [ItemLines.isApart, h.pending, rest, List.head?_cons, Option.any_some,
    any_ofLine?_of_itemMark? marked, Bool.and_true]

/-- A gap divides the last item from nothing but a thematic break that reads as a mark. -/
theorem Gathers.isApart_of_ends (h : Gathers item l inside gap)
    (ends : ∀ m ∈ item.rest.head?, itemMark? ordered m.text = none) :
    item.isApart ordered = meetsRule ordered gap item.rest := by
  rw [ItemLines.isApart, h.pending, meetsRule]
  cases first : item.rest.head? with
  | none => rfl
  | some m =>
    rw [Option.any_some, Option.any_some, any_ofLine?_of_itemMark?_eq_none (ends m first),
      Bool.and_self_left]

/-- The last item of a list. -/
theorem Covers.spreads_last {resume : Nat} {children : List Block} {start : Nat}
    (h : Covers resume l last inside gap after) :
    Spreads r ordered
      { items := [.mk children (r.span start last.stop)]
        tight := !Line.anyBlank inside && !meetsRule ordered gap after && true
        stop := last.stop, resume } l last inside gap after where
  toCovers := h
  stop := rfl
  ends := ⟨children, start, rfl⟩
  tight := Bool.and_true _

/-- An item before other ones. -/
theorem Spreads.cons {items : Items} {i : ListItem} {resume : Nat} {last' : Line}
    {inside' gap' : List Line}
    (h : Spreads r ordered items m last' inside' gap' after)
    (first : Covers resume l last inside gap (m :: (inside' ++ (gap' ++ after))))
    (resume_le : resume ≤ items.resume) :
    Spreads r ordered
      { items with
        items := i :: items.items
        tight := !Line.anyBlank inside && gap.isEmpty && items.tight }
      l last' (inside ++ (gap ++ m :: inside')) gap' after where
  last_eq := by
    rw [← List.cons_append, List.getLast?_append, List.getLast?_append, h.last_eq]
    rfl
  filled := h.filled
  blank := h.blank
  after_filled := h.after_filled
  before := by
    rw [List.append_assoc, List.append_assoc, List.cons_append, ← List.append_assoc inside,
      ← List.cons_append, List.forall_mem_append]
    exact ⟨fun k mem => Nat.lt_of_lt_of_le (first.before k mem) resume_le, h.before⟩
  later := h.later
  stop := h.stop
  ends := by
    obtain ⟨children, start, last_item⟩ := h.ends
    exact ⟨children, start, by rw [List.getLast?_cons, last_item]; rfl⟩
  tight := by
    rw [Line.anyBlank_append, Line.anyBlank_append, Line.anyBlank_of_blank first.blank,
      Line.anyBlank_cons, first.after_filled m rfl, Bool.false_or, Bool.not_or, Bool.not_or,
      Bool.not_not, h.tight]
    simp only [Bool.and_assoc]

/-- The lines that the items of a list take, and whether they are tight. -/
theorem itemsFrom_spreads {stop resume : Nat} (suffix : l :: ls <:+ Line.split source)
    (reached : resume ≤ l.start) (marked : (itemMark? ordered l.text).isSome = true) :
    Outcome (fun _ => True)
      (fun items => ∃ last inside gap after, ls = inside ++ (gap ++ after) ∧
        Spreads r ordered items l last inside gap after)
      (itemsFrom inner r ordered stop resume (l :: ls)) := by
  induction length : ls.length using Nat.strongRecOn generalizing l ls stop resume with
  | ind n ih =>
    subst length
    obtain ⟨mark, marked⟩ := Option.isSome_iff_exists.1 marked
    have kind := (Option.mem_filter_iff.1 marked).1
    rw [itemsFrom_cons suffix reached marked]
    refine itemAt_ends.bind ?_
    rintro ⟨item, taken⟩ ⟨rfl, children, rfl⟩
    obtain ⟨inside, gap, lines, gathers, covers⟩ := exists_covers suffix kind
    dsimp only
    generalize itemFrom mark l ls = taken at *
    rw [gathers.loose]
    by_cases ends : ∀ m ∈ taken.rest.head?, itemMark? ordered m.text = none
    · rw [itemsFrom_of_ends covers.later ends, gathers.isApart_of_ends ends]
      exact ⟨taken.last, inside, gap, taken.rest, lines, covers.spreads_last⟩
    · push Not at ends
      obtain ⟨m, first, marked'⟩ := ends
      obtain ⟨rest, rest_eq⟩ := List.head?_eq_some_iff.1 first
      obtain ⟨mark', marked'⟩ := Option.ne_none_iff_exists'.1 marked'
      rw [gathers.isApart_of_marked rest_eq marked', rest_eq]
      rw [rest_eq] at lines covers
      have suffix' : m :: rest <:+ Line.split source := by
        rw [lines, ← List.append_assoc, ← List.cons_append] at suffix
        exact (List.suffix_append _ _).trans suffix
      have shorter : rest.length < ls.length := by
        rw [lines, List.length_append, List.length_append, List.length_cons]
        omega
      have reached' : taken.resume ≤ m.start := covers.later m List.mem_cons_self
      refine (ih rest.length shorter suffix' reached' (marked' ▸ rfl) rfl).bind ?_
      rintro items ⟨last', inside', gap', after, rfl, spreads⟩
      refine ⟨last', inside ++ (gap ++ m :: inside'), gap', after, ?_, ?_⟩
      · simp only [lines, List.append_assoc, List.cons_append]
      · have resume_le : taken.resume ≤ items.resume :=
          Nat.le_of_lt (Nat.lt_of_le_of_lt reached' (spreads.before m List.mem_cons_self))
        rw [Bool.not_not]
        exact spreads.cons covers resume_le

/-! ### The lists of a document -/

/-- A list takes lines of a text: the first one, at which it is read, those up to the last one of its
last item, and the blank lines after that one. -/
structure ListLines (source : Text) (list : Block) (items : List ListItem) (l last : Line)
    (inside gap after : List Line) : Prop where
  suffix : l :: (inside ++ (gap ++ after)) <:+ Line.split source
  taken : ∃ next, blockAt (parse innerNesting []) (Region.root source) l (inside ++ (gap ++ after)) =
    .ok (list, next) ∧ Covers next l last inside gap after
  span : list.span = (Region.root source).span l.start last.stop
  ends : LastEnds (Region.root source) items last

theorem listed_spreads {mark : ListMark} (suffix : l :: ls <:+ Line.split source)
    (kind : ListMark.ofLine? l.text = some mark) (rule : isThematicBreak l.text = false) :
    Outcome (fun _ => True)
      (fun taken => ∃ items last inside gap after, ls = inside ++ (gap ++ after) ∧
        taken = (.list mark.ordered mark.number items.tight items.items
          (r.span l.start last.stop), items.resume) ∧
        Spreads r mark.ordered items l last inside gap after)
      (listed inner r mark l ls) := by
  have marked := itemMark?_of_listMark kind rule
  refine (itemsFrom_spreads suffix (Nat.le_refl _) (marked ▸ rfl)).bind ?_
  rintro items ⟨last, inside, gap, after, lines, spreads⟩
  exact ⟨items, last, inside, gap, after, lines, by rw [← spreads.stop], spreads⟩

/-- A block is a list only at a line that opens one. -/
theorem blockAt_opens :
    Outcome (fun _ => True)
      (fun taken => ∀ ordered number tight items span,
        taken.1 = .list ordered number tight items span → ∃ mark, opening l.text = .list mark)
      (blockAt inner r l ls) := by
  have paragraph : Outcome (fun _ => True)
      (fun taken => ∀ ordered number tight items span,
        taken.1 = .list ordered number tight items span → ∃ mark, opening l.text = .list mark)
      (paragraphAt r l ls) :=
    Outcome.bind_any fun _ => Outcome.bind_any fun _ => nofun
  rw [blockAt_eq]
  cases kind : opening l.text with
  | list mark => exact Outcome.bind_any fun _ _ _ _ _ _ _ => ⟨mark, rfl⟩
  | fence fence => exact nofun
  | heading mark => exact Outcome.bind_any fun _ => Outcome.bind_any fun _ => nofun
  | thematicBreak => exact nofun
  | quote => exact Outcome.bind_any fun _ => Outcome.bind_any fun _ => nofun
  | widget =>
    rw [kind] at paragraph
    dsimp only
    rw [widgetAt_eq]
    cases tagAt l ls with
    | error e => trivial
    | ok tag =>
      refine Outcome.bind_any fun _ => ?_
      dsimp only
      split
      · exact nofun
      · split
        · exact paragraph
        · trivial
  | closingTag name => trivial
  | paragraph =>
    rw [kind] at paragraph
    exact paragraph

/-- A block that is a list is read as one, at a line with a mark. -/
theorem exists_listed_of_blockAt {tight : Bool} {number : Option Nat} {items : List ListItem}
    {span : Span} {next : Nat}
    (taken : blockAt inner r l ls = .ok (.list ordered number tight items span, next)) :
    ∃ mark, ListMark.ofLine? l.text = some mark ∧ isThematicBreak l.text = false ∧
      listed inner r mark l ls = .ok (.list ordered number tight items span, next) := by
  have opens : Outcome _ _ (blockAt inner r l ls) := blockAt_opens
  rw [taken] at opens
  obtain ⟨mark, kind⟩ := opens _ _ _ _ _ rfl
  have fits := opening_fits l.text
  rw [kind] at fits
  rw [blockAt_eq, kind] at taken
  exact ⟨mark, fits.1, fits.2, taken⟩

/-- Every block is read at one of the lines. -/
theorem blocksFrom_located {skip : List Declaration} (resume : Nat) (ls : List Line) :
    Outcome (fun _ => True)
      (fun bs => ∀ b ∈ bs, ∃ l rest next, l :: rest <:+ ls ∧ blockAt inner r l rest = .ok (b, next))
      (blocksFrom inner r skip resume ls) := by
  induction ls generalizing resume with
  | nil => exact nofun
  | cons l ls ih =>
    have later (resume : Nat) : Outcome (fun _ => True)
        (fun bs => ∀ b ∈ bs, ∃ l' rest next, l' :: rest <:+ l :: ls ∧
          blockAt inner r l' rest = .ok (b, next)) (blocksFrom inner r skip resume ls) := by
      refine (ih resume).mono (fun _ => id) fun bs located b mem => ?_
      obtain ⟨l', rest, next, suffix, read⟩ := located b mem
      exact ⟨l', rest, next, suffix.trans (List.suffix_cons l ls), read⟩
    rw [blocksFrom]
    split
    · exact later resume
    · split
      · exact later _
      · split
        · exact later resume
        · cases read : blockAt inner r l ls with
          | error halt => trivial
          | ok taken =>
            refine (later taken.2).bind fun bs located => ?_
            exact List.forall_mem_cons.2 ⟨⟨l, ls, taken.2, List.suffix_refl _, read⟩, located⟩

end Block

namespace Document

open Block (ListLines meetsRule)

/-- Every block of a document is read at one of the lines of the source text. -/
theorem parse_located (formats : Formats) (source : Text) :
    Outcome (fun _ => True)
      (fun d => ∀ b ∈ d.blocks, ∃ l ls next, l :: ls <:+ Line.split source ∧
        Block.blockAt (Block.parse innerNesting []) (Region.root source) l ls = .ok (b, next))
      (parse formats source) := by
  refine Outcome.bind_any fun metadata => Outcome.bind ?_ fun bs located => located
  rw [Block.parse_root]
  exact Block.blocksFrom_located 0 (Line.split source)

/-- **A list is tight exactly if no blank line is inside**, but for a blank line before a thematic break
that reads as a mark of the same kind: the lines from the first one to the last one of the last item are
not blank, and no such thematic break comes after blank lines that follow them. -/
theorem tight_iff_of_mem (formats : Formats) {d : Document} {ordered tight : Bool}
    {number : Option Nat} {items : List ListItem} {span : Span}
    (read : parse formats source = .ok d)
    (mem : .list ordered number tight items span ∈ d.blocks) :
    ∃ l last inside gap after,
      ListLines source (.list ordered number tight items span) items l last inside gap after ∧
      (tight = true ↔ (∀ m ∈ l :: inside, Text.isBlank m.text = false) ∧
        meetsRule ordered gap after = false) := by
  have located := parse_located formats source
  rw [read] at located
  obtain ⟨l, ls, next, suffix, taken⟩ := located _ mem
  obtain ⟨mark, kind, rule, listed⟩ := Block.exists_listed_of_blockAt taken
  have spreads : Outcome _ _ (Block.listed (Block.parse innerNesting []) (Region.root source) mark l ls) :=
    Block.listed_spreads suffix kind rule
  rw [listed] at spreads
  obtain ⟨items, last, inside, gap, after, rfl, same, spreads⟩ := spreads
  cases same
  refine ⟨l, last, inside, gap, after, ⟨suffix, ⟨_, taken, spreads.toCovers⟩, rfl, spreads.ends⟩, ?_⟩
  rw [spreads.tight, Bool.and_eq_true, Bool.not_eq_true', Bool.not_eq_true',
    Line.anyBlank_eq_false_iff, List.forall_mem_cons, and_iff_right (Block.isBlank_of_listMark kind)]

/-- A list of bullets, whose item goes on over two lines, before a list of numbers. -/
def bulletsThenNumber : Text := "- a\n  b\n\n1. c".toList

theorem tight_bulletsThenNumber :
    let formats : Formats := { json := fun _ => .ok .null, yaml := fun _ => .ok .null }
    let items : List ListItem := [.mk [.paragraph [.text "a", .softBreak, .text "b"] ⟨2, 7⟩] ⟨0, 7⟩]
    let bullets : Block := .list false none true items ⟨0, 7⟩
    let number : Block :=
      .list true (some 1) true [.mk [.paragraph [.text "c"] ⟨12, 13⟩] ⟨9, 13⟩] ⟨9, 13⟩
    let d : Document := ⟨none, [], [bullets, number]⟩
    (parse formats bulletsThenNumber = .ok d ∧ bullets ∈ d.blocks) ∧
      ∃ l last inside gap after,
        ListLines bulletsThenNumber bullets items l last inside gap after ∧
        (true = true ↔ (∀ m ∈ l :: inside, Text.isBlank m.text = false) ∧
          meetsRule false gap after = false) := by
  intro formats items bullets number d
  have declared : Declaration.scan bulletsThenNumber = [] := by decide
  have read : parse formats bulletsThenNumber = .ok d := parse_of_blocks declared rfl rfl
  have mem : bullets ∈ d.blocks := List.mem_cons_self
  exact ⟨⟨read, mem⟩, tight_iff_of_mem formats read mem⟩

/-- An item of one line before a thematic break that reads as a mark. -/
def bulletThenRule : Text := "- a\n\n* * *\n".toList

/-- The list is not tight, although no line of it is blank. -/
theorem loose_bulletThenRule :
    let formats : Formats := { json := fun _ => .ok .null, yaml := fun _ => .ok .null }
    let items : List ListItem := [.mk [.paragraph [.text "a"] ⟨2, 3⟩] ⟨0, 3⟩]
    let bullets : Block := .list false none false items ⟨0, 3⟩
    let first : Line := ⟨0, "- a".toList, .lf⟩
    let gap : Line := ⟨4, [], .lf⟩
    let rule : Line := ⟨5, "* * *".toList, .lf⟩
    parse formats bulletThenRule = .ok ⟨none, [], [bullets, .thematicBreak ⟨5, 10⟩]⟩ ∧
      ListLines bulletThenRule bullets items first first [] [gap] [rule] ∧
      ∀ m ∈ [first], Text.isBlank m.text = false := by
  have declared : Declaration.scan bulletThenRule = [] := by decide
  have taken : Block.blockAt (Block.parse innerNesting []) (Region.root bulletThenRule)
      ⟨0, "- a".toList, .lf⟩ [⟨4, [], .lf⟩, ⟨5, "* * *".toList, .lf⟩] =
        .ok (.list false none false [.mk [.paragraph [.text "a"] ⟨2, 3⟩] ⟨0, 3⟩] ⟨0, 3⟩, 5) := rfl
  have covers : Block.Covers 5 ⟨0, "- a".toList, .lf⟩ ⟨0, "- a".toList, .lf⟩ [] [⟨4, [], .lf⟩]
      [⟨5, "* * *".toList, .lf⟩] := ⟨rfl, by decide, by decide, by decide, by decide, by decide⟩
  refine ⟨parse_of_blocks declared rfl rfl, ?_, by decide⟩
  exact ⟨⟨[], rfl⟩, ⟨5, taken, covers⟩, rfl, _, 0, rfl⟩

end Document
end Folio
