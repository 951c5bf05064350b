import Folio.Proofs.Markup.StrippedLeaves
import Folio.Proofs.Markup.WidgetExtent

/-!
# Lists and widgets of the stripped text

A list looks at the first line after it, and a widget looks for its closing tag, so either may meet
a declaration. They are the same in the stripped text if the line that ends the list comes before a
declaration, and if the tags of the widget are found at the same offsets. Main statements:

* `Block.itemLines_append`: an item depends on its lines and on the first line after it;
* `Block.listed_strip` and `Block.widgetAt_strip`.
-/

namespace Folio

open Declaration (scan Walk)

variable {source : Text} {l m : Line} {ls chunk rest rest' : List Line}

/-- Whether a list that may go on with some lines ends at a line that is not covered, with no fenced
code and no widget before it. `blank` tells whether a blank line comes before the lines. -/
def Declaration.endsList (ds : List Declaration) : Bool → List Line → Bool
  | _, [] => true
  | blank, l :: ls =>
    !l.isCovered ds &&
      if Text.isBlank l.text then endsList ds true ls
      else if indentation l.text == 0 && (ListMark.ofLine? l.text).isNone &&
          (blank || startsBlock l.text) then true
      else (Fence.open? l.text).isNone && !isWidgetStart l.text && endsList ds false ls

namespace Block

variable {inner : Inner} {metadata : Bool} {scanned : Nat} {column : Nat}
  {item item' : ItemLines}

/-! ### The lines of an item -/

/-- A line that a list takes: it is not covered, and a scan goes through it. -/
structure Listed (ds : List Declaration) (m : Line) : Prop where
  bare : m.isCovered ds = false
  plain : Text.isBlank m.text = true ∨ Fence.open? m.text = none ∧ isWidgetStart m.text = false

theorem ItemRun.itemLines_eq (run : ItemRun column item chunk item')
    (head : rest.head? = item'.rest.head?) :
    itemLines column item (chunk ++ rest) = { item' with rest } := by
  induction run with
  | @stop item left stops =>
    cases rest with
    | nil => rfl
    | cons m rest =>
      rw [List.nil_append, itemLines_cons, stops m head.symm]
  | cons step _ ih => rw [List.cons_append, itemLines_cons, step, ← ih head]

/-- An item depends on its lines and on the first line after it. -/
theorem itemLines_append (taken : (itemLines column item (chunk ++ rest)).rest = rest)
    (head : rest'.head? = rest.head?) :
    itemLines column item (chunk ++ rest') =
      { itemLines column item (chunk ++ rest) with rest := rest' } := by
  refine (itemRun_of_append ?_).itemLines_eq ?_
  · rw [taken]
  · rw [taken, head]

/-- A list that ends before a line that is covered does not take the line. -/
theorem listed_of_takeLine? {ds : List Declaration} (pos : 0 < column)
    (ends : Declaration.endsList ds item.blanksAfter (m :: ls) = true)
    (taken : takeLine? column item m = some item') :
    Listed ds m ∧ Declaration.endsList ds item'.blanksAfter ls = true := by
  rw [Declaration.endsList, Bool.and_eq_true, Bool.not_eq_true'] at ends
  obtain ⟨bare, ends⟩ := ends
  unfold takeLine? at taken
  split at taken
  · rename_i blank
    cases taken
    rw [if_pos blank] at ends
    exact ⟨⟨bare, .inl blank⟩, ends⟩
  · rename_i filled
    rw [if_neg filled] at ends
    -- the line does not end the list
    have open_ : ¬ (indentation m.text == 0 && (ListMark.ofLine? m.text).isNone &&
        (item.blanksAfter || startsBlock m.text)) = true := by
      intro ended
      simp only [Bool.and_eq_true, beq_iff_eq] at ended
      split at taken
      · omega
      · split at taken
        · rename_i lazy
          simp only [Bool.and_eq_true, Bool.not_eq_true'] at lazy
          simp [lazy.1, lazy.2] at ended
        · cases taken
    rw [if_neg open_, Bool.and_eq_true, Bool.and_eq_true, Option.isNone_iff_eq_none,
      Bool.not_eq_true'] at ends
    obtain ⟨plain, ends⟩ := ends
    refine ⟨⟨bare, .inr plain⟩, ?_⟩
    split at taken
    · cases taken
      exact ends
    · split at taken
      · rename_i lazy
        rw [Bool.and_eq_true, Bool.not_eq_true'] at lazy
        cases taken
        dsimp only
        rw [lazy.1]
        exact ends
      · cases taken

theorem ItemRun.listed {ds : List Declaration} (run : ItemRun column item chunk item')
    (pos : 0 < column)
    (ends : Declaration.endsList ds item.blanksAfter (chunk ++ item'.rest) = true) :
    (∀ m ∈ chunk, Listed ds m) ∧
      Declaration.endsList ds item'.blanksAfter item'.rest = true := by
  induction run with
  | stop => exact ⟨nofun, ends⟩
  | cons step _ ih =>
    obtain ⟨first, ends'⟩ := listed_of_takeLine? pos ends step
    obtain ⟨later, rest⟩ := ih ends'
    exact ⟨List.forall_mem_cons.2 ⟨first, later⟩, rest⟩

/-! ### Lists -/

theorem content_pos {line : Text} {mark : ListMark} (h : ListMark.ofLine? line = some mark) :
    0 < mark.content := by
  have filled := indentation_lt_bytes (isBlank_of_listMark h)
  unfold ListMark.ofLine? at h
  obtain ⟨rest, unindented, h⟩ := Option.bind_eq_some_iff.1 h
  obtain ⟨⟨number, width⟩, found, h⟩ := Option.bind_eq_some_iff.1 h
  dsimp only at h
  split at h
  · cases h
    exact Nat.zero_lt_of_lt filled
  · split at h
    · cases h
      dsimp only
      omega
    · cases h

/-- A span that ends with a line that is not covered is the same in the stripped text. -/
theorem span_strip (n : Nat) (mem : m ∈ Line.split source)
    (bare : m.isCovered (scan source) = false) (filled : Text.isBlank m.text = false) :
    (Region.root source).span n m.stop = (Region.root (strip source)).span n m.stop := by
  obtain ⟨after, suffix⟩ := Line.exists_suffix mem
  have agree := Region.agree_strip_line suffix bare
  have pos := indentation_lt_bytes filled
  have le := m.stop_le_next
  have size : Region.sizeAt (Region.root source).text (m.stop - 1) =
      Region.sizeAt (Region.root (strip source)).text (m.stop - 1) := by
    refine agree.sizeAt_eq _ ?_ ?_ <;> rw [Line.stop] at * <;> omega
  rw [Region.span, Region.span, agree.toSource_eq, size]

/-- The line after a list is the same in the stripped text. -/
theorem head?_map_blanked {ds : List Declaration} {blank : Bool}
    (ends : Declaration.endsList ds blank ls = true) :
    (ls.map (Line.blanked ds)).head? = ls.head? := by
  cases ls with
  | nil => rfl
  | cons l ls =>
    rw [Declaration.endsList, Bool.and_eq_true, Bool.not_eq_true'] at ends
    rw [List.map_cons, List.head?_cons, List.head?_cons, Line.blanked_of_bare ends.1]

/-- The line of an item in a list that ends before a line that is covered. -/
theorem listed_of_mark {ds : List Declaration} {mark : ListMark} {blank : Bool}
    (kind : ListMark.ofLine? l.text = some mark)
    (ends : Declaration.endsList ds blank (l :: ls) = true) :
    Listed ds l ∧ Declaration.endsList ds false ls = true := by
  rw [Declaration.endsList, Bool.and_eq_true, Bool.not_eq_true', isBlank_of_listMark kind,
    if_neg Bool.false_ne_true, kind, Option.isNone_some, Bool.and_false, Bool.false_and,
    if_neg Bool.false_ne_true, Bool.and_eq_true, Bool.and_eq_true, Option.isNone_iff_eq_none,
    Bool.not_eq_true'] at ends
  obtain ⟨bare, plain, ends⟩ := ends
  exact ⟨⟨bare, .inr plain⟩, ends⟩

/-- The lines of an item in a list that ends before a line that is covered. -/
theorem exists_listed {mark : ListMark} (kind : ListMark.ofLine? l.text = some mark)
    (ends : Declaration.endsList (scan source) false ls = true) :
    ∃ chunk rest, ls = chunk ++ rest ∧ (itemFrom mark l ls).rest = rest ∧
      (∀ m ∈ chunk, Listed (scan source) m) ∧
      Declaration.endsList (scan source) (itemFrom mark l ls).blanksAfter rest = true ∧
      Takes (itemFrom mark l []) (itemFrom mark l ls) l chunk := by
  obtain ⟨chunk, lines, takes⟩ := exists_itemFrom_takes mark l ls
  obtain ⟨listed, ends'⟩ := (itemRun_of_append lines).listed (content_pos kind) (lines ▸ ends)
  exact ⟨chunk, _, lines, rfl, listed, ends', takes⟩

/-- The item at a line is the same in the stripped text, if neither its lines nor the line after it
are covered. -/
theorem itemAt_strip {mark : ListMark} (suffix : l :: (chunk ++ rest) <:+ Line.split source)
    (bare : ∀ m ∈ l :: chunk, m.isCovered (scan source) = false)
    (left : (itemFrom mark l (chunk ++ rest)).rest = rest)
    (head : (rest.map (Line.blanked (scan source))).head? = rest.head?)
    (takes : Takes (itemFrom mark l []) (itemFrom mark l (chunk ++ rest)) l chunk) :
    itemAt inner (Region.root (strip source)) mark l
        (chunk ++ rest.map (Line.blanked (scan source))) =
      (itemAt inner (Region.root source) mark l (chunk ++ rest)).map fun (item, lines) =>
        (item, { lines with rest := rest.map (Line.blanked (scan source)) }) := by
  have same : itemFrom mark l (chunk ++ rest.map (Line.blanked (scan source))) =
      { itemFrom mark l (chunk ++ rest) with rest := rest.map (Line.blanked (scan source)) } :=
    itemLines_append left head
  have agree := Region.agree_strip suffix bare
  have within := within_of_suffix suffix rfl
  have content : itemContent (Region.root (strip source)) mark l
      (chunk ++ rest.map (Line.blanked (scan source))) =
        itemContent (Region.root source) mark l (chunk ++ rest) := by
    rw [itemContent, itemContent, same]
    refine (gather_eq_of_agree agree fun p mem => ?_).symm
    obtain ⟨m, among, ge, le⟩ := takes.exists_line mem
    obtain ⟨start, stop⟩ := within m among
    exact ⟨Nat.le_trans start ge, Nat.le_trans le stop⟩
  have last : (itemFrom mark l (chunk ++ rest)).last.stop ≤ ((l :: chunk).getLast?.getD l).next :=
    (within _ takes.last_mem).2
  rw [itemAt_eq, itemAt_eq, content, same]
  dsimp only
  rw [agree.span_eq (Nat.le_refl _) last]
  cases itemContent (Region.root source) mark l (chunk ++ rest) with
  | error halt => rfl
  | ok content =>
    dsimp [bind, Except.bind]
    cases inner content with
    | error halt => rfl
    | ok children => rfl

/-- An item is read with its lines, and ends with the last one of them with content. -/
theorem itemAt_ends {r : Region} {mark : ListMark} :
    Outcome (fun _ => True)
      (fun read => read.2 = itemFrom mark l ls ∧
        ∃ children, read.1 = .mk children (r.span l.start (itemFrom mark l ls).last.stop))
      (itemAt inner r mark l ls) := by
  rw [itemAt_eq]
  exact Outcome.bind_any fun _ => Outcome.bind_any fun children => ⟨rfl, children, rfl⟩

theorem itemAt_eq_ok {r : Region} {mark : ListMark} {read : ListItem × ItemLines}
    (h : itemAt inner r mark l ls = .ok read) : read.2 = itemFrom mark l ls := by
  have ends : Outcome _ _ (itemAt inner r mark l ls) := itemAt_ends
  rw [h] at ends
  exact ends.1

theorem itemsFrom_of_passed {r : Region} {ordered : Bool} {stop resume : Nat}
    (passed : ∀ m ∈ chunk, m.start < resume) :
    itemsFrom inner r ordered stop resume (chunk ++ rest) =
      itemsFrom inner r ordered stop resume rest := by
  induction chunk with
  | nil => rfl
  | cons c chunk ih =>
    rw [List.forall_mem_cons] at passed
    rw [List.cons_append, itemsFrom, if_pos passed.1, ih passed.2]

/-- A list is its first item, and the items that are read at the lines that this one leaves. -/
theorem itemsFrom_cons {r : Region} {ordered : Bool} {stop resume : Nat} {mark : ListMark}
    (suffix : l :: ls <:+ Line.split source) (reached : resume ≤ l.start)
    (marked : itemMark? ordered l.text = some mark) :
    itemsFrom inner r ordered stop resume (l :: ls) = (do
      let (item, lines) ← itemAt inner r mark l ls
      let more ← itemsFrom inner r ordered lines.last.stop lines.resume lines.rest
      return { more with
        items := item :: more.items
        tight := !lines.loose && !lines.isApart ordered && more.tight }) := by
  rw [itemsFrom, if_neg (Nat.not_lt_of_le reached), marked]
  refine itemAt_ends.bind_congr ?_
  rintro ⟨item, lines⟩ ⟨rfl, -⟩
  obtain ⟨chunk, taken, takes⟩ := exists_itemFrom_takes mark l ls
  have before := (Line.next_of_getLast? (taken ▸ suffix)).1
  rw [← takes.resume, List.forall_mem_cons] at before
  dsimp only
  generalize itemFrom mark l ls = lines at *
  have passed : itemsFrom inner r ordered lines.last.stop lines.resume ls =
      itemsFrom inner r ordered lines.last.stop lines.resume lines.rest := by
    rw [taken]
    exact itemsFrom_of_passed fun m mem => (before.2 m mem).1
  rw [passed]

/-- No more items are read at a line that does not go on with the list. -/
theorem itemsFrom_of_ends {r : Region} {ordered : Bool} {stop resume : Nat}
    (later : ∀ m ∈ ls, resume ≤ m.start) (ends : ∀ m ∈ ls.head?, itemMark? ordered m.text = none) :
    itemsFrom inner r ordered stop resume ls = .ok { items := [], tight := true, stop, resume } := by
  cases ls with
  | nil => rfl
  | cons l ls =>
    rw [itemsFrom, if_neg (Nat.not_lt_of_le (later l List.mem_cons_self)), ends l rfl]

/-- A list may end at an offset: a line with content that is not covered stops there. -/
def EndsAt (source : Text) (stop : Nat) : Prop :=
  ∃ m ∈ Line.split source, m.isCovered (scan source) = false ∧ Text.isBlank m.text = false ∧
    stop = m.stop

/-- Items read from some lines leave lines to a scan, and take the first line if it has a mark. -/
structure Ended (source : Text) (ordered : Bool) (resume : Nat) (ls : List Line) (items : Items) :
    Prop where
  stop : EndsAt source items.stop
  le : resume ≤ items.resume
  first : ∀ l ∈ ls.head?, (itemMark? ordered l.text).isSome → l.start < items.resume
  leaves : Leaves source ls items.resume

/-- The last line of an item may end a list. -/
theorem endsAt_itemFrom {mark : ListMark} (suffix : l :: (chunk ++ rest) <:+ Line.split source)
    (bare : ∀ m ∈ l :: chunk, m.isCovered (scan source) = false)
    (filled : Text.isBlank l.text = false)
    (takes : Takes (itemFrom mark l []) item l chunk) : EndsAt source item.last.stop :=
  ⟨_, suffix.subset (List.mem_append_left rest takes.last_mem), bare _ takes.last_mem,
    takes.last_filled filled, rfl⟩

/-- An item before other items. -/
theorem Ended.cons {ordered tight : Bool} {resume resume' : Nat} {items : Items}
    {read : List ListItem} (from_ : resume ≤ l.start) (taken : ∀ m ∈ l :: chunk, m.start < resume')
    (ended : Ended source ordered resume' rest items) :
    Ended source ordered resume (l :: (chunk ++ rest))
      { items with items := read, tight := tight } := by
  obtain ⟨chunk', after, rfl, before, leaves⟩ := ended.leaves
  have taken' : ∀ m ∈ l :: chunk, m.start < items.resume :=
    fun m mem => Nat.lt_of_lt_of_le (taken m mem) ended.le
  have first : l.start < items.resume := taken' l List.mem_cons_self
  refine ⟨ended.stop, Nat.le_trans from_ (Nat.le_of_lt first), ?_, l :: (chunk ++ chunk'), after,
    ?_, ?_, leaves⟩
  · rintro l ⟨⟩ -
    exact first
  · rw [List.cons_append, List.append_assoc]
  · rw [← List.cons_append]
    intro m mem
    exact (List.mem_append.1 mem).elim (taken' m) (before m)

/-- Items are the same in the stripped text, if their list ends before a line that is covered. -/
theorem itemsFrom_strip (inner : Inner) (ordered : Bool) {blank : Bool} {stop resume : Nat}
    (walk : Walk source metadata scanned ls) (reached : ∀ m ∈ ls, scanned ≤ m.start)
    (from_ : ∀ m ∈ ls, resume ≤ m.start)
    (ends : Declaration.endsList (scan source) blank ls = true) (stops : EndsAt source stop) :
    itemsFrom inner (Region.root (strip source)) ordered stop resume
        (ls.map (Line.blanked (scan source))) =
      itemsFrom inner (Region.root source) ordered stop resume ls ∧
    Outcome (fun _ => True) (Ended source ordered resume ls)
      (itemsFrom inner (Region.root source) ordered stop resume ls) := by
  induction length : ls.length using Nat.strongRecOn
    generalizing ls metadata scanned blank stop resume with
  | ind n ih =>
    subst length
    cases ls with
    | nil => exact ⟨rfl, stops, Nat.le_refl _, nofun, [], [], rfl, nofun, nofun, _, _, walk, nofun⟩
    | cons l ls =>
      have from_l : resume ≤ l.start := from_ l List.mem_cons_self
      have l_eq := head?_map_blanked ends
      rw [List.map_cons, List.head?_cons, List.head?_cons, Option.some.injEq] at l_eq
      rw [List.map_cons, l_eq, itemsFrom, itemsFrom, if_neg (Nat.not_lt_of_le from_l),
        if_neg (Nat.not_lt_of_le from_l)]
      cases marked : itemMark? ordered l.text with
      | none =>
        refine ⟨rfl, stops, Nat.le_refl _, ?_, [], l :: ls, rfl, nofun, from_, _, _, walk, reached⟩
        rintro l ⟨⟩ some
        rw [marked] at some
        cases some
      | some mark =>
        have kind := (Option.mem_filter_iff.1 marked).1
        obtain ⟨first, ends⟩ := listed_of_mark kind ends
        obtain ⟨chunk, rest, rfl, left, listed, ends', takes⟩ := exists_listed kind ends
        have bare : ∀ m ∈ l :: chunk, m.isCovered (scan source) = false :=
          List.forall_mem_cons.2 ⟨first.bare, fun m mem => (listed m mem).bare⟩
        have suffix := walk.suffix
        obtain ⟨before, later⟩ := Line.next_of_getLast? suffix
        rw [← takes.resume] at before later
        have taken : ∀ m ∈ l :: chunk, m.start < (itemFrom mark l (chunk ++ rest)).resume :=
          fun m mem => (before m mem).1
        have passed := (List.forall_mem_cons.1 taken).2
        -- the scan goes on after the lines of the item
        rw [← List.cons_append] at walk reached
        obtain ⟨metadata', scanned', walk', reached'⟩ := walk.through_bare reached bare
          (List.forall_mem_cons.2 ⟨first.plain, fun m mem => (listed m mem).plain⟩)
        dsimp only
        rw [List.map_append, Line.map_blanked_of_bare (List.forall_mem_cons.1 bare).2,
          itemAt_strip suffix bare left (head?_map_blanked ends') takes]
        cases read_eq : itemAt inner (Region.root source) mark l (chunk ++ rest) with
        | error halt => exact ⟨rfl, trivial⟩
        | ok read =>
          obtain ⟨item, lines⟩ := read
          obtain rfl : lines = itemFrom mark l (chunk ++ rest) := itemAt_eq_ok read_eq
          have stops' := endsAt_itemFrom suffix bare (isBlank_of_listMark kind) takes
          have shorter : rest.length < (l :: (chunk ++ rest)).length := by
            rw [List.length_cons, List.length_append]
            omega
          obtain ⟨more, outcome⟩ := ih rest.length shorter walk' reached' later ends' stops' rfl
          dsimp [bind, Except.bind, Except.map]
          rw [itemsFrom_of_passed passed, itemsFrom_of_passed passed, more]
          have apart : ItemLines.isApart { itemFrom mark l (chunk ++ rest) with
              rest := rest.map (Line.blanked (scan source)) } ordered =
                (itemFrom mark l (chunk ++ rest)).isApart ordered := by
            unfold ItemLines.isApart
            dsimp only
            rw [head?_map_blanked ends', left]
          exact ⟨by rw [apart], outcome.bind fun _ ended => ended.cons from_l taken⟩

/-- A list is the same in the stripped text, if it ends before a line that is covered. -/
theorem listed_strip {mark : ListMark} (walk : Walk source metadata scanned (l :: ls))
    (reached : scanned ≤ l.start) (kind : ListMark.ofLine? l.text = some mark)
    (rule : isThematicBreak l.text = false)
    (ends : Declaration.endsList (scan source) false (l :: ls) = true) :
    listed inner (Region.root source) mark l ls =
        listed inner (Region.root (strip source)) mark l (ls.map (Line.blanked (scan source))) ∧
      ThenLeaves source ls (listed inner (Region.root source) mark l ls) := by
  have suffix := walk.suffix
  have mem := suffix.subset List.mem_cons_self
  have filled := isBlank_of_listMark kind
  have bare := (listed_of_mark kind ends).1.bare
  have from_ : ∀ m ∈ l :: ls, l.start ≤ m.start := fun m mem => Line.start_le_of_mem suffix mem
  have marked := itemMark?_of_listMark kind rule
  obtain ⟨same, outcome⟩ := itemsFrom_strip inner mark.ordered walk
    (fun m mem => Nat.le_trans reached (from_ m mem)) from_ ends ⟨l, mem, bare, filled, rfl⟩
  rw [List.map_cons, Line.blanked_of_bare bare] at same
  rw [listed, listed, same]
  constructor
  · refine outcome.bind_congr fun items ended => ?_
    obtain ⟨m, m_mem, m_bare, m_filled, stop⟩ := ended.stop
    rw [stop, span_strip l.start m_mem m_bare m_filled]
  · refine outcome.bind fun items ended => ?_
    have lt := ended.first l rfl (marked ▸ rfl)
    obtain ⟨chunk, after, lines, before, later, rest⟩ := ended.leaves
    cases chunk with
    | nil =>
      rw [List.nil_append] at lines
      exact absurd (later l (lines ▸ List.mem_cons_self)) (Nat.not_le_of_lt lt)
    | cons c chunk =>
      obtain ⟨rfl, lines'⟩ := List.cons.inj lines
      exact ⟨chunk, after, lines', (List.forall_mem_cons.1 before).2, later, rest⟩

/-! ### Widgets -/

/-- The tags of a widget at the start of some lines are the same in the stripped text. If text
follows a tag that closes itself, the tag is on one line and no declaration is on the next one. -/
structure KeepsTags (source : Text) (l : Line) (ls : List Line) : Prop where
  opening : tagAt l (ls.map (Line.blanked (scan source))) = tagAt l ls
  closing : ∀ tag, tagAt l ls = .ok tag → tag.selfClosing = false →
    closeOf? tag l (ls.map (Line.blanked (scan source))) = closeOf? tag l ls
  alone : ∀ tag, tagAt l ls = .ok tag → tag.selfClosing = true →
    Text.isBlank (tailAt l ls tag.stop) = true ∨
      tag.stop ≤ l.next ∧ ∀ m ∈ ls.head?, m.isCovered (scan source) = false

namespace KeepsTags

variable (keeps : KeepsTags source l ls)

include keeps

theorem widgetStop?_eq {tag : OpenTag} (opened : tagAt l ls = .ok tag) :
    widgetStop? tag l (ls.map (Line.blanked (scan source))) = widgetStop? tag l ls := by
  unfold widgetStop?
  split
  · rfl
  · rename_i selfClosing
    rw [keeps.closing tag opened (Bool.not_eq_true _ ▸ selfClosing)]

/-- A scan passes over the same lines. -/
theorem pastWidget?_eq (kind : isWidgetStart l.text = true)
    (bare : l.isCovered (scan source) = false) :
    Declaration.pastWidget? ((l :: ls).map (Line.blanked (scan source))) =
      Declaration.pastWidget? (l :: ls) := by
  have size := Line.bytes_join_blanked (scan source) (l :: ls)
  have found := fun n => Declaration.lineAt?_blanked (scan source) n (l :: ls)
  rw [List.map_cons, Line.blanked_of_bare bare] at size found ⊢
  rw [Block.pastWidget?_eq kind, Block.pastWidget?_eq kind, keeps.opening]
  cases opened : tagAt l ls with
  | error e => rfl
  | ok tag =>
    dsimp only
    rw [keeps.widgetStop?_eq opened, size, found, Option.map_map]
    have next : Line.next ∘ Line.blanked (scan source) = Line.next := by
      funext m
      exact Line.next_blanked
    rw [next]

end KeepsTags

/-- A paragraph that starts with a widget is the same in the stripped text, if no declaration is on
its second line. -/
theorem paragraphAt_strip_of_second (suffix : l :: ls <:+ Line.split source)
    (chain : (Line.split source).IsChain (Declaration.Parted (scan source)))
    (walk : Walk source metadata l.next ls) (bare : l.isCovered (scan source) = false)
    (second : ∀ m ∈ ls.head?, m.isCovered (scan source) = false) :
    paragraphAt (Region.root source) l ls =
        paragraphAt (Region.root (strip source)) l (ls.map (Line.blanked (scan source))) ∧
      ThenLeaves source ls (paragraphAt (Region.root source) l ls) := by
  have lines : ls = ls.takeWhile goesOn ++ ls.dropWhile goesOn :=
    List.takeWhile_append_dropWhile.symm
  have taken_bare : ∀ m ∈ ls.takeWhile goesOn, m.isCovered (scan source) = false := by
    cases ls with
    | nil => nofun
    | cons c ls =>
      by_cases goes_on : goesOn c = true
      · rw [List.takeWhile_cons_of_pos goes_on, List.forall_mem_cons]
        have c_bare := second c rfl
        exact ⟨c_bare, bare_of_goesOn (chain.suffix walk.suffix) c_bare goes_on⟩
      · rw [List.takeWhile_cons_of_neg goes_on]
        nofun
  refine ⟨paragraphAt_strip_of_bare suffix (List.forall_mem_cons.2 ⟨bare, taken_bare⟩), ?_⟩
  obtain ⟨before, later⟩ := Line.next_of_getLast? (lines ▸ suffix)
  obtain ⟨metadata', resume', rest⟩ := Walk.through_bare (lines ▸ walk)
    (lines ▸ (Line.whole_of_suffix suffix).2.2) taken_bare fun m mem => by
      have plain := plain_of_goesOn (List.mem_takeWhile_imp mem) (taken_bare m mem)
      exact .inr ⟨plain.unopened, plain.other⟩
  rw [paragraphAt_eq]
  refine Outcome.bind_any fun _ => Outcome.bind_any fun _ => ?_
  exact ⟨_, _, lines, fun m mem => (before m (List.mem_cons_of_mem l mem)).1, later, _, _, rest⟩

section Widget

variable {tag : OpenTag} {stop : Nat} (walk : Walk source metadata scanned (l :: ls))
  (reached : scanned ≤ l.start) (kind : isWidgetStart l.text = true)
  (bare : l.isCovered (scan source) = false)

include walk reached kind bare

/-- A scan passes over the lines of a widget that is closed, and none of them is covered. -/
theorem exists_widget_lines (opened : tagAt l ls = .ok tag)
    (ended : widgetStop? tag l ls = some stop) :
    ∃ chunk after, ls = chunk ++ after ∧ (∀ m ∈ chunk, m.isCovered (scan source) = false) ∧
      (∀ m ∈ chunk, m.start < stop) ∧ (stop ≤ l.next → chunk = []) ∧
      stop ≤ ((l :: chunk).getLast?.getD l).next ∧
      Walk source false ((l :: chunk).getLast?.getD l).next after := by
  have suffix := walk.suffix
  have filled := isBlank_of_isWidgetStart kind
  have encloses := encloses_of_widgetStop? suffix kind opened ended
  have lt := encloses.closes.lt
  have le := Text.le_bytes_of_isBoundary encloses.closes.isCut.stop
  obtain ⟨chunk, after, rfl, found, ge, lt'⟩ :=
    Declaration.exists_lineAt? suffix (n := stop - 1) (by omega) (by omega)
  have past : Declaration.past l (chunk ++ after) = ((l :: chunk).getLast?.getD l).next := by
    rw [Declaration.past, Fence.open?_of_isWidgetStart kind]
    dsimp only
    rw [if_pos kind, pastWidget?_eq kind, opened]
    dsimp only
    rw [ended]
    dsimp only [Option.getD_some]
    rw [found]
    rfl
  have undeclared := walk.undeclared reached filled bare
  obtain ⟨before, -⟩ := Line.next_of_getLast? suffix
  have passed : ∀ m ∈ chunk, m.start < ((l :: chunk).getLast?.getD l).next :=
    fun m mem => (before m (List.mem_cons_of_mem l mem)).1
  have walk' := walk.bare reached filled undeclared
  rw [past] at walk'
  refine ⟨chunk, after, rfl, ?_, ?_, ?_, by omega, walk'.passed_append passed⟩
  · intro m mem
    exact walk.not_isCovered_of_lt_past reached filled undeclared (List.mem_append_left after mem)
      (past ▸ passed m mem)
  · intro m mem
    obtain ⟨init, last, lines, last_eq⟩ := Line.exists_init l chunk
    rw [last_eq] at ge
    rw [← List.cons_append, lines, List.append_assoc, List.singleton_append] at suffix
    have mem' : m ∈ init ++ [last] := lines ▸ List.mem_cons_of_mem l mem
    rcases List.mem_append.1 mem' with earlier | latest
    · have := Line.start_lt_of_append suffix earlier
      omega
    · rw [List.mem_singleton.1 latest]
      omega
  · intro within
    cases chunk with
    | nil => rfl
    | cons c chunk =>
      have last : (l :: c :: chunk).getLast?.getD l ∈ c :: chunk := by
        rw [List.getLast?_cons, Option.getD_some]
        exact mem_of_getLast?_getD c chunk
      have := (Line.whole_of_suffix suffix).2.2 _ (List.mem_append_left after last)
      omega

/-- The paragraph at a widget that closes itself, with text after it, is the same in the stripped
text. -/
theorem textual_strip (chain : (Line.split source).IsChain (Declaration.Parted (scan source)))
    (keeps : KeepsTags source l ls) (opened : tagAt l ls = .ok tag)
    (selfClosing : tag.selfClosing = true)
    (textual : ¬ Text.isBlank (tailAt l ls tag.stop) = true) :
    paragraphAt (Region.root source) l ls =
        paragraphAt (Region.root (strip source)) l (ls.map (Line.blanked (scan source))) ∧
      ThenLeaves source ls (paragraphAt (Region.root source) l ls) := by
  obtain ⟨within, second⟩ := (keeps.alone tag opened selfClosing).resolve_left textual
  have ended : widgetStop? tag l ls = some tag.stop := by rw [widgetStop?, if_pos selfClosing]
  have suffix := walk.suffix
  obtain ⟨chunk, after, rfl, -, -, one, -, walk'⟩ :=
    exists_widget_lines walk reached kind bare opened ended
  obtain rfl := one within
  exact paragraphAt_strip_of_second suffix chain walk' bare second

/-- The content of a widget that is closed, its tag and what follows it on its last line are the same
in the stripped text, if its tags are. -/
theorem enclosed_strip (inner : Inner) (keeps : KeepsTags source l ls) (opened : tagAt l ls = .ok tag)
    (ended : widgetStop? tag l ls = some stop) :
    bodyOf inner (Region.root source) (l.start + indentation l.text) tag (textFrom l ls tag.stop) =
        bodyOf inner (Region.root (strip source)) (l.start + indentation l.text) tag
          (textFrom l (ls.map (Line.blanked (scan source))) tag.stop) ∧
      Inline.tagIn (Region.root source) tag (l.start + indentation l.text) stop =
        Inline.tagIn (Region.root (strip source)) tag (l.start + indentation l.text) stop ∧
      tailAt l (ls.map (Line.blanked (scan source))) stop = tailAt l ls stop := by
  have suffix := walk.suffix
  have encloses := encloses_of_widgetStop? suffix kind opened ended
  have lt := encloses.fits.closes.lt
  obtain ⟨chunk, after, rfl, chunk_bare, -, -, le, -⟩ :=
    exists_widget_lines walk reached kind bare opened ended
  have agree := Region.agree_strip suffix (List.forall_mem_cons.2 ⟨bare, chunk_bare⟩)
  refine ⟨bodyOf_eq_of_agree agree (by omega) ?_ (keeps.closing tag opened),
    tagIn_eq_of_agree agree (Nat.le_add_right ..) encloses.fits ?_ le, ?_⟩
  · exact fun selfClosing close found => Nat.le_trans (encloses.body selfClosing close found) le
  · exact fun n n_le => Nat.le_trans n_le (Nat.le_trans encloses.le le)
  · rw [List.map_append, Line.map_blanked_of_bare chunk_bare]
    exact tailAt_map suffix encloses.closes le _

/-- A widget is the same in the stripped text, if its tags are. -/
theorem widgetAt_strip (chain : (Line.split source).IsChain (Declaration.Parted (scan source)))
    (keeps : KeepsTags source l ls) :
    widgetAt inner (Region.root source) l ls =
        widgetAt inner (Region.root (strip source)) l (ls.map (Line.blanked (scan source))) ∧
      ThenLeaves source ls (widgetAt inner (Region.root source) l ls) := by
  have start := (Region.agree_strip_line walk.suffix bare).toSource_eq
  rw [widgetAt_eq, widgetAt_eq, keeps.opening]
  cases opened : tagAt l ls with
  | error e =>
    dsimp only
    rw [start]
    exact ⟨rfl, trivial⟩
  | ok tag =>
    dsimp only
    cases ended : widgetStop? tag l ls with
    | none =>
      -- nothing closes the widget in either text
      rw [bodyOf_unclosed ended, bodyOf_unclosed ((keeps.widgetStop?_eq opened).trans ended), start]
      exact ⟨rfl, trivial⟩
    | some stop =>
      have outcome := bodyOf_stop inner (Region.root source) (l.start + indentation l.text) ended
      obtain ⟨body, tag_eq, tail⟩ :=
        enclosed_strip walk reached kind bare inner keeps opened ended
      have paragraph := fun (selfClosing : tag.selfClosing = true) textual =>
        textual_strip walk reached kind bare chain keeps opened selfClosing textual
      have stops : tag.selfClosing = true → tag.stop = stop := by
        intro selfClosing
        rw [widgetStop?, if_pos selfClosing] at ended
        exact Option.some.inj ended
      rw [← body]
      constructor
      · refine outcome.bind_congr ?_
        rintro ⟨children, _⟩ rfl
        dsimp only
        rw [tag_eq, tail, start]
        split
        · rfl
        · rename_i textual
          split
          · rename_i selfClosing
            exact (paragraph selfClosing (stops selfClosing ▸ textual)).1
          · rfl
      · refine outcome.bind ?_
        rintro ⟨children, _⟩ rfl
        dsimp only
        split
        · obtain ⟨chunk, after, rfl, -, before, -, le, walk'⟩ :=
            exists_widget_lines walk reached kind bare opened ended
          have later := (Line.next_of_getLast? walk.suffix).2
          exact ⟨chunk, after, rfl, before, fun m mem => Nat.le_trans le (later m mem), _, _, walk',
            later⟩
        · rename_i textual
          split
          · rename_i selfClosing
            exact (paragraph selfClosing (stops selfClosing ▸ textual)).2
          · trivial

end Widget

end Block
end Folio
