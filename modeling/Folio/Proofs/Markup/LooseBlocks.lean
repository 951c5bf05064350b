import Folio.Proofs.Markup.StrippedContainers
import Mathlib.Data.List.Chain

/-!
# Lines of paragraphs and lists

A paragraph or a list goes on over lines that begin no block of their own, so it may go on over a
line at which a declaration starts. But such a line, which is at the margin and without a mark,
follows a line with content: `Block.Joins`. Main statements:

* `Block.paragraphAt_isLooseRun` and `Block.listed_isLooseRun`: the lines of a paragraph and of a list.
-/

namespace Folio

variable {source : Text} {l m : Line} {ls chunk : List Line}

/-- Whether a block goes on over lines whatever they mean elsewhere: a paragraph or a list. -/
def Block.isLoose : Block → Bool
  | .paragraph _ _ => true
  | .list _ _ _ _ _ => true
  | _ => false

namespace Block

variable {inner : Inner} {r : Region} {column : Nat} {item item' : ItemLines}

/-- A line may follow another one in a paragraph or a list: at the margin and without a mark, it
follows a line with content. -/
def Joins (l m : Line) : Prop :=
  Text.isBlank l.text = false ∨ Text.isBlank m.text = true ∨ 0 < indentation m.text ∨
    (ListMark.ofLine? m.text).isSome = true

/-! ### The lines of an item -/

/-- A line that an item takes after another one. -/
theorem joins_of_takeLine? (pos : 0 < column)
    (previous : item.blanksAfter = false → Text.isBlank l.text = false)
    (taken : takeLine? column item m = some item') :
    Joins l m ∧ (item'.blanksAfter = false → Text.isBlank m.text = false) ∧
      (item'.last = m ∨ item'.last = item.last ∧ Text.isBlank m.text = true) := by
  unfold takeLine? at taken
  split at taken
  · rename_i blank
    cases taken
    exact ⟨.inr (.inl blank), nofun, .inr ⟨rfl, blank⟩⟩
  · rename_i filled
    rw [Bool.not_eq_true] at filled
    split at taken
    · rename_i deep
      cases taken
      exact ⟨.inr (.inr (.inl (Nat.lt_of_lt_of_le pos deep))), fun _ => filled, .inl rfl⟩
    · split at taken
      · rename_i lazy
        rw [Bool.and_eq_true, Bool.not_eq_true'] at lazy
        cases taken
        exact ⟨.inl (previous lazy.1), fun _ => filled, .inl rfl⟩
      · cases taken

/-- Lines with content among some lines do not start after a last one. -/
def EndsWith (last : Line) (ls : List Line) : Prop :=
  ∀ m ∈ ls, Text.isBlank m.text = false → m.start ≤ last.start

theorem ItemRun.isChain {rest : List Line} (run : ItemRun column item chunk item')
    (pos : 0 < column) (suffix : l :: (chunk ++ rest) <:+ Line.split source)
    (previous : item.blanksAfter = false → Text.isBlank l.text = false)
    (before : item.last.start ≤ l.start) :
    (l :: chunk).IsChain Joins ∧ item.last.start ≤ item'.last.start ∧ EndsWith item'.last chunk := by
  induction run generalizing l with
  | stop => exact ⟨.singleton l, Nat.le_refl _, List.forall_mem_nil _⟩
  | @cons item item' done m chunk step _ ih =>
    obtain ⟨joins, previous', last⟩ := joins_of_takeLine? pos previous step
    have lt : l.start < m.start := Line.start_lt_of_mem suffix List.mem_cons_self
    have le : item.last.start ≤ item'.last.start := by
      rcases last with eq | ⟨eq, -⟩ <;> rw [eq]
      exact Nat.le_trans before (Nat.le_of_lt lt)
    have before' : item'.last.start ≤ m.start := by
      rcases last with eq | ⟨eq, -⟩ <;> rw [eq]
      exact Nat.le_trans before (Nat.le_of_lt lt)
    obtain ⟨chain, le', ends⟩ := ih ((List.suffix_cons l _).trans suffix) previous' before'
    refine ⟨List.isChain_cons_cons.2 ⟨joins, chain⟩, Nat.le_trans le le',
      List.forall_mem_cons.2 ⟨fun filled => ?_, ends⟩⟩
    rcases last with eq | ⟨-, blank⟩
    · rwa [eq] at le'
    · rw [filled] at blank
      cases blank

/-- The lines of an item, which starts with a mark. -/
theorem isChain_itemFrom {mark : ListMark} (suffix : l :: ls <:+ Line.split source)
    (kind : ListMark.ofLine? l.text = some mark)
    (lines : ls = chunk ++ (itemFrom mark l ls).rest) :
    (l :: chunk).IsChain Joins ∧ l.start ≤ (itemFrom mark l ls).last.start ∧
      EndsWith (itemFrom mark l ls).last (l :: chunk) := by
  obtain ⟨chain, le, ends⟩ := (itemRun_of_append lines).isChain (content_pos kind)
    (lines ▸ suffix) (fun _ => isBlank_of_listMark kind) (Nat.le_refl _)
  exact ⟨chain, le, List.forall_mem_cons.2 ⟨fun _ => le, ends⟩⟩

/-! ### The lines of a list -/

/-- The lines of a paragraph or a list: the ones with content start before `stop`, the other ones
after them do not start before `next`. -/
structure IsRun (ls : List Line) (stop next : Nat) (chunk after : List Line) : Prop where
  lines : ls = chunk ++ after
  chain : chunk.IsChain Joins
  filled : ∀ m ∈ chunk, Text.isBlank m.text = false → m.start < stop
  before : ∀ m ∈ chunk, m.start < next
  later : ∀ m ∈ after, next ≤ m.start

theorem start_lt_stop (filled : Text.isBlank l.text = false) : l.start < l.stop := by
  have := indentation_lt_bytes filled
  rw [Line.stop]
  omega

theorem start_lt_of_endsWith {last : Line} (ends : EndsWith last chunk)
    (filled : Text.isBlank last.text = false) :
    ∀ m ∈ chunk, Text.isBlank m.text = false → m.start < last.stop :=
  fun m mem m_filled => Nat.lt_of_le_of_lt (ends m mem m_filled) (start_lt_stop filled)

/-- Items take the lines of a run, which starts with a mark. -/
structure Collects (ordered : Bool) (stop resume : Nat) (ls : List Line) (items : Items)
    (chunk after : List Line) : Prop extends IsRun ls items.stop items.resume chunk after where
  stop_le : stop ≤ items.stop
  resume_le : resume ≤ items.resume
  marked : ∀ m ∈ chunk.head?, (ListMark.ofLine? m.text).isSome = true
  first : ∀ m ∈ ls.head?, (itemMark? ordered m.text).isSome = true → chunk ≠ []

/-- An item before other items. -/
theorem Collects.cons {ordered tight : Bool} {stop resume resume' : Nat} {items : Items}
    {read : List ListItem} {last : Line} {rest more after : List Line}
    (h : Collects ordered last.stop resume' rest items more after)
    (chain : (l :: chunk).IsChain Joins)
    (filled : ∀ m ∈ l :: chunk, Text.isBlank m.text = false → m.start < last.stop)
    (before : ∀ m ∈ l :: chunk, m.start < resume')
    (marked : (ListMark.ofLine? l.text).isSome = true)
    (stop_le : stop ≤ last.stop) (resume_le : resume ≤ resume') :
    Collects ordered stop resume (l :: (chunk ++ rest))
      { items with items := read, tight := tight } (l :: (chunk ++ more)) after where
  lines := by rw [h.lines, List.cons_append, List.append_assoc]
  chain := by
    rw [← List.cons_append, List.isChain_append]
    exact ⟨chain, h.chain, fun _ _ m mem => .inr (.inr (.inr (h.marked m mem)))⟩
  filled := by
    rw [← List.cons_append, List.forall_mem_append]
    exact ⟨fun m mem m_filled => Nat.lt_of_lt_of_le (filled m mem m_filled) h.stop_le, h.filled⟩
  before := by
    rw [← List.cons_append, List.forall_mem_append]
    exact ⟨fun m mem => Nat.lt_of_lt_of_le (before m mem) h.resume_le, h.before⟩
  later := h.later
  stop_le := Nat.le_trans stop_le h.stop_le
  resume_le := Nat.le_trans resume_le h.resume_le
  marked := by
    rintro m ⟨⟩
    exact marked
  first := fun _ _ _ => List.cons_ne_nil _ _

/-- Items take lines up to where they end. -/
theorem itemsFrom_collects {ordered : Bool} {stop resume : Nat}
    (suffix : ls <:+ Line.split source) (from_ : ∀ m ∈ ls, resume ≤ m.start)
    (stops : ∀ m ∈ ls, stop ≤ m.stop) :
    Outcome (fun _ => True)
      (fun items => ∃ chunk after, Collects ordered stop resume ls items chunk after)
      (itemsFrom inner r ordered stop resume ls) := by
  induction length : ls.length using Nat.strongRecOn generalizing ls stop resume with
  | ind n ih =>
    subst length
    cases ls with
    | nil =>
      exact ⟨[], [], ⟨rfl, .nil, nofun, nofun, nofun⟩, Nat.le_refl _, Nat.le_refl _, nofun, nofun⟩
    | cons l ls =>
      cases marked : itemMark? ordered l.text with
      | none =>
        rw [itemsFrom_of_ends from_ fun _ first => Option.some.inj first ▸ marked]
        refine ⟨[], l :: ls, ⟨rfl, .nil, nofun, nofun, from_⟩, Nat.le_refl _, Nat.le_refl _,
          nofun, ?_⟩
        rintro m ⟨⟩ some
        rw [marked] at some
        cases some
      | some mark =>
        have kind := (Option.mem_filter_iff.1 marked).1
        obtain ⟨chunk, lines, takes⟩ := exists_itemFrom_takes mark l ls
        obtain ⟨chain, -, ends⟩ := isChain_itemFrom suffix kind lines
        rw [itemsFrom_cons suffix (from_ l List.mem_cons_self) marked]
        refine itemAt_ends.bind ?_
        rintro ⟨item, taken⟩ ⟨rfl, -⟩
        dsimp only
        generalize itemFrom mark l ls = taken at *
        generalize taken.rest = rest at *
        subst lines
        have last_filled := takes.last_filled (isBlank_of_listMark kind)
        obtain ⟨before, later⟩ := Line.next_of_getLast? suffix
        rw [← takes.resume] at before later
        have from' : ∀ m ∈ rest, taken.last.stop ≤ m.stop := fun m mem =>
          Nat.le_trans (before _ takes.last_mem).2 (Nat.le_trans (later m mem) m.le_stop)
        have suffix' : rest <:+ Line.split source :=
          (List.suffix_append (l :: chunk) rest).trans suffix
        have shorter : rest.length < (l :: (chunk ++ rest)).length := by
          rw [List.length_cons, List.length_append]
          omega
        have more := ih rest.length shorter suffix' later from' rfl
        have taken_before : ∀ m ∈ l :: chunk, m.start < taken.resume :=
          fun m mem => (before m mem).1
        refine more.bind ?_
        rintro items ⟨chunk', after, collects⟩
        refine ⟨_, after, collects.cons chain (start_lt_of_endsWith ends last_filled) taken_before
          (kind ▸ rfl) (stops _ ?_) ?_⟩
        · exact List.cons_subset_cons l (List.subset_append_left chunk rest) takes.last_mem
        · exact Nat.le_trans (from_ l List.mem_cons_self)
            (Nat.le_of_lt (taken_before l List.mem_cons_self))

/-! ### Paragraphs and lists -/

/-- Lines with content follow each other. -/
theorem isChain_of_filled (filled : ∀ m ∈ ls, Text.isBlank m.text = false) : ls.IsChain Joins := by
  rw [List.isChain_iff_forall_rel_of_append_cons_cons]
  rintro l m front back rfl
  exact .inl (filled l (List.mem_append_right front List.mem_cons_self))

theorem endsWith_getLast? {after : List Line} (suffix : l :: (chunk ++ after) <:+ Line.split source) :
    EndsWith ((l :: chunk).getLast?.getD l) (l :: chunk) := by
  obtain ⟨init, last, lines, last_eq⟩ := Line.exists_init l chunk
  rw [← List.cons_append, lines, List.append_assoc, List.singleton_append] at suffix
  rw [last_eq, lines]
  intro m mem _
  rcases List.mem_append.1 mem with earlier | latest
  · exact Nat.le_of_lt (Line.start_lt_of_append suffix earlier)
  · rw [List.mem_singleton.1 latest]

/-- A paragraph or a list takes a run of lines. -/
structure IsLooseRun (r : Region) (l : Line) (ls : List Line) (taken : Taken)
    (chunk after : List Line) : Prop where
  loose : taken.1.isLoose = true
  exists_stop : ∃ stop, taken.1.span = r.span l.start stop ∧
    IsRun (l :: ls) stop taken.2 (l :: chunk) after

/-- The lines of a paragraph. -/
theorem paragraphAt_isLooseRun (suffix : l :: ls <:+ Line.split source)
    (filled : Text.isBlank l.text = false) :
    Outcome (fun _ => True) (fun taken => ∃ chunk after, IsLooseRun r l ls taken chunk after)
      (paragraphAt r l ls) := by
  have lines : ls = ls.takeWhile goesOn ++ ls.dropWhile goesOn :=
    List.takeWhile_append_dropWhile.symm
  have all_filled : ∀ m ∈ l :: ls.takeWhile goesOn, Text.isBlank m.text = false := by
    refine List.forall_mem_cons.2 ⟨filled, fun m mem => ?_⟩
    have goes_on := List.mem_takeWhile_imp mem
    rw [goesOn, Bool.not_eq_true', Bool.or_eq_false_iff] at goes_on
    exact goes_on.1
  obtain ⟨before, later⟩ := Line.next_of_getLast? (lines ▸ suffix)
  rw [paragraphAt_eq]
  refine Outcome.bind_any fun _ => Outcome.bind_any fun _ => ?_
  refine ⟨_, _, rfl, _, rfl, congrArg (l :: ·) lines, isChain_of_filled all_filled, ?_,
    fun m mem => (before m mem).1, later⟩
  exact start_lt_of_endsWith (endsWith_getLast? (lines ▸ suffix))
    (all_filled _ (mem_of_getLast?_getD l _))

/-- The lines of a list. -/
theorem listed_isLooseRun {mark : ListMark} (suffix : l :: ls <:+ Line.split source)
    (kind : ListMark.ofLine? l.text = some mark) (rule : isThematicBreak l.text = false) :
    Outcome (fun _ => True) (fun taken => ∃ chunk after, IsLooseRun r l ls taken chunk after)
      (listed inner r mark l ls) := by
  have marked := itemMark?_of_listMark kind rule
  have from_ : ∀ m ∈ l :: ls, l.start ≤ m.start := fun m mem => Line.start_le_of_mem suffix mem
  have stops : ∀ m ∈ l :: ls, l.stop ≤ m.stop := by
    refine List.forall_mem_cons.2 ⟨Nat.le_refl _, fun m mem => ?_⟩
    have later := (Line.whole_of_suffix suffix).2.2 m mem
    exact Nat.le_trans l.stop_le_next (Nat.le_trans later m.le_stop)
  refine (itemsFrom_collects suffix from_ stops).bind ?_
  rintro items ⟨chunk, after, collects⟩
  obtain ⟨c, chunk, rfl⟩ := List.exists_cons_of_ne_nil (collects.first l rfl (marked ▸ rfl))
  obtain ⟨rfl, -⟩ := List.cons.inj collects.lines
  exact ⟨chunk, after, rfl, items.stop, rfl, collects.toIsRun⟩

/-- A line at the margin, without a mark, that is in a run follows a line with content. -/
theorem IsRun.exists_before {stop next : Nat} {after : List Line}
    (run : IsRun (l :: ls) stop next (l :: chunk) after) (suffix : l :: ls <:+ Line.split source)
    (mem : m ∈ chunk) (filled : Text.isBlank m.text = false) (margin : indentation m.text = 0)
    (unmarked : ListMark.ofLine? m.text = none) :
    ∃ k ∈ Line.split source, l.start ≤ k.start ∧ k.next = m.start ∧ Text.isBlank k.text = false := by
  obtain ⟨front, back, rfl⟩ := List.append_of_mem mem
  obtain ⟨init, k, init_eq, -⟩ := Line.exists_init l front
  have lines : l :: (front ++ m :: back) = init ++ k :: m :: back := by
    rw [← List.cons_append, init_eq, List.append_assoc, List.singleton_append]
  have all : l :: ls = init ++ k :: m :: (back ++ after) := by
    rw [run.lines, lines, List.append_assoc, List.cons_append, List.cons_append]
  have suffix' : k :: m :: (back ++ after) <:+ Line.split source :=
    (List.suffix_append init _).trans (all ▸ suffix)
  have k_mem : k ∈ l :: ls := by
    rw [all]
    exact List.mem_append_right init List.mem_cons_self
  have joins := List.isChain_iff_forall_rel_of_append_cons_cons.1 run.chain lines
  refine ⟨k, suffix.subset k_mem, Line.start_le_of_mem suffix k_mem, ?_, ?_⟩
  · obtain ⟨ps, -, placed⟩ := Line.exists_divided suffix'
    cases ps with
    | nil => cases placed
    | cons p ps => rw [(List.cons.inj placed).1]
  · rcases joins with previous | blank | deep | marked
    · exact previous
    · rw [filled] at blank
      cases blank
    · rw [margin] at deep
      cases deep
    · rw [unmarked] at marked
      cases marked

end Block
end Folio
