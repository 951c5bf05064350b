import Folio.Proofs.Markup.Lines

/-!
# Pieces of blocks

The parts that blocks take from their region are parts of its lines. All of them lie between two
boundaries, except those of a widget's body when it is dedented: headings, paragraphs, quotes and
list items are never refused their content. Main statements: `titled_eq_error`,
`paragraphAt_eq_error`, `quoteContent_isOk` and `itemContent_isOk`.
-/

namespace Folio

/-- A reading in two steps halts in the first step or in the second one. -/
theorem Halt.bind_eq_error_iff {α β : Type} {x : Except Halt α} {f : α → Except Halt β} {h : Halt} :
    (x >>= f) = .error h ↔ x = .error h ∨ ∃ a, x = .ok a ∧ f a = .error h := by
  cases x <;> simp [bind, Except.bind]

@[simp] theorem Halt.pure_ne_error {α : Type} (a : α) (h : Halt) :
    (pure a : Except Halt α) ≠ .error h := nofun

namespace Block

variable {r : Region} {l : Line} {ls : List Line}

theorem inlines_eq_error {h : Halt} (failed : inlines r = .error h) : ∃ e, h = .mistake e := by
  unfold inlines at failed
  split at failed
  · cases failed
  · cases failed
    exact ⟨_, rfl⟩

/-! ### Leaves -/

/-- A heading fails with a mistake only. -/
theorem titled_eq_error {mark : HeadingMark} {h : Halt} (mem : l ∈ r.lines)
    (kind : HeadingMark.ofLine? l.text = some mark) (failed : titled r mark l = .error h) :
    ∃ e, h = .mistake e := by
  obtain ⟨content, taken⟩ := slice_isOk (Line.isCut mem (HeadingMark.isCut_of_ofLine? kind))
  rw [titled, taken] at failed
  rcases Halt.bind_eq_error_iff.1 failed with failed | ⟨_, -, failed⟩
  · cases failed
  · rcases Halt.bind_eq_error_iff.1 failed with failed | ⟨_, -, failed⟩
    · exact inlines_eq_error failed
    · cases failed

/-- A paragraph fails with a mistake only. -/
theorem paragraphAt_eq_error {h : Halt} (lines : ∀ m ∈ l :: ls, m ∈ r.lines)
    (failed : paragraphAt r l ls = .error h) : ∃ e, h = .mistake e := by
  obtain ⟨content, joined⟩ : ∃ content,
      gather r ((l :: ls.takeWhile fun m => !(Text.isBlank m.text || startsBlock m.text)).map
        fun m => (m.start + indentation m.text, m.stop)) = .ok content := by
    refine gather_isOk ?_
    intro piece mem
    obtain ⟨m, taken, rfl⟩ := List.mem_map.1 mem
    refine Line.isCut_stop (lines m ?_) (isBoundary_of_le_indentation (Nat.le_refl _))
    exact List.cons_subset_cons l (List.takeWhile_subset _) taken
  simp only [paragraphAt, joined] at failed
  rcases Halt.bind_eq_error_iff.1 failed with failed | ⟨_, -, failed⟩
  · cases failed
  · rcases Halt.bind_eq_error_iff.1 failed with failed | ⟨_, -, failed⟩
    · exact inlines_eq_error failed
    · cases failed

/-! ### Quotes -/

/-- The content of the quote that starts at a line. -/
def quoteContent (r : Region) (l : Line) (ls : List Line) : Except Halt Region :=
  gather r <| ((l :: ls).takeWhile fun m => (quoteMark? m.text).isSome).map fun m =>
    (min (m.start + (quoteMark? m.text).getD 0) m.stop, m.stop)

theorem quoteContent_isOk (lines : ∀ m ∈ l :: ls, m ∈ r.lines) :
    ∃ content, quoteContent r l ls = .ok content := by
  refine gather_isOk ?_
  intro piece mem
  obtain ⟨m, taken, rfl⟩ := List.mem_map.1 mem
  obtain ⟨n, mark⟩ := Option.isSome_iff_exists.1 (List.all_eq_true.1 List.all_takeWhile m taken)
  have boundary := isBoundary_of_quoteMark? mark
  rw [mark, Option.getD_some, Line.min_stop boundary]
  exact Line.isCut_stop (lines m (List.takeWhile_subset _ taken)) boundary

/-- A quote fails exactly if its content does. -/
theorem quoted_eq_error_iff {inner : Inner} {h : Halt} (lines : ∀ m ∈ l :: ls, m ∈ r.lines) :
    quoted inner r l ls = .error h ↔
      ∃ content, quoteContent r l ls = .ok content ∧ inner content = .error h := by
  obtain ⟨content, joined⟩ := quoteContent_isOk lines
  have unfolded : quoted inner r l ls = (do
      let content ← quoteContent r l ls
      let last := ((l :: ls).takeWhile fun m => (quoteMark? m.text).isSome).getLast?.getD l
      return (.quote (← inner content) (r.span l.start last.stop), last.next)) := rfl
  simp [unfolded, joined, Halt.bind_eq_error_iff, -bind_pure_comp]

/-! ### List items -/

theorem mem_of_mem_dropEmpty {p : Nat × Nat} {ps : List (Nat × Nat)} (h : p ∈ dropEmpty ps) :
    p ∈ ps := by
  fun_induction dropEmpty ps with
  | case1 => exact h
  | case2 => exact h
  | case3 start stop q ps empty ih => exact List.mem_cons_of_mem _ (ih h)
  | case4 => exact h

/-- The lines of an item add pieces between boundaries. -/
theorem itemLines_isCut {column : Nat} {item : ItemLines} (lines : ∀ m ∈ ls, m ∈ r.lines)
    (cuts : ∀ p ∈ item.pieces, Text.IsCut r.text p.1 p.2) :
    ∀ p ∈ (itemLines column item ls).pieces, Text.IsCut r.text p.1 p.2 := by
  fun_induction itemLines column item ls with
  | case1 => exact cuts
  | case2 item l ls blank ih =>
    rw [List.forall_mem_cons] at lines
    refine ih lines.2 (List.forall_mem_cons.2 ⟨?_, cuts⟩)
    exact Line.isCut lines.1 ⟨Nat.le_refl 0, Text.isBoundary_zero _, Text.isBoundary_zero _⟩
  | case3 item l ls indent content deep ih =>
    rw [List.forall_mem_cons] at lines
    refine ih lines.2 (List.forall_mem_cons.2 ⟨?_, cuts⟩)
    exact Line.isCut_stop lines.1 (isBoundary_of_le_indentation deep)
  | case4 item l ls indent content shallow lazy ih =>
    rw [List.forall_mem_cons] at lines
    refine ih lines.2 (List.forall_mem_cons.2 ⟨?_, cuts⟩)
    exact Line.isCut_stop lines.1 (isBoundary_of_le_indentation (Nat.le_refl _))
  | case5 => exact cuts

/-- The lines of the item that starts at a line with a mark. -/
def itemFrom (mark : ListMark) (l : Line) (ls : List Line) : ItemLines :=
  itemLines mark.content
    { pieces := [(min (l.start + mark.content) l.stop, l.stop)], last := l, loose := false,
      blanksAfter := false, resume := l.next, rest := [] } ls

/-- The content of the item that starts at a line with a mark. -/
def itemContent (r : Region) (mark : ListMark) (l : Line) (ls : List Line) : Except Halt Region :=
  gather r (dropEmpty (itemFrom mark l ls).pieces).reverse

theorem itemContent_isOk {mark : ListMark} (lines : ∀ m ∈ l :: ls, m ∈ r.lines)
    (kind : ListMark.ofLine? l.text = some mark) :
    ∃ content, itemContent r mark l ls = .ok content := by
  refine gather_isOk fun p mem => ?_
  rw [List.forall_mem_cons] at lines
  have boundary := ListMark.isBoundary_of_ofLine? kind
  refine itemLines_isCut lines.2 ?_ p (mem_of_mem_dropEmpty (List.mem_reverse.1 mem))
  rintro p mem
  rw [List.mem_singleton.1 mem, Line.min_stop boundary]
  exact Line.isCut_stop lines.1 boundary

/-- The contents of the items that are read from the lines that do not start before `resume`, up to
the first one that cannot be read. -/
def itemContents (inner : Inner) (r : Region) (ordered : Bool) : Nat → List Line → List Region
  | _, [] => []
  | resume, l :: ls =>
    if l.start < resume then itemContents inner r ordered resume ls
    else
      match itemMark? ordered l.text with
      | none => []
      | some mark =>
        match itemContent r mark l ls with
        | .error _ => []
        | .ok content =>
          content ::
            if (inner content).isOk then
              itemContents inner r ordered (itemFrom mark l ls).resume ls
            else []

theorem itemAt_eq (inner : Inner) (mark : ListMark) (l : Line) (ls : List Line) :
    itemAt inner r mark l ls = (do
      let content ← itemContent r mark l ls
      let item := itemFrom mark l ls
      return (.mk (← inner content) (r.span l.start item.last.stop), item)) := rfl

/-- The reading of items fails exactly if the content of one of them does. -/
theorem itemsFrom_eq_error_iff {inner : Inner} {ordered : Bool} (stop : Nat) {resume : Nat}
    {h : Halt} (lines : ∀ m ∈ ls, m ∈ r.lines) :
    itemsFrom inner r ordered stop resume ls = .error h ↔
      ∃ content ∈ itemContents inner r ordered resume ls, inner content = .error h := by
  induction ls generalizing stop resume with
  | nil => simp [itemsFrom, itemContents]
  | cons l ls ih =>
    have tail : ∀ m ∈ ls, m ∈ r.lines := fun m mem => lines m (List.mem_cons_of_mem _ mem)
    rw [itemsFrom, itemContents]
    split
    · exact ih stop tail
    · cases mark : itemMark? ordered l.text with
      | none => simp
      | some mark =>
        obtain ⟨content, joined⟩ := itemContent_isOk lines (Option.mem_filter_iff.1 mark).1
        simp only [itemAt_eq, joined]
        cases read : inner content with
        | error e =>
          simp [Halt.bind_eq_error_iff, read, Except.isOk, Except.toBool, -bind_pure_comp]
        | ok blocks =>
          simp [Halt.bind_eq_error_iff, read, Except.isOk, Except.toBool, ih _ tail,
            -bind_pure_comp]

end Block
end Folio
