import Folio.Proofs.Markup.BlockAgreement
import Folio.Proofs.Markup.Restrip
import Mathlib.Data.List.Chain

/-!
# Leaves and quotes of the stripped text

A source and its stripped text are the same where no line is covered. So a block is the same in both
if none of its lines is covered, and a reading goes on with the lines after it. For blocks that do
not look ahead this is so wherever a declaration does not follow a line of a paragraph directly:
`Declaration.Parted`. Main statements:

* `Region.agree_strip`: the texts agree on lines that are not covered;
* `Block.titled_strip`, `Block.quoted_strip`, `Block.paragraphAt_strip` and `Block.fenced_strip`.
-/

namespace Folio

open Declaration (scan Walk)

variable {source : Text} {l m : Line} {ls : List Line}

/-! ### Where the texts agree -/

namespace Line

/-- The source and its stripped text, divided between lines. -/
theorem eq_join_strip {before after : List Line} (lines : split source = before ++ after) :
    source = join before ++ join after ∧
      strip source = join (before.map (blanked (scan source))) ++
        join (after.map (blanked (scan source))) := by
  constructor
  · rw [← join_append, ← lines, join_split]
  · rw [← join_append, ← List.map_append, ← lines, ← split_strip, join_split]

end Line

namespace Region

/-- Lines that are not covered are the same in the stripped text. -/
theorem agree_strip {chunk after : List Line}
    (suffix : l :: (chunk ++ after) <:+ Line.split source)
    (bare : ∀ m ∈ l :: chunk, m.isCovered (scan source) = false) :
    Agree (root source) (root (strip source)) l.start
      (· ≤ ((l :: chunk).getLast?.getD l).next) := by
  have stop := Line.next_eq_add_bytes suffix
  obtain ⟨before, lines⟩ := suffix
  rw [← List.cons_append] at lines
  obtain ⟨text, text'⟩ := Line.eq_join_strip lines.symm
  rw [List.map_append, Line.map_blanked_of_bare bare, Line.join_append] at text'
  rw [Line.join_append] at text
  have size := Line.bytes_join_blanked (scan source) before
  have size' := Line.bytes_join_blanked (scan source) after
  rw [List.cons_append] at lines
  rw [stop, Line.start_of_split lines.symm]
  exact agree_root text text' size.symm size'.symm

/-- A line that is not covered is the same in the stripped text. -/
theorem agree_strip_line (suffix : l :: ls <:+ Line.split source)
    (bare : l.isCovered (scan source) = false) :
    Agree (root source) (root (strip source)) l.start (· ≤ l.next) := by
  have lines : l :: ([] ++ ls) <:+ Line.split source := suffix
  exact agree_strip lines (List.forall_mem_singleton.2 bare)

theorem agree_strip_of_suffix (suffix : l :: ls <:+ Line.split source)
    (bare : ∀ m ∈ l :: ls, m.isCovered (scan source) = false) :
    Agree (root source) (root (strip source)) l.start fun _ => True := by
  obtain ⟨before, lines⟩ := suffix
  obtain ⟨text, text'⟩ := Line.eq_join_strip lines.symm
  rw [Line.map_blanked_of_bare bare] at text'
  have size := Line.bytes_join_blanked (scan source) before
  have start := Line.start_of_split lines.symm
  rw [start]
  exact agree_root_of_suffix text text' size.symm

end Region

/-- A declaration may start at the second of two lines: it does not follow a line of a paragraph
directly. -/
def Declaration.Parted (ds : List Declaration) (l m : Line) : Prop :=
  m.isCovered ds = true →
    l.isCovered ds = true ∨ Text.isBlank l.text = true ∨ startsBlock l.text = true

instance (ds : List Declaration) (l m : Line) : Decidable (Declaration.Parted ds l m) :=
  inferInstanceAs (Decidable (_ → _))

/-! ### Blocks before declarations -/

namespace Block

variable {inner : Inner} {metadata : Bool} {resume : Nat}

/-- A scan comes to the lines that a block leaves, which start at `next` or later. -/
def Leaves (source : Text) (ls : List Line) (next : Nat) : Prop :=
  ∃ chunk after, ls = chunk ++ after ∧ (∀ m ∈ chunk, m.start < next) ∧
    (∀ m ∈ after, next ≤ m.start) ∧
    ∃ metadata resume, Walk source metadata resume after ∧ ∀ m ∈ after, resume ≤ m.start

/-- The result of a reading, whatever its error, leaves lines to a scan. -/
abbrev ThenLeaves (source : Text) (ls : List Line) (x : Except Halt Taken) : Prop :=
  Outcome (fun _ => True) (fun taken => Leaves source ls taken.2) x

/-- A line that a scan goes through. -/
structure Plain (source : Text) (m : Line) : Prop where
  filled : Text.isBlank m.text = false
  unopened : Fence.open? m.text = none
  other : isWidgetStart m.text = false
  undeclared : m.isCovered (scan source) = true →
    Declaration.isImport m.text = false ∧ Declaration.isExport m.text = false

theorem quoteMark?_of_isBlank {line : Text} (blank : Text.isBlank line = true) :
    (quoteMark? line).isSome = false := by
  rw [← Bool.not_eq_true]
  intro quote
  have first := head?_of_quoteMark? quote
  rw [Text.trimStart, List.dropWhile_eq_nil_iff.2 (List.all_eq_true.1 blank)] at first
  cases first

/-- A scan goes through the lines of a quote. -/
theorem plain_of_isQuoted (quote : isQuoted m = true) : Plain source m := by
  have first : (Text.trimStart m.text).head? = some '>' := head?_of_quoteMark? quote
  refine ⟨?_, ?_, ?_, fun _ => ⟨?_, ?_⟩⟩
  · rw [← Bool.not_eq_true]
    intro blank
    rw [isQuoted, quoteMark?_of_isBlank blank] at quote
    cases quote
  · cases opened : Fence.open? m.text with
    | none => rfl
    | some fence =>
      rcases Fence.head?_of_open? opened with marker | marker <;> rw [first] at marker <;> cases marker
  · rw [← Bool.not_eq_true]
    intro widget
    rw [head?_of_isWidgetStart widget] at first
    cases first
  · rw [← Bool.not_eq_true]
    intro imports
    rw [Declaration.head?_of_isImport imports] at first
    cases first
  · rw [← Bool.not_eq_true]
    intro exporting
    rw [Declaration.head?_of_isExport exporting] at first
    cases first

/-- A scan goes through the lines of a paragraph. -/
theorem plain_of_goesOn (goes_on : goesOn m = true) (bare : m.isCovered (scan source) = false) :
    Plain source m := by
  simp only [goesOn, startsBlock, Bool.not_eq_true', Bool.or_eq_false_iff] at goes_on
  obtain ⟨filled, ⟨⟨⟨⟨⟨⟨unopened, -⟩, -⟩, -⟩, -⟩, other⟩, -⟩⟩ := goes_on
  refine ⟨filled, Option.not_isSome_iff_eq_none.1 (Bool.not_eq_true _ ▸ unopened), other, ?_⟩
  intro covered
  rw [bare] at covered
  cases covered

/-- No line of a paragraph is covered. -/
theorem bare_of_goesOn
    (chain : (l :: ls).IsChain (Declaration.Parted (scan source)))
    (bare : l.isCovered (scan source) = false) (goes_on : goesOn l = true) :
    ∀ m ∈ ls.takeWhile goesOn, m.isCovered (scan source) = false := by
  induction ls generalizing l with
  | nil => nofun
  | cons c ls ih =>
    rw [List.isChain_cons_cons] at chain
    rw [goesOn, Bool.not_eq_true', Bool.or_eq_false_iff] at goes_on
    have c_bare : c.isCovered (scan source) = false := by
      rw [← Bool.not_eq_true]
      intro covered
      rcases chain.1 covered with other | blank | starts
      · rw [bare] at other
        cases other
      · rw [goes_on.1] at blank
        cases blank
      · rw [goes_on.2] at starts
        cases starts
    by_cases c_goes_on : goesOn c = true
    · rw [List.takeWhile_cons_of_pos c_goes_on, List.forall_mem_cons]
      exact ⟨c_bare, ih chain.2 c_bare c_goes_on⟩
    · rw [List.takeWhile_cons_of_neg c_goes_on]
      nofun

/-- A fenced block ends where a scan goes on after it. -/
theorem exists_after_fence (fence : Fence) (suffix : l :: ls <:+ Line.split source) :
    ∃ after, ls = fenceLines fence ls ++ after ∧
      (∀ m ∈ fenceLines fence ls, m.start < fence.skip l.next (Line.join ls)) ∧
        ∀ m ∈ after, fence.skip l.next (Line.join ls) ≤ m.start := by
  rw [Fence.skip_eq suffix]
  obtain ⟨after, lines⟩ := exists_append_fenceLines fence ls
  rw [lines] at suffix
  obtain ⟨before, later⟩ := Line.next_of_getLast? suffix
  exact ⟨after, lines, fun m mem => (before m (List.mem_cons_of_mem l mem)).1, later⟩

theorem within_of_suffix {chunk after : List Line} (suffix : l :: ls <:+ Line.split source)
    (lines : ls = chunk ++ after) :
    Within l.start (· ≤ ((l :: chunk).getLast?.getD l).next) (l :: chunk) := by
  subst lines
  intro m mem
  have among : m ∈ l :: (chunk ++ after) :=
    List.cons_subset_cons l (List.subset_append_left chunk after) mem
  exact ⟨Line.start_le_of_mem suffix among, ((Line.next_of_getLast? suffix).1 m mem).2⟩

/-- A paragraph is the same in the stripped text if none of its lines is covered. -/
theorem paragraphAt_strip_of_bare (suffix : l :: ls <:+ Line.split source)
    (bare : ∀ m ∈ l :: ls.takeWhile goesOn, m.isCovered (scan source) = false) :
    paragraphAt (Region.root source) l ls =
      paragraphAt (Region.root (strip source)) l (ls.map (Line.blanked (scan source))) := by
  have lines : ls = ls.takeWhile goesOn ++ ls.dropWhile goesOn :=
    List.takeWhile_append_dropWhile.symm
  have agree := Region.agree_strip (lines ▸ suffix) bare
  have same := Line.takeWhile_blanked (List.forall_mem_cons.1 bare).2 fun m mem => by
    rcases Line.blanked_eq_or_isBlank (scan source) m with eq | blank
    · have ended := List.head?_dropWhile_not goesOn ls
      rw [Option.mem_def.1 mem] at ended
      rwa [eq]
    · rw [goesOn, blank]
      rfl
  exact paragraphAt_eq_of_agree agree same.1 (within_of_suffix suffix lines)

section Leaf

variable (walk : Walk source metadata resume (l :: ls)) (reached : resume ≤ l.start)

include walk reached

/-- Lines that a scan goes through are not covered, and it comes to the lines after them. -/
theorem bare_and_leaves {chunk after : List Line} (lines : ls = chunk ++ after)
    (plain : ∀ m ∈ l :: chunk, Plain source m) :
    (∀ m ∈ l :: chunk, m.isCovered (scan source) = false) ∧
      Leaves source ls ((l :: chunk).getLast?.getD l).next := by
  subst lines
  have reached : ∀ m ∈ l :: (chunk ++ after), resume ≤ m.start :=
    fun m mem => Nat.le_trans reached (Line.start_le_of_mem walk.suffix mem)
  have suffix := walk.suffix
  rw [← List.cons_append] at walk reached
  obtain ⟨bare, rest⟩ := walk.through reached fun m mem =>
    ⟨(plain m mem).filled, (plain m mem).unopened, (plain m mem).other, (plain m mem).undeclared⟩
  obtain ⟨before, later⟩ := Line.next_of_getLast? suffix
  exact ⟨bare, chunk, after, rfl, fun m mem => (before m (List.mem_cons_of_mem l mem)).1, later,
    rest⟩

/-- A block of one line. -/
theorem line_strip (plain : Plain source l) :
    Region.Agree (Region.root source) (Region.root (strip source)) l.start (· ≤ l.next) ∧
      Leaves source ls l.next := by
  have lines : ls = [] ++ ls := rfl
  have one : ∀ m ∈ [l], Plain source m := fun m mem => List.mem_singleton.1 mem ▸ plain
  obtain ⟨bare, leaves⟩ := bare_and_leaves walk reached lines one
  exact ⟨Region.agree_strip (lines ▸ walk.suffix) bare, leaves⟩

theorem titled_strip {mark : HeadingMark} (kind : HeadingMark.ofLine? l.text = some mark)
    (plain : Plain source l) :
    titled (Region.root source) mark l = titled (Region.root (strip source)) mark l ∧
      ThenLeaves source ls (titled (Region.root source) mark l) := by
  obtain ⟨agree, leaves⟩ := line_strip walk reached plain
  refine ⟨titled_eq_of_agree agree (Nat.le_refl _) ?_ kind, ?_⟩
  · exact fun n le => Nat.le_trans le l.stop_le_next
  · exact Outcome.bind_any fun _ => Outcome.bind_any fun _ => leaves

theorem quoted_strip (kind : isQuoted l = true) :
    quoted inner (Region.root source) l ls =
        quoted inner (Region.root (strip source)) l (ls.map (Line.blanked (scan source))) ∧
      ThenLeaves source ls (quoted inner (Region.root source) l ls) := by
  have lines : ls = ls.takeWhile isQuoted ++ ls.dropWhile isQuoted :=
    List.takeWhile_append_dropWhile.symm
  have plain : ∀ m ∈ l :: ls.takeWhile isQuoted, Plain source m := by
    rw [List.forall_mem_cons]
    exact ⟨plain_of_isQuoted kind, fun m mem => plain_of_isQuoted (List.mem_takeWhile_imp mem)⟩
  obtain ⟨bare, leaves⟩ := bare_and_leaves walk reached lines plain
  have agree := Region.agree_strip (lines ▸ walk.suffix) bare
  have same := Line.takeWhile_blanked (List.forall_mem_cons.1 bare).2 fun m mem => by
    rcases Line.blanked_eq_or_isBlank (scan source) m with eq | blank
    · have ended := List.head?_dropWhile_not isQuoted ls
      rw [Option.mem_def.1 mem] at ended
      rwa [eq]
    · exact quoteMark?_of_isBlank blank
  refine ⟨quoted_eq_of_agree agree same.1 kind (within_of_suffix walk.suffix lines), ?_⟩
  rw [quoted_eq _ ls kind]
  exact Outcome.bind_any fun _ => Outcome.bind_any fun _ => leaves

theorem paragraphAt_strip (kind : goesOn l = true)
    (chain : (Line.split source).IsChain (Declaration.Parted (scan source)))
    (l_bare : l.isCovered (scan source) = false) :
    paragraphAt (Region.root source) l ls =
        paragraphAt (Region.root (strip source)) l (ls.map (Line.blanked (scan source))) ∧
      ThenLeaves source ls (paragraphAt (Region.root source) l ls) := by
  have lines : ls = ls.takeWhile goesOn ++ ls.dropWhile goesOn :=
    List.takeWhile_append_dropWhile.symm
  have bare := bare_of_goesOn (chain.suffix walk.suffix) l_bare kind
  have plain : ∀ m ∈ l :: ls.takeWhile goesOn, Plain source m := by
    rw [List.forall_mem_cons]
    exact ⟨plain_of_goesOn kind l_bare,
      fun m mem => plain_of_goesOn (List.mem_takeWhile_imp mem) (bare m mem)⟩
  obtain ⟨all_bare, leaves⟩ := bare_and_leaves walk reached lines plain
  refine ⟨paragraphAt_strip_of_bare walk.suffix all_bare, ?_⟩
  rw [paragraphAt_eq]
  exact Outcome.bind_any fun _ => Outcome.bind_any fun _ => leaves

/-- A scan passes over the lines of a fenced block, and none of them is covered. -/
theorem exists_fence_lines {fence : Fence} (opened : Fence.open? l.text = some fence)
    (filled : Text.isBlank l.text = false) (l_bare : l.isCovered (scan source) = false) :
    ∃ after, ls = fenceLines fence ls ++ after ∧
      (∀ m ∈ fenceLines fence ls, m.isCovered (scan source) = false) ∧
      Walk source false (fence.skip l.next (Line.join ls)) after ∧
      ∀ m ∈ after, fence.skip l.next (Line.join ls) ≤ m.start := by
  obtain ⟨after, lines, before, later⟩ := exists_after_fence fence walk.suffix
  have undeclared := walk.undeclared reached filled l_bare
  have past : Declaration.past l ls = fence.skip l.next (Line.join ls) := by
    rw [Declaration.past, opened]
  refine ⟨after, lines, fun m mem => ?_, ?_, later⟩
  · exact walk.not_isCovered_of_lt_past reached filled undeclared (fenceLines_subset fence ls mem)
      (past ▸ before m mem)
  · have passed := walk.bare reached filled undeclared
    rw [past] at passed
    refine Declaration.Walk.passed_append ?_ before
    rw [← lines]
    exact passed

theorem fenced_strip {fence : Fence} (opened : Fence.open? l.text = some fence)
    (filled : Text.isBlank l.text = false) (l_bare : l.isCovered (scan source) = false) :
    fenced (Region.root source) fence l ls =
        fenced (Region.root (strip source)) fence l (ls.map (Line.blanked (scan source))) ∧
      Leaves source ls (fenced (Region.root source) fence l ls).2 := by
  obtain ⟨after, lines, bare, walk', later⟩ :=
    exists_fence_lines walk reached opened filled l_bare
  have suffix : l :: (fenceLines fence ls ++ after) <:+ Line.split source := by
    rw [← lines]
    exact walk.suffix
  have agree := Region.agree_strip suffix (List.forall_mem_cons.2 ⟨l_bare, bare⟩)
  have close_bare : ∀ m ∈ (ls.dropWhile fence.staysOpen).head?,
      m.isCovered (scan source) = false :=
    fun m mem => bare m (List.mem_append_right _ (Option.mem_toList.2 mem))
  have same := Line.takeWhile_blanked (fun m mem => bare m (List.mem_append_left _ mem))
    fun m mem => by
      have ended := List.head?_dropWhile_not fence.staysOpen ls
      rw [Option.mem_def.1 mem] at ended
      rwa [Line.blanked_of_bare (close_bare m mem)]
  have taken : fenceLines fence (ls.map (Line.blanked (scan source))) = fenceLines fence ls := by
    rw [fenceLines, fenceLines, same.1, same.2, List.head?_map]
    cases close : (ls.dropWhile fence.staysOpen).head? with
    | none => rfl
    | some m => rw [Option.map_some, Line.blanked_of_bare (close_bare m close)]
  refine ⟨fenced_eq_of_agree agree same.1 taken (within_of_suffix walk.suffix lines), ?_⟩
  obtain ⟨first, rest⟩ := Line.next_of_getLast? suffix
  rw [fenced_eq]
  exact ⟨_, after, lines, fun m mem => (first m (List.mem_cons_of_mem l mem)).1, rest, _, _, walk',
    later⟩

end Leaf

end Block
end Folio
