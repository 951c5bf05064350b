import Folio.Proofs.Markup.DocumentSpans
import Folio.Proofs.Markup.Scan

/-!
# What is left to strip

A scan of the stripped text goes the way that the scan of the source went, with blank lines where
declarations were. So it finds nothing, with two exceptions. An exported constant counts as metadata
only before other content, so one that stood after metadata becomes metadata. And the extent of a
widget depends on lines that a failed reading of a tag looks at, so that declarations may be passed
over in one of the two texts only: `Declaration.KeepsWidgets` says that this is not so. Main
statements:

* `Declaration.scanFrom_blanked`: the scan of the stripped text, where no metadata may come;
* `Declaration.scan_strip_eq_nil_iff`: there is nothing to strip, unless an exported constant comes
  first;
* `Document.ne_invalidMetadata`: then it is not metadata that cannot be read.
-/

namespace Folio

open Declaration (scan scanFrom declared? past)

variable {source : Text} {ds : List Declaration} {l m : Line} {ls : List Line}

/-! ### Blanked lines -/

namespace Line

theorem isBlank_blankOut (s : Text) : Text.isBlank (blankOut s) = true := by
  rw [Text.isBlank, List.all_eq_true]
  intro c mem
  have skipped := isSkipped_of_mem_blankOut mem
  simp only [TagToken.isSkipped, Bool.or_eq_true, beq_iff_eq] at skipped
  rcases skipped with ((rfl | rfl) | rfl) | rfl <;> rfl

theorem isBlank_blanked (covered : l.isCovered ds = true) :
    Text.isBlank (l.blanked ds).text = true := by
  rw [blanked_of_covered covered]
  exact isBlank_blankOut l.text

/-- A line with something on it is as it was. -/
theorem bare_of_filled (filled : Text.isBlank (l.blanked ds).text = false) :
    l.isCovered ds = false := by
  rw [← Bool.not_eq_true]
  intro covered
  rw [isBlank_blanked covered] at filled
  cases filled

theorem map_blanked_of_bare (bare : ∀ m ∈ ls, m.isCovered ds = false) :
    ls.map (blanked ds) = ls :=
  (List.map_congr_left fun m mem => blanked_of_bare (bare m mem)).trans (List.map_id ls)

/-- After a line that is not covered, declarations that start before it cover no line. -/
theorem bare_of_early (suffix : l :: ls <:+ split source) (bare : l.isCovered ds = false)
    (early : ∀ d ∈ ds, d.span.start ≤ l.start) (mem : m ∈ l :: ls) : m.isCovered ds = false := by
  rw [isCovered, List.any_eq_false] at bare ⊢
  intro d d_mem covered
  refine bare d d_mem ?_
  have le := start_le_of_mem suffix mem
  rw [Declaration.covers, Bool.and_eq_true, decide_eq_true_eq, decide_eq_true_eq] at covered ⊢
  exact ⟨early d d_mem, Nat.le_trans le covered.2⟩

theorem isBlank_blanked_of_or (blank : l.isCovered ds = true ∨ Text.isBlank l.text = true) :
    Text.isBlank (l.blanked ds).text = true := by
  unfold blanked
  split
  · exact isBlank_blankOut l.text
  · rename_i bare
    exact blank.resolve_left bare

theorem blanked_eq_or_isBlank (ds : List Declaration) (l : Line) :
    l.blanked ds = l ∨ Text.isBlank (l.blanked ds).text = true := by
  by_cases covered : l.isCovered ds = true
  · exact .inr (isBlank_blanked covered)
  · exact .inl (blanked_of_bare (Bool.not_eq_true _ ▸ covered))

/-- The first lines of one kind are the same, if they are not covered and none is added. -/
theorem takeWhile_blanked {p : Line → Bool} (bare : ∀ m ∈ ls.takeWhile p, m.isCovered ds = false)
    (ends : ∀ m ∈ (ls.dropWhile p).head?, p (m.blanked ds) = false) :
    (ls.map (blanked ds)).takeWhile p = ls.takeWhile p ∧
      (ls.map (blanked ds)).dropWhile p = (ls.dropWhile p).map (blanked ds) := by
  induction ls with
  | nil => exact ⟨rfl, rfl⟩
  | cons l ls ih =>
    by_cases taken : p l = true
    · rw [List.takeWhile_cons_of_pos taken, List.forall_mem_cons] at bare
      rw [List.dropWhile_cons_of_pos taken] at ends
      obtain ⟨same, rest⟩ := ih bare.2 ends
      rw [List.map_cons, blanked_of_bare bare.1, List.takeWhile_cons_of_pos taken,
        List.takeWhile_cons_of_pos taken, List.dropWhile_cons_of_pos taken,
        List.dropWhile_cons_of_pos taken, same, rest]
      exact ⟨rfl, rfl⟩
    · rw [List.dropWhile_cons_of_neg taken] at ends ⊢
      have ended : ¬ p (l.blanked ds) = true := by
        rw [ends l rfl]
        exact Bool.false_ne_true
      rw [List.map_cons, List.takeWhile_cons_of_neg taken, List.takeWhile_cons_of_neg ended,
        List.dropWhile_cons_of_neg ended]
      exact ⟨rfl, rfl⟩

end Line

/-- Blanking out lines after a fenced block does not change where it ends. -/
theorem Fence.skip_blanked {f : Fence} (suffix : l :: ls <:+ Line.split source)
    (bare : ∀ m ∈ ls, m.start < f.skip l.next (Line.join ls) →
      m.isCovered (scan source) = false) :
    f.skip l.next (Line.join (ls.map (Line.blanked (scan source)))) =
      f.skip l.next (Line.join ls) := by
  cases rest : ls.dropWhile f.staysOpen with
  | nil =>
    rw [Line.map_blanked_of_bare fun m mem => bare m mem (Fence.lt_skip suffix rest m mem)]
  | cons close after =>
    have next := Fence.skip_eq_next suffix rest
    rw [next] at bare
    -- the lines of the block are the same in the stripped text
    have lines : ls = ls.takeWhile f.staysOpen ++ close :: after := by
      rw [← rest, List.takeWhile_append_dropWhile]
    have suffix_ls : ls <:+ Line.split source := (List.suffix_cons l ls).trans suffix
    have close_mem : close ∈ ls := by
      rw [lines]
      exact List.mem_append_right _ List.mem_cons_self
    have lt := Line.start_lt_next (suffix_ls.subset close_mem)
    have close_bare := bare close close_mem lt
    have body_bare : ∀ m ∈ ls.takeWhile f.staysOpen, m.isCovered (scan source) = false := by
      intro m mem
      have before : m.start < close.start := Line.start_lt_of_append (lines ▸ suffix_ls) mem
      exact bare m (List.takeWhile_subset _ mem) (Nat.lt_trans before lt)
    have closes : f.staysOpen close = false := by
      have ended := List.head?_dropWhile_not f.staysOpen ls
      rwa [rest] at ended
    have blanked := (Line.takeWhile_blanked body_bare (by
      rw [rest]
      rintro m ⟨⟩
      rwa [Line.blanked_of_bare close_bare])).2
    rw [rest, List.map_cons, Line.blanked_of_bare close_bare] at blanked
    have suffix' : (l :: ls).map (Line.blanked (scan source)) <:+ Line.split (strip source) := by
      rw [split_strip]
      exact suffix.map _
    have next' := Fence.skip_eq_next suffix' blanked
    rw [Line.next_blanked] at next'
    rw [next, next']

namespace Declaration

/-! ### Declarations among blanked lines -/

theorem importEnd?_blanked (h : importEnd? ls = none) :
    importEnd? (ls.map (Line.blanked ds)) = none := by
  induction ls with
  | nil => rfl
  | cons l ls ih =>
    rw [List.map_cons, importEnd?]
    split
    · rfl
    · rename_i filled
      have bare := Line.bare_of_filled (Bool.not_eq_true _ ▸ filled)
      rw [Line.blanked_of_bare bare] at filled ⊢
      rw [importEnd?, if_neg filled] at h
      split at h
      · cases h
      · rename_i unended
        rw [if_neg unended]
        exact ih h

theorem isSome_frontMatter?_iff {first second : Line} {rest : List Line} :
    (frontMatter? (first :: second :: rest)).isSome = true ↔
      Text.trimEnd first.text = ['-', '-', '-'] ∧ Text.isBlank second.text = false ∧
        ∃ close ∈ second :: rest, closesFrontMatter close.text = true := by
  rw [frontMatter?]
  split
  · rename_i dashes
    rw [Bool.and_eq_true, beq_iff_eq, Bool.not_eq_true'] at dashes
    rw [Option.isSome_map, List.find?_isSome]
    exact ⟨fun found => ⟨dashes.1, dashes.2, found⟩, fun h => h.2.2⟩
  · rename_i other
    rw [Bool.and_eq_true, beq_iff_eq, Bool.not_eq_true'] at other
    exact ⟨nofun, fun h => absurd ⟨h.1, h.2.1⟩ other⟩

/-- Front matter is blanked out, and other lines do not become front matter. -/
theorem frontMatter?_blanked (source : Text) :
    frontMatter? ((Line.split source).map (Line.blanked (scan source))) = none := by
  match lines : Line.split source with
  | [] => rfl
  | [_] => rfl
  | first :: second :: rest =>
    rw [← Option.not_isSome_iff_eq_none, List.map_cons, List.map_cons, isSome_frontMatter?_iff]
    rintro ⟨dashes, filled, close', mem, closes⟩
    rw [← List.map_cons] at mem
    obtain ⟨close, close_mem, rfl⟩ := List.mem_map.1 mem
    -- these three lines are as they are in the source, where they make front matter
    have first_bare : first.isCovered (scan source) = false := by
      refine Line.bare_of_filled (Bool.not_eq_true _ ▸ fun blank => ?_)
      rw [trimEnd_of_isBlank blank] at dashes
      cases dashes
    have close_bare : close.isCovered (scan source) = false := by
      refine Line.bare_of_filled (Bool.not_eq_true _ ▸ fun blank => ?_)
      rw [closesFrontMatter, trimEnd_of_isBlank blank] at closes
      cases closes
    rw [Line.blanked_of_bare first_bare] at dashes
    rw [Line.blanked_of_bare (Line.bare_of_filled filled)] at filled
    rw [Line.blanked_of_bare close_bare] at closes
    have found := isSome_frontMatter?_iff.2 ⟨dashes, filled, close, close_mem, closes⟩
    rw [← lines] at found
    obtain ⟨⟨d, resume⟩, found⟩ := Option.isSome_iff_exists.1 found
    obtain ⟨_, _, close', lines', mem', -, -, rfl⟩ := exists_of_frontMatter? found
    rw [lines] at lines'
    cases lines'
    have suffix : first :: second :: rest <:+ Line.split source := lines ▸ List.suffix_refl _
    have lt : first.start < close'.next :=
      Nat.lt_trans (Line.start_lt_of_mem suffix mem')
        (Line.start_lt_next (suffix.subset (List.mem_cons_of_mem first mem')))
    have covered := isCovered_of_frontMatter? found (suffix.subset List.mem_cons_self) lt
    rw [first_bare] at covered
    cases covered

theorem scan_strip (source : Text) :
    scan (strip source) =
      scanFrom true 0 ((Line.split source).map (Line.blanked (scan source))) := by
  rw [scan, split_strip, frontMatter?_blanked]

/-! ### The scan of the stripped text -/

/-- The widgets of a source have the same extent in the stripped text. -/
def KeepsWidgets (source : Text) : Prop :=
  ∀ l ls, l :: ls <:+ Line.split source → isWidgetStart l.text = true →
    l.isCovered (scan source) = false →
      pastWidget? ((l :: ls).map (Line.blanked (scan source))) = pastWidget? (l :: ls)

theorem declared?_blanked {metadata : Bool} (bare : l.isCovered ds = false)
    (h : declared? metadata l ls = none) :
    declared? false l (ls.map (Line.blanked ds)) = none := by
  rw [declared?_eq_none_iff] at h ⊢
  refine h.imp_right fun ⟨unended, _⟩ => ⟨fun imports => ?_, nofun⟩
  have blanked : importEnd? ((l :: ls).map (Line.blanked ds)) = none :=
    importEnd?_blanked (unended imports)
  rwa [List.map_cons, Line.blanked_of_bare bare] at blanked

/-- What begins at a line that is not covered ends where it did. -/
theorem past_blanked {metadata : Bool} {resume : Nat} (keeps : KeepsWidgets source)
    (walk : Walk source metadata resume (l :: ls)) (reached : resume ≤ l.start)
    (filled : Text.isBlank l.text = false) (bare : declared? metadata l ls = none) :
    past l (ls.map (Line.blanked (scan source))) = past l ls := by
  have passed : ∀ m ∈ ls, m.start < past l ls → m.isCovered (scan source) = false :=
    fun m mem => walk.not_isCovered_of_lt_past reached filled bare mem
  have l_bare : l.isCovered (scan source) = false := by
    rw [walk.isCovered_eq reached filled, bare, Option.isSome_none]
  unfold past at passed ⊢
  split
  · rename_i fence opened
    simp only [opened] at passed
    exact Fence.skip_blanked walk.suffix passed
  · by_cases widget : isWidgetStart l.text = true
    · have kept := keeps l ls walk.suffix widget l_bare
      rw [List.map_cons, Line.blanked_of_bare l_bare] at kept
      rw [kept]
    · rw [if_neg widget, if_neg widget]

/-- Where the scan of a source has come, a scan of the stripped text finds nothing, if lines that
only the former one passes over are covered. -/
theorem scanFrom_blanked {metadata : Bool} {resume resume' : Nat} (keeps : KeepsWidgets source)
    (walk : Walk source metadata resume ls) (le : resume' ≤ resume)
    (between : ∀ l ∈ ls, resume' ≤ l.start → l.start < resume →
      l.isCovered (scan source) = true) :
    scanFrom false resume' (ls.map (Line.blanked (scan source))) = [] := by
  induction ls generalizing metadata resume resume' with
  | nil => rfl
  | cons l ls ih =>
    rw [List.forall_mem_cons] at between
    rw [List.map_cons]
    by_cases passed : l.start < resume ∨ Text.isBlank l.text = true
    · have passed' : (l.blanked (scan source)).start < resume' ∨
          Text.isBlank (l.blanked (scan source)).text = true := by
        rw [Line.start_blanked]
        by_cases before : l.start < resume'
        · exact .inl before
        · refine .inr ?_
          by_cases covered : l.isCovered (scan source) = true
          · exact Line.isBlank_blanked covered
          · rw [Line.blanked_of_bare (Bool.not_eq_true _ ▸ covered)]
            rcases passed with early | blank
            · exact absurd (between.1 (Nat.le_of_not_lt before) early) covered
            · exact blank
      rw [scanFrom_of_passed passed']
      exact ih (walk.passed passed) le between.2
    · rw [not_or, Nat.not_lt, Bool.not_eq_true] at passed
      obtain ⟨reached, filled⟩ := passed
      have covered_iff := walk.isCovered_eq reached filled
      cases found : declared? metadata l ls with
      | some made =>
        obtain ⟨walk', covered, lt, covering⟩ := walk.declared reached filled found
        have blank := Line.isBlank_blanked covered
        rw [scanFrom_of_passed (.inr blank)]
        exact ih walk' (by omega) fun m mem _ => covering m mem
      | none =>
        have bare : l.isCovered (scan source) = false := by
          rw [covered_iff, found, Option.isSome_none]
        rw [Line.blanked_of_bare bare, scanFrom_of_bare (Nat.le_trans le reached) filled
          (declared?_blanked bare found), past_blanked keeps walk reached filled found]
        refine ih (walk.bare reached filled found) (Nat.le_refl _) fun m mem ge lt => ?_
        omega

/-! ### Exported constants -/

/-- Whether the first of some lines that is not blank starts an exported constant. -/
def exportsFirst : List Line → Bool
  | [] => false
  | l :: ls =>
    if Text.isBlank l.text then exportsFirst ls
    else isExport l.text && (exportEnd? (l :: ls)).isSome

theorem declared?_true_eq_none_iff :
    declared? true l ls = none ↔
      (isExport l.text && (exportEnd? (l :: ls)).isSome) = false ∧ declared? false l ls = none := by
  rw [declared?_eq_none_iff, declared?_eq_none_iff]
  by_cases exporting : isExport l.text = true
  · simp [exporting, open?_of_isExport exporting, and_comm]
  · simp [exporting]

/-- What a scan finds only where metadata may come. -/
theorem scanFrom_true_eq_nil_iff :
    scanFrom true 0 ls = [] ↔ exportsFirst ls = false ∧ scanFrom false 0 ls = [] := by
  induction ls with
  | nil => exact ⟨fun _ => ⟨rfl, rfl⟩, fun _ => rfl⟩
  | cons l ls ih =>
    rw [exportsFirst]
    by_cases blank : Text.isBlank l.text = true
    · rw [scanFrom_of_passed (.inr blank), scanFrom_of_passed (.inr blank), if_pos blank]
      exact ih
    · rw [if_neg blank]
      rw [Bool.not_eq_true] at blank
      have step : declared? true l ls = none ↔
          (isExport l.text && (exportEnd? (l :: ls)).isSome) = false ∧
            declared? false l ls = none := declared?_true_eq_none_iff
      cases found : declared? true l ls with
      | none =>
        have bare := step.1 found
        rw [scanFrom_of_bare (Nat.zero_le _) blank found,
          scanFrom_of_bare (Nat.zero_le _) blank bare.2]
        exact ⟨fun h => ⟨bare.1, h⟩, fun h => h.2⟩
      | some made =>
        rw [scanFrom_of_declared (Nat.zero_le _) blank found]
        refine ⟨nofun, ?_⟩
        rintro ⟨other, nothing⟩
        cases found' : declared? false l ls with
        | none =>
          rw [step.2 ⟨other, found'⟩] at found
          cases found
        | some made' =>
          rw [scanFrom_of_declared (Nat.zero_le _) blank found'] at nothing
          cases nothing

/-- In stripped text there is nothing to strip, unless an exported constant comes first. -/
theorem scan_strip_eq_nil_iff (keeps : KeepsWidgets source) :
    scan (strip source) = [] ↔ exportsFirst (Line.split (strip source)) = false := by
  obtain ⟨metadata, resume, walk, covered⟩ := exists_walk source
  have nothing := scanFrom_blanked keeps walk (Nat.zero_le _) fun l mem _ => covered l mem
  rw [scan_strip, scanFrom_true_eq_nil_iff, nothing, split_strip]
  exact ⟨fun h => h.1, fun h => ⟨h, rfl⟩⟩

/-- Widgets are kept if no declaration comes after one. -/
theorem keepsWidgets_of_early
    (early : ∀ l ∈ Line.split source, isWidgetStart l.text = true →
      l.isCovered (scan source) = false → ∀ d ∈ scan source, d.span.start ≤ l.start) :
    KeepsWidgets source := by
  intro l ls suffix widget bare
  rw [Line.map_blanked_of_bare]
  intro m mem
  have l_mem : l ∈ Line.split source := suffix.subset List.mem_cons_self
  exact Line.bare_of_early suffix bare (early l l_mem widget bare) mem

end Declaration

namespace Document

variable {formats : Formats}

/-- A text without declarations is its blocks. -/
theorem parse_of_scan_eq_nil (nothing : scan source = []) :
    parse formats source = (Block.parse maxNesting [] (Region.root source)).map fun blocks =>
      { metadata := none, imports := [], blocks } := by
  have unread : metadataOf formats source [] = .ok none := rfl
  unfold parse
  dsimp only
  rw [nothing, unread]
  cases Block.parse maxNesting [] (Region.root source) with
  | error h => rfl
  | ok blocks => rfl

/-- Where nothing is declared, it is not metadata that cannot be read. -/
theorem ne_invalidMetadata {e : SyntaxError} (nothing : scan source = [])
    (halted : parse formats source = .error (.mistake e)) (message : String) :
    e.fault ≠ .invalidMetadata message := by
  have outcome := parse_outcome formats source
  rw [halted] at outcome
  rcases outcome with points | ⟨pos, other, -, -, declared⟩
  · intro fault
    obtain ⟨w, marks, -⟩ := points.marks
    rw [fault] at marks
    exact marks
  · exact absurd nothing declared

end Document
end Folio
