import Folio.Proofs.Markup.Guarded
import Folio.Proofs.Markup.LooseBlocks
import Folio.Proofs.Markup.StrippedBlocks

/-!
# Text that declarations leave alone

A scan for declarations strides over fenced code and widgets where it comes to them, and a reading
takes the same lines there. So no declaration touches what is guarded in a block, with two
exceptions. A paragraph or a list may run into a declaration that follows one of its lines directly:
`Block.RunsInto`. And what a scan strides over from a line of a paragraph or a list may reach past
the next block: `Declaration.KeepsStep` says that it does not. Main statements:

* `Block.blockAt_settles`: the lines that other blocks take are not covered;
* `Block.blocksFrom_isProtected` and `Document.isProtected_of_mem_guarded`: what is guarded in a
  block that runs into no declaration is protected.
-/

namespace Folio

open Declaration (scan Walk strides)

variable {source : Text} {l m : Line} {ls chunk after : List Line}

namespace Block

variable {inner : Inner} {metadata : Bool} {resume next : Nat}

/-! ### Blocks that a scan goes along with -/

/-- The lines that a block takes are not covered, and a scan goes on after them. -/
structure Clears (source : Text) (ls : List Line) (next : Nat) : Prop where
  bare : ∀ m ∈ ls, m.start < next → m.isCovered (scan source) = false
  leaves : Leaves source ls next

theorem clears_of_lines (lines : ls = chunk ++ after) (later : ∀ m ∈ after, next ≤ m.start)
    (bare : ∀ m ∈ chunk, m.isCovered (scan source) = false) (leaves : Leaves source ls next) :
    Clears source ls next where
  bare := by
    intro m mem lt
    rw [lines] at mem
    rcases List.mem_append.1 mem with among | beyond
    · exact bare m among
    · exact absurd (later m beyond) (Nat.not_le_of_lt lt)
  leaves := leaves

/-- A block is no paragraph and no list and clears its lines, or it takes a run of lines. -/
def Settles (source : Text) (l : Line) (ls : List Line) (taken : Taken) : Prop :=
  taken.1.isLoose = false ∧ Clears source ls taken.2 ∨
    ∃ chunk after, IsLooseRun (Region.root source) l ls taken chunk after

section Clearing

variable (walk : Walk source metadata resume (l :: ls)) (reached : resume ≤ l.start)

include walk reached

/-- Lines that a scan goes through one by one. -/
theorem clears_of_plain (lines : ls = chunk ++ after) (plain : ∀ m ∈ l :: chunk, Plain source m) :
    Clears source ls ((l :: chunk).getLast?.getD l).next := by
  obtain ⟨bare, leaves⟩ := bare_and_leaves walk reached lines plain
  have later := (Line.next_of_getLast? (lines ▸ walk.suffix)).2
  exact clears_of_lines lines later (List.forall_mem_cons.1 bare).2 leaves

theorem clears_line (plain : Plain source l) : Clears source ls l.next := by
  have lines : ls = [] ++ ls := rfl
  have one : ∀ m ∈ [l], Plain source m := List.forall_mem_singleton.2 plain
  exact clears_of_plain walk reached lines one

theorem quoted_clears (kind : isQuoted l = true) :
    Outcome (fun _ => True) (Settles source l ls) (quoted inner (Region.root source) l ls) := by
  have lines : ls = ls.takeWhile isQuoted ++ ls.dropWhile isQuoted :=
    List.takeWhile_append_dropWhile.symm
  have plain : ∀ m ∈ l :: ls.takeWhile isQuoted, Plain source m := List.forall_mem_cons.2
    ⟨plain_of_isQuoted kind, fun m mem => plain_of_isQuoted (List.mem_takeWhile_imp mem)⟩
  rw [quoted_eq _ ls kind]
  refine Outcome.bind_any fun _ => Outcome.bind_any fun _ => .inl ⟨rfl, ?_⟩
  exact clears_of_plain walk reached lines plain

variable (bare : l.isCovered (scan source) = false)

include bare

theorem fenced_clears {fence : Fence} (opened : Fence.open? l.text = some fence)
    (filled : Text.isBlank l.text = false) :
    Settles source l ls (fenced (Region.root source) fence l ls) := by
  obtain ⟨after, lines, bare', -, -⟩ := exists_fence_lines walk reached opened filled bare
  have later := (Line.next_of_getLast? (lines ▸ walk.suffix)).2
  have leaves := (fenced_strip walk reached opened filled bare).2
  rw [fenced_eq] at leaves ⊢
  exact .inl ⟨rfl, clears_of_lines lines later bare' leaves⟩

theorem widgetAt_clears (kind : isWidgetStart l.text = true) :
    Outcome (fun _ => True) (Settles source l ls) (widgetAt inner (Region.root source) l ls) := by
  have suffix := walk.suffix
  rw [widgetAt_eq]
  cases opened : tagAt l ls with
  | error e => trivial
  | ok tag =>
    dsimp only
    cases ended : widgetStop? tag l ls with
    | none =>
      rw [bodyOf_unclosed ended]
      trivial
    | some stop =>
      refine (bodyOf_stop inner _ _ ended).bind ?_
      rintro ⟨children, _⟩ rfl
      dsimp only
      split
      · obtain ⟨chunk, after, rfl, chunk_bare, before, -, le, walk'⟩ :=
          exists_widget_lines walk reached kind bare opened ended
        have later := (Line.next_of_getLast? suffix).2
        have later' : ∀ m ∈ after, _ ≤ m.start := fun m mem => Nat.le_trans le (later m mem)
        exact .inl ⟨rfl, clears_of_lines rfl later' chunk_bare
          ⟨chunk, after, rfl, before, later', _, _, walk', later⟩⟩
      · split
        · exact (paragraphAt_isLooseRun suffix (isBlank_of_isWidgetStart kind)).mono
            (fun _ => id) fun _ => .inr
        · trivial

/-- A block that is no paragraph and no list clears the lines that it takes. -/
theorem blockAt_settles (filled : Text.isBlank l.text = false) :
    Outcome (fun _ => True) (Settles source l ls)
      (blockAt inner (Region.root source) l ls) := by
  have suffix := walk.suffix
  have fits := opening_fits l.text
  rw [blockAt_eq]
  -- a line that begins neither fenced code nor a widget is one that a scan goes through
  have plain : (∀ fence, opening l.text ≠ .fence fence) → opening l.text ≠ .widget →
      Plain source l := by
    intro no_fence no_widget
    refine ⟨filled, ?_, ?_, fun covered => ?_⟩
    · cases opened : Fence.open? l.text with
      | none => rfl
      | some fence =>
        refine absurd ?_ (no_fence fence)
        rw [opening, opened]
    · exact Bool.eq_false_iff.2 fun widget => no_widget (opening_of_isWidgetStart widget)
    · rw [bare] at covered
      cases covered
  cases kind : opening l.text with
  | fence fence =>
    rw [kind] at fits
    exact fenced_clears walk reached bare fits filled
  | heading mark =>
    refine Outcome.bind_any fun _ => Outcome.bind_any fun _ => .inl ⟨rfl, ?_⟩
    exact clears_line walk reached (plain (by simp [kind]) (by simp [kind]))
  | thematicBreak =>
    exact .inl ⟨rfl, clears_line walk reached (plain (by simp [kind]) (by simp [kind]))⟩
  | quote =>
    rw [kind] at fits
    exact quoted_clears walk reached fits
  | list mark =>
    rw [kind] at fits
    exact (listed_isLooseRun suffix fits.1 fits.2).mono (fun _ => id) fun _ => .inr
  | widget =>
    rw [kind] at fits
    exact widgetAt_clears walk reached bare fits
  | closingTag name => trivial
  | paragraph =>
    exact (paragraphAt_isLooseRun suffix filled).mono (fun _ => id) fun _ => .inr

end Clearing

/-- A block starts at its first line. -/
theorem blockAt_start {r : Region} (l : Line) (ls : List Line) :
    Outcome (fun _ => True)
      (fun taken => taken.1.span.start = r.toSource l.start ∨
        taken.1.span.start = r.toSource (l.start + indentation l.text))
      (blockAt inner r l ls) := by
  have paragraph : Outcome (fun _ => True)
      (fun taken => taken.1.span.start = r.toSource l.start) (paragraphAt r l ls) :=
    Outcome.bind_any fun _ => Outcome.bind_any fun _ => rfl
  rw [blockAt_eq]
  cases opening l.text with
  | fence fence => exact .inl rfl
  | heading mark => exact Outcome.bind_any fun _ => Outcome.bind_any fun _ => .inl rfl
  | thematicBreak => exact .inl rfl
  | quote => exact Outcome.bind_any fun _ => Outcome.bind_any fun _ => .inl rfl
  | list mark => exact Outcome.bind_any fun _ => .inl rfl
  | widget =>
    dsimp only
    rw [widgetAt_eq]
    cases tagAt l ls with
    | error e => trivial
    | ok tag =>
      refine Outcome.bind_any fun _ => ?_
      dsimp only
      split
      · exact .inr rfl
      · split
        · exact paragraph.mono (fun _ => id) fun _ => .inl
        · trivial
  | closingTag name => trivial
  | paragraph => exact paragraph.mono (fun _ => id) fun _ => .inl

end Block

/-! ### Strides over blocks -/

theorem Line.mem_takeWhile_start {n : Nat} (suffix : ls <:+ Line.split source) (mem : m ∈ ls)
    (lt : m.start < n) : m ∈ ls.takeWhile (·.start < n) := by
  induction ls with
  | nil => cases mem
  | cons l ls ih =>
    have first : l.start < n := Nat.lt_of_le_of_lt (start_le_of_mem suffix mem) lt
    rw [List.takeWhile_cons_of_pos (by simpa using first)]
    rcases List.mem_cons.1 mem with rfl | later
    · exact List.mem_cons_self
    · exact List.mem_cons_of_mem l (ih ((List.suffix_cons l ls).trans suffix) later)

theorem Line.le_start_of_mem_dropWhile {n : Nat} (suffix : ls <:+ Line.split source)
    (mem : m ∈ ls.dropWhile (·.start < n)) : n ≤ m.start := by
  induction ls with
  | nil => cases mem
  | cons l ls ih =>
    by_cases first : l.start < n
    · rw [List.dropWhile_cons_of_pos (by simpa using first)] at mem
      exact ih ((List.suffix_cons l ls).trans suffix) mem
    · rw [List.dropWhile_cons_of_neg (by simpa using first)] at mem
      exact Nat.le_trans (Nat.le_of_not_lt first) (start_le_of_mem suffix mem)

namespace Declaration

variable {metadata : Bool} {resume : Nat}

/-- The lines that a scan strides over end with the stride. -/
theorem stride_stop (suffix : l :: ls <:+ Line.split source) (mem : m ∈ ls) :
    (m.start < past l ls → m.stop ≤ (stride l ls).stop) ∧
      (past l ls ≤ m.start → (stride l ls).stop ≤ m.start) := by
  have lines : ls = ls.takeWhile (·.start < past l ls) ++ ls.dropWhile (·.start < past l ls) :=
    List.takeWhile_append_dropWhile.symm
  have suffix' : ls <:+ Line.split source := (List.suffix_cons l ls).trans suffix
  obtain ⟨before, later⟩ := Line.next_of_getLast? (lines ▸ suffix)
  refine ⟨fun lt => ?_, fun ge => ?_⟩
  · have among := Line.mem_takeWhile_start suffix' mem lt
    exact (before m (List.mem_cons_of_mem l among)).2
  · refine later m ?_
    rw [lines] at mem
    refine (List.mem_append.1 mem).resolve_left fun among => ?_
    have lt : m.start < past l ls := by simpa using List.mem_takeWhile_imp among
    exact absurd lt (Nat.not_lt_of_le ge)

/-- What a scan passes over is blank or covered. -/
def Settled (source : Text) (resume : Nat) (ls : List Line) : Prop :=
  ∀ m ∈ ls, m.start < resume → m.isCovered (scan source) = true ∨ Text.isBlank m.text = true

/-- What a scan passes over is the rest of a stride from one of some lines. -/
def StridesOver (source : Text) (from_ : List Line) (resume : Nat) (ls : List Line) : Prop :=
  ∃ p ∈ strides source,
    (∃ l ∈ from_, Text.isBlank l.text = false ∧ p.start = l.start + indentation l.text) ∧
    ∀ m ∈ ls, (m.start < resume → m.stop ≤ p.stop ∧ m.isCovered (scan source) = false) ∧
      (resume ≤ m.start → p.stop ≤ m.start)

/-- A scan goes on after some lines, whatever they are. -/
theorem exists_walk_after {from_ : List Line} (walk : Walk source metadata resume (chunk ++ after))
    (among : chunk ⊆ from_)
    (state : Settled source resume (chunk ++ after) ∨
      StridesOver source from_ resume (chunk ++ after)) :
    ∃ metadata' resume', Walk source metadata' resume' after ∧
      (Settled source resume' after ∨ StridesOver source from_ resume' after) := by
  induction chunk generalizing metadata resume with
  | nil => exact ⟨metadata, resume, walk, state⟩
  | cons c chunk ih =>
    have among' : chunk ⊆ from_ := (List.cons_subset.1 among).2
    rw [List.cons_append] at walk state
    by_cases passed : c.start < resume ∨ Text.isBlank c.text = true
    · refine ih (walk.passed passed) among' (state.imp (fun settled => ?_) ?_)
      · exact fun m mem => settled m (List.mem_cons_of_mem c mem)
      · rintro ⟨p, p_mem, first, rest⟩
        exact ⟨p, p_mem, first, fun m mem => rest m (List.mem_cons_of_mem c mem)⟩
    · rw [not_or, Nat.not_lt, Bool.not_eq_true] at passed
      obtain ⟨reached, filled⟩ := passed
      cases found : declared? metadata c (chunk ++ after) with
      | some made =>
        obtain ⟨walk', -, -, covering⟩ := walk.declared reached filled found
        exact ih walk' among' (.inl fun m mem lt => .inl (covering m mem lt))
      | none =>
        refine ih (walk.bare reached filled found) among' (.inr ⟨stride c (chunk ++ after), ?_, ?_, ?_⟩)
        · refine walk.strides _ ?_
          rw [stridesFrom_of_bare reached filled found]
          exact List.mem_cons_self
        · exact ⟨c, among List.mem_cons_self, filled, rfl⟩
        · intro m mem
          have stop := stride_stop walk.suffix mem
          exact ⟨fun lt => ⟨stop.1 lt, walk.not_isCovered_of_lt_past reached filled found mem lt⟩,
            stop.2⟩

/-- From a paragraph or a list, a scan does not stride over the start of the next block if a
declaration comes after that. -/
def KeepsStep (source : Text) (b b' : Block) : Prop :=
  b.isLoose = true → ∀ p ∈ strides source, b.span.start ≤ p.start → p.start < b'.span.start →
    (∃ d ∈ scan source, p.stop ≤ d.span.start) → p.stop ≤ b'.span.start

instance (source : Text) (b b' : Block) : Decidable (KeepsStep source b b') :=
  inferInstanceAs (Decidable (_ → ∀ p ∈ strides source, _ → _ → _ → _))

theorem indentation_of_isImport {line : Text} (h : isImport line = true) :
    indentation line = 0 ∧ ListMark.ofLine? line = none := by
  obtain ⟨rest, rfl⟩ := exists_of_isImport h
  exact ⟨rfl, rfl⟩

/-- A declaration that starts after a line that a scan reaches and finds bare is an import. -/
theorem isImport_of_start {d : Declaration} (walk : Walk source metadata resume (l :: ls))
    (reached : resume ≤ l.start) (filled : Text.isBlank l.text = false)
    (bare : l.isCovered (scan source) = false) (mem : d ∈ scan source) (among : m ∈ ls)
    (start : d.span.start = m.start) : isImport m.text = true := by
  obtain ⟨first, last, spans⟩ := exists_lines mem
  have ordered : d.span.start ≤ d.span.stop := (isCut_of_mem_scan mem).ordered
  have covered : d.covers m.start = true := by simp [covers, ← start, ordered]
  have found := walk.mem_scanFrom reached (List.mem_cons_of_mem l among) mem covered
  rw [scanFrom_of_bare reached filled (walk.undeclared reached filled bare)] at found
  have suffix : ls <:+ Line.split source := (List.suffix_cons l ls).trans walk.suffix
  obtain ⟨m', among', -, start', imports | ⟨never, -⟩⟩ := exists_start suffix found
  · obtain rfl : m = m' := by
      rcases Line.eq_or_lt (suffix.subset among) (suffix.subset among') with same | lt | lt
      · exact same
      · have := m.le_stop
        omega
      · have := m'.le_stop
        omega
    exact imports
  · cases never

end Declaration

/-! ### Protected blocks -/

namespace Region

theorem sizeAt_pos (s : Text) (n : Nat) : 0 < sizeAt s n := by
  induction s generalizing n with
  | nil => exact Nat.one_pos
  | cons c s ih =>
    rw [sizeAt]
    split
    · exact c.utf8Size_pos
    · exact ih _

/-- The span of a range reaches beyond each offset in it. -/
theorem lt_stop_span_root {start stop n : Nat} (ge : start ≤ n) (lt : n < stop)
    (le : n ≤ Text.bytes source) : n < ((root source).span start stop).stop := by
  have size := sizeAt_pos (root source).text (stop - 1)
  have past : n ≤ (root source).toSource (stop - 1) := by
    rw [toSource_root]
    omega
  rw [span]
  dsimp only
  rw [if_pos (by omega)]
  omega

end Region

namespace Block

variable {inner : Inner} {metadata : Bool} {resume : Nat}

/-- A paragraph or a list runs into a declaration, which follows one of its lines directly. -/
structure RunsInto (source : Text) (b : Block) (d : Declaration) : Prop where
  loose : b.isLoose = true
  stop : d.span.start < b.span.stop
  follows : ∃ l ∈ Line.split source, b.span.start ≤ l.start ∧ l.next = d.span.start ∧
    Text.isBlank l.text = false

theorem start_le_bytes (mem : l ∈ Line.split source) : l.start ≤ Text.bytes source :=
  Text.le_bytes_of_isBoundary (Line.holds mem).isBoundary

theorem toSource_start (mem : l ∈ Line.split source) :
    (Region.root source).toSource l.start = l.start := by
  rw [Region.toSource_root, Nat.min_eq_left (start_le_bytes mem)]

/-- What is guarded in a block is protected if no declaration starts at one of its lines. -/
theorem isProtected_of_lands {taken : Taken} (suffix : l :: ls <:+ Line.split source)
    (bare : l.isCovered (scan source) = false)
    (lands : Lands source (Region.root source) l.start taken)
    (avoided : ∀ d ∈ scan source, ∀ m ∈ ls, d.span.start = m.start → taken.2 ≤ m.start) :
    ∀ s ∈ taken.1.guarded, s.IsProtected source := by
  obtain ⟨n, le, -, lies⟩ := lands
  have mem : l ∈ Line.split source := suffix.subset List.mem_cons_self
  rw [toSource_start mem, Region.toSource_root] at lies
  intro s s_mem
  refine (Block.Lies.within_of_mem_guarded _ lies s s_mem).isProtected fun d d_mem => ?_
  obtain ⟨first, last, spans⟩ := Declaration.exists_lines d_mem
  have start : d.span.start = first.start := by rw [spans.span]
  have uncovered : d.covers l.start = false :=
    Bool.not_eq_true _ ▸ List.any_eq_false.1 bare d d_mem
  rw [Declaration.covers, Bool.and_eq_false_iff, decide_eq_false_iff_not, decide_eq_false_iff_not]
    at uncovered
  obtain ⟨before, lines⟩ := suffix
  have among : first ∈ before ++ l :: ls := lines ▸ spans.first_mem
  have whole : before ++ l :: ls <:+ Line.split source := lines ▸ List.suffix_refl _
  rcases List.mem_append.1 among with earlier | among
  · have lt := Line.start_lt_of_append whole earlier
    omega
  · rcases List.mem_cons.1 among with rfl | later
    · have ordered : d.span.start ≤ d.span.stop := (Declaration.isCut_of_mem_scan d_mem).ordered
      omega
    · have := avoided d d_mem first later start
      omega

/-- Where a line with content is not covered, there is a next block, and it does not start after
that line. -/
theorem exists_next_block {bs : List Block} (suffix : ls <:+ Line.split source)
    (skipped : ∀ k ∈ ls, k.start < resume → k.isCovered (scan source) = true)
    (mem : m ∈ ls) (bare : m.isCovered (scan source) = false) (filled : Text.isBlank m.text = false)
    (read : blocksFrom inner (Region.root source) (scan source) resume ls = .ok bs) :
    ∃ b bs', bs = b :: bs' ∧ ∃ k ∈ ls, k.start ≤ m.start ∧ k.start ≤ b.span.start ∧
      b.span.start < k.stop := by
  induction ls generalizing resume with
  | nil => cases mem
  | cons l ls ih =>
    have suffix' : ls <:+ Line.split source := (List.suffix_cons l ls).trans suffix
    by_cases blank : l.isCovered (scan source) = true ∨ Text.isBlank l.text = true
    · have later : m ∈ ls := by
        refine (List.mem_cons.1 mem).resolve_left ?_
        rintro rfl
        rcases blank with covered | blank
        · rw [bare] at covered
          cases covered
        · rw [filled] at blank
          cases blank
      obtain ⟨resume', same, skipped'⟩ :=
        exists_resume_of_blank blank inner (Region.root source) suffix skipped
      rw [same] at read
      obtain ⟨b, bs', eq, k, k_mem, rest⟩ := ih suffix' skipped' later read
      exact ⟨b, bs', eq, k, List.mem_cons_of_mem l k_mem, rest⟩
    · have reached : resume ≤ l.start := by
        refine Nat.le_of_not_lt fun lt => ?_
        exact blank (.inl (skipped l List.mem_cons_self lt))
      rw [not_or, Bool.not_eq_true, Bool.not_eq_true] at blank
      obtain ⟨taken, bs', block, -, rfl⟩ := exists_of_blocksFrom_cons reached blank.1 blank.2 read
      have l_mem : l ∈ Line.split source := suffix.subset List.mem_cons_self
      have le := start_le_bytes l_mem
      have lt := indentation_lt_bytes blank.2
      refine ⟨taken.1, bs', rfl, l, List.mem_cons_self, Line.start_le_of_mem suffix mem, ?_⟩
      rw [Line.stop]
      rcases (blockAt_start l ls).of_ok block with eq | eq <;> rw [eq, Region.toSource_root] <;> omega

/-- A scan goes along with a reading that has come to some lines, or no declaration is among them. -/
def Along (source : Text) (ls : List Line) : Prop :=
  (∃ metadata scanned, Walk source metadata scanned ls ∧ Declaration.Settled source scanned ls) ∨
    ∀ m ∈ ls, m.isCovered (scan source) = false

/-- A scan goes along with a reading after a paragraph or a list, if it keeps step. -/
theorem along_of_isLooseRun {taken : Taken} {bs : List Block}
    (walk : Walk source metadata resume (l :: ls))
    (settled : Declaration.Settled source resume (l :: ls))
    (run : IsLooseRun (Region.root source) l ls taken chunk after)
    (read : blocksFrom inner (Region.root source) (scan source) taken.2 after = .ok bs)
    (steps : (taken.1 :: bs).IsChain (Declaration.KeepsStep source)) : Along source after := by
  obtain ⟨loose, stop, span, run⟩ := run
  have suffix := walk.suffix
  rw [run.lines] at walk settled suffix
  have l_mem : l ∈ Line.split source := suffix.subset List.mem_cons_self
  obtain ⟨metadata', resume', walk', state⟩ :=
    Declaration.exists_walk_after walk (List.Subset.refl _) (.inl settled)
  rcases state with settled' | ⟨p, p_mem, ⟨x, x_mem, x_filled, p_start⟩, past⟩
  · exact .inl ⟨metadata', resume', walk', settled'⟩
  · by_cases blank : ∀ m ∈ after, m.start < resume' → Text.isBlank m.text = true
    · exact .inl ⟨metadata', resume', walk', fun m mem lt => .inr (blank m mem lt)⟩
    · simp only [not_forall, Bool.not_eq_true] at blank
      obtain ⟨m, mem, lt, filled⟩ := blank
      have m_bare := ((past m mem).1 lt).2
      obtain ⟨b', bs', rfl, k, k_mem, k_le, ge, lt'⟩ := exists_next_block walk'.suffix
        (fun k k_mem lt => absurd (run.later k k_mem) (Nat.not_le_of_lt lt)) mem m_bare filled read
      -- the stride starts in the paragraph or list and reaches past the start of the next block
      have within : b'.span.start < p.stop :=
        Nat.lt_of_lt_of_le lt' ((past k k_mem).1 (Nat.lt_of_le_of_lt k_le lt)).1
      have starts : taken.1.span.start ≤ p.start := by
        have le := Line.start_le_of_mem suffix (List.mem_append_left after x_mem)
        have eq : taken.1.span.start = l.start := by
          rw [span]
          exact toSource_start l_mem
        omega
      have before : p.start < b'.span.start := by
        have x_lt := indentation_lt_bytes x_filled
        have x_stop := x.stop_le_next
        have x_next : x.next ≤ k.start := by
          obtain ⟨front, back, chunk_eq⟩ := List.append_of_mem x_mem
          rw [chunk_eq, List.append_assoc, List.cons_append] at suffix
          have suffix' := (List.suffix_append front _).trans suffix
          exact (Line.whole_of_suffix suffix').2.2 k (List.mem_append_right back k_mem)
        rw [Line.stop] at x_stop
        omega
      have keeps := (List.isChain_cons_cons.1 steps).1 loose p p_mem starts before
      refine .inr fun y y_mem => Bool.eq_false_iff.2 fun covered => ?_
      obtain ⟨d, d_mem, covers⟩ := List.any_eq_true.1 covered
      have early : d.span.start < p.stop := by
        refine Nat.lt_of_not_le fun late => ?_
        exact absurd (keeps ⟨d, d_mem, late⟩) (Nat.not_le_of_lt within)
      rcases walk'.ahead d d_mem with found | passed
      · obtain ⟨f, f_mem, reached, start, -⟩ := Declaration.exists_start walk'.suffix found
        have late := (past f f_mem).2 reached
        omega
      · have bare := ((past y y_mem).1 (passed y y_mem covers)).2
        rw [covered] at bare
        cases bare

/-- A paragraph or a list runs into each declaration that starts at one of its lines. -/
theorem runsInto_of_isLooseRun {taken : Taken} {d : Declaration}
    (walk : Walk source metadata resume (l :: ls)) (reached : resume ≤ l.start)
    (filled : Text.isBlank l.text = false) (bare : l.isCovered (scan source) = false)
    (run : IsLooseRun (Region.root source) l ls taken chunk after) (d_mem : d ∈ scan source)
    (mem : m ∈ ls) (start : d.span.start = m.start) (lt : m.start < taken.2) :
    taken.1.RunsInto source d := by
  obtain ⟨loose, stop, span, run⟩ := run
  have suffix := walk.suffix
  have l_mem : l ∈ Line.split source := suffix.subset List.mem_cons_self
  have m_mem : m ∈ Line.split source := suffix.subset (List.mem_cons_of_mem l mem)
  have imports := Declaration.isImport_of_start walk reached filled bare d_mem mem start
  obtain ⟨margin, unmarked⟩ := Declaration.indentation_of_isImport imports
  have m_filled : Text.isBlank m.text = false := by
    obtain ⟨rest, text⟩ := Declaration.exists_of_isImport imports
    rw [text]
    rfl
  have among : m ∈ chunk := by
    have lines : ls = chunk ++ after := (List.cons.inj run.lines).2
    rw [lines] at mem
    refine (List.mem_append.1 mem).resolve_right fun beyond => ?_
    exact absurd (run.later m beyond) (Nat.not_le_of_lt lt)
  have start_eq : taken.1.span.start = l.start := by
    rw [span]
    exact toSource_start l_mem
  obtain ⟨k, k_mem, le, next, k_filled⟩ := run.exists_before suffix among m_filled margin unmarked
  refine ⟨loose, ?_, k, k_mem, start_eq ▸ le, start ▸ next, k_filled⟩
  rw [start, span]
  have within := run.filled m (List.mem_cons_of_mem l among) m_filled
  exact Region.lt_stop_span_root (Line.start_le_of_mem suffix (List.mem_cons_of_mem l mem)) within
    (start_le_bytes m_mem)

/-- A scan goes along with a reading after a line that is blank in the stripped text. -/
theorem Along.of_blank (along : Along source (l :: ls))
    (blank : l.isCovered (scan source) = true ∨ Text.isBlank l.text = true) : Along source ls := by
  rcases along with ⟨metadata, scanned, walk, settled⟩ | bare
  · exact .inl (exists_walk_of_blank blank walk settled)
  · exact .inr (List.forall_mem_cons.1 bare).2

/-- A declaration covers the line that it starts at. -/
theorem isCovered_of_start {d : Declaration} {m : Line} (d_mem : d ∈ scan source)
    (start : d.span.start = m.start) : m.isCovered (scan source) = true := by
  have ordered : d.span.start ≤ d.span.stop := (Declaration.isCut_of_mem_scan d_mem).ordered
  refine List.any_eq_true.2 ⟨d, d_mem, ?_⟩
  simp [Declaration.covers, ← start, ordered]

/-- What is guarded in the block at a line is protected if the block runs into no declaration, and a
scan goes along with the reading of the lines after it. -/
theorem blockAt_isProtected {taken : Taken} {bs : List Block} (reads : Reads source inner)
    (suffix : l :: ls <:+ Line.split source) (along : Along source (l :: ls))
    (filled : Text.isBlank l.text = false) (bare : l.isCovered (scan source) = false)
    (taken_eq : blockAt inner (Region.root source) l ls = .ok taken)
    (read : blocksFrom inner (Region.root source) (scan source) taken.2 ls = .ok bs)
    (steps : (taken.1 :: bs).IsChain (Declaration.KeepsStep source)) :
    ((∀ d ∈ scan source, ¬ taken.1.RunsInto source d) →
        ∀ s ∈ taken.1.guarded, s.IsProtected source) ∧
      ∃ chunk after, ls = chunk ++ after ∧ (∀ m ∈ chunk, m.start < taken.2) ∧
        (∀ m ∈ after, taken.2 ≤ m.start) ∧ Along source after := by
  have lines : l :: ls <:+ (Region.root source).lines := by
    rwa [Region.lines, Region.text_root]
  have lands := blockAt_outcome (Region.faithful_root source) reads lines filled
  rw [taken_eq] at lands
  have protects := isProtected_of_lands suffix bare lands
  rcases along with ⟨metadata, scanned, walk, settled⟩ | all_bare
  · have reached : scanned ≤ l.start := by
      refine Nat.le_of_not_lt fun lt => ?_
      rcases settled l List.mem_cons_self lt with other | other
      · rw [bare] at other
        cases other
      · rw [filled] at other
        cases other
    have settles : Outcome _ _ (blockAt inner (Region.root source) l ls) :=
      blockAt_settles walk reached bare filled
    rw [taken_eq] at settles
    rcases settles with ⟨-, clears⟩ | ⟨chunk, after, run⟩
    · obtain ⟨chunk, after, rfl, before, later, metadata', resume', walk', from_⟩ := clears.leaves
      refine ⟨fun _ => protects fun d d_mem m mem start => Nat.le_of_not_lt fun lt => ?_,
        chunk, after, rfl, before, later, .inl ⟨metadata', resume', walk', fun m mem lt =>
          absurd (from_ m mem) (Nat.not_le_of_lt lt)⟩⟩
      have m_bare := clears.bare m mem lt
      rw [isCovered_of_start d_mem start] at m_bare
      cases m_bare
    · obtain ⟨stop, -, ranges⟩ := run.exists_stop
      have eq : ls = chunk ++ after := (List.cons.inj ranges.lines).2
      have before := (List.forall_mem_cons.1 ranges.before).2
      refine ⟨fun avoids => protects fun d d_mem m mem start => Nat.le_of_not_lt fun lt => ?_,
        chunk, after, eq, before, ranges.later, ?_⟩
      · exact avoids d d_mem
          (runsInto_of_isLooseRun walk reached filled bare run d_mem mem start lt)
      · rw [eq, blocksFrom_of_passed before] at read
        exact along_of_isLooseRun walk settled run read steps
  · refine ⟨fun _ => protects fun d d_mem m mem start => ?_, ls.takeWhile (·.start < taken.2),
      ls.dropWhile (·.start < taken.2), List.takeWhile_append_dropWhile.symm, ?_, ?_, ?_⟩
    · have m_bare := all_bare m (List.mem_cons_of_mem l mem)
      rw [isCovered_of_start d_mem start] at m_bare
      cases m_bare
    · exact fun m mem => by simpa using List.mem_takeWhile_imp mem
    · have suffix' : ls <:+ Line.split source := (List.suffix_cons l ls).trans suffix
      exact fun m mem => Line.le_start_of_mem_dropWhile suffix' mem
    · exact .inr fun m mem => all_bare m (List.mem_cons_of_mem l (List.dropWhile_subset _ mem))

/-- What is guarded in blocks that run into no declaration is protected. -/
theorem blocksFrom_isProtected {bs : List Block} (reads : Reads source inner)
    (suffix : ls <:+ Line.split source) (along : Along source ls)
    (skipped : ∀ m ∈ ls, m.start < resume → m.isCovered (scan source) = true)
    (read : blocksFrom inner (Region.root source) (scan source) resume ls = .ok bs)
    (steps : bs.IsChain (Declaration.KeepsStep source)) :
    ∀ b ∈ bs, (∀ d ∈ scan source, ¬ b.RunsInto source d) →
      ∀ s ∈ b.guarded, s.IsProtected source := by
  induction length : ls.length using Nat.strongRecOn generalizing ls resume bs with
  | ind n ih =>
    subst length
    cases ls with
    | nil =>
      cases read
      exact List.forall_mem_nil _
    | cons l ls =>
      have suffix' : ls <:+ Line.split source := (List.suffix_cons l ls).trans suffix
      by_cases blank : l.isCovered (scan source) = true ∨ Text.isBlank l.text = true
      · obtain ⟨resume', same, skipped'⟩ :=
          exists_resume_of_blank blank inner (Region.root source) suffix skipped
        rw [same] at read
        exact ih ls.length (Nat.lt_succ_self _) suffix' (along.of_blank blank) skipped' read steps rfl
      · have reached : resume ≤ l.start := by
          refine Nat.le_of_not_lt fun lt => ?_
          exact blank (.inl (skipped l List.mem_cons_self lt))
        rw [not_or, Bool.not_eq_true, Bool.not_eq_true] at blank
        obtain ⟨taken, bs', taken_eq, rest_eq, rfl⟩ :=
          exists_of_blocksFrom_cons reached blank.1 blank.2 read
        obtain ⟨first, chunk, after, rfl, before, later, along'⟩ :=
          blockAt_isProtected reads suffix along blank.2 blank.1 taken_eq rest_eq steps
        rw [blocksFrom_of_passed before] at rest_eq
        have shorter : after.length < (l :: (chunk ++ after)).length := by
          rw [List.length_cons, List.length_append]
          omega
        have rest := ih after.length shorter ((List.suffix_append chunk after).trans suffix')
          along' (fun m mem lt => absurd (later m mem) (Nat.not_le_of_lt lt)) rest_eq
          (List.isChain_cons.1 steps).2 rfl
        exact List.forall_mem_cons.2 ⟨first, rest⟩

end Block

namespace Document

/-- **What is guarded in a block is protected**, if the block runs into no declaration and the scan
keeps step with the blocks: the declarations of the source are apart from the code, the widgets and
the expressions in the block, at any depth, and these are the same in the stripped text. -/
theorem isProtected_of_mem_guarded (formats : Formats) {d : Document}
    (read : Document.parse formats source = .ok d)
    (steps : d.blocks.IsChain (Declaration.KeepsStep source)) :
    ∀ b ∈ d.blocks, (∀ δ ∈ scan source, ¬ b.RunsInto source δ) →
      ∀ s ∈ b.guarded, s.IsProtected source := by
  have blocks : Block.parse maxNesting (scan source) (Region.root source) = .ok d.blocks := by
    unfold Document.parse at read
    dsimp only at read
    cases described : metadataOf formats source (scan source) with
    | error halt =>
      rw [described] at read
      cases read
    | ok metadata =>
      rw [described] at read
      dsimp only [bind, Except.bind] at read
      cases found : Block.parse maxNesting (scan source) (Region.root source) with
      | error halt =>
        rw [found] at read
        cases read
      | ok bs =>
        rw [found] at read
        cases read
        rfl
  obtain ⟨metadata, scanned, walk, covered⟩ := Declaration.exists_walk source
  rw [Block.parse_root] at blocks
  exact Block.blocksFrom_isProtected (Block.parse_reads source _) (List.suffix_refl _)
    (.inl ⟨metadata, scanned, walk, fun m mem lt => .inl (covered m mem lt)⟩)
    (fun _ _ lt => absurd lt (Nat.not_lt_zero _)) blocks steps

/-- Code in a list before an import, and an expression after it. -/
def codeBeforeImport : Text := "- a\n  ```\n  x\n  ```\n\nimport a'\n{v}".toList

theorem isProtected_codeBeforeImport :
    let formats : Formats := { json := fun _ => .ok .null, yaml := fun _ => .ok .null }
    let listed : Block := .list false none true
      [.mk [.paragraph [.text "a"] ⟨2, 3⟩, .code none "x\n" ⟨6, 19⟩] ⟨0, 19⟩] ⟨0, 19⟩
    let d : Document := ⟨none, [⟨"import a'", ⟨21, 30⟩⟩],
      [listed, .paragraph [.expression "v" ⟨31, 34⟩] ⟨31, 34⟩]⟩
    Document.parse formats codeBeforeImport = .ok d ∧
      d.blocks.IsChain (Declaration.KeepsStep codeBeforeImport) ∧
      (∀ δ ∈ scan codeBeforeImport, ¬ listed.RunsInto codeBeforeImport δ) ∧
      (⟨6, 19⟩ : Span).IsProtected codeBeforeImport := by
  intro formats listed d
  have declared : scan codeBeforeImport = [⟨.importStatement, ⟨21, 30⟩⟩] := by decide
  have read : Document.parse formats codeBeforeImport = .ok d := parse_of_blocks declared rfl rfl
  have steps : d.blocks.IsChain (Declaration.KeepsStep codeBeforeImport) := by decide
  have avoids : ∀ δ ∈ scan codeBeforeImport, ¬ listed.RunsInto codeBeforeImport δ := by
    rw [declared]
    refine List.forall_mem_singleton.2 fun runs => ?_
    exact absurd runs.stop (by decide)
  exact ⟨read, steps, avoids, isProtected_of_mem_guarded formats read steps listed
    List.mem_cons_self avoids _ List.mem_cons_self⟩

/-- An import after the first line of an item, which is the first line of code. -/
def importInCode : Text := "- ```\nimport A from 'a'\n  ```\n".toList

/-- Such an import is code, and it is stripped. -/
theorem not_isProtected_importInCode :
    let formats : Formats := { json := fun _ => .ok .null, yaml := fun _ => .ok .null }
    let code : Block := .code none "import A from 'a'\n" ⟨2, 29⟩
    Document.parse formats importInCode = .ok ⟨none, [⟨"import A from 'a'", ⟨6, 23⟩⟩],
        [.list false none true [.mk [code] ⟨0, 29⟩] ⟨0, 29⟩]⟩ ∧
      scan importInCode = [⟨.importStatement, ⟨6, 23⟩⟩] ∧
      strip importInCode = "- ```\n                 \n  ```\n".toList ∧
      ∀ s ∈ code.guarded, ¬ s.IsProtected importInCode := by
  intro formats code
  have declared : scan importInCode = [⟨.importStatement, ⟨6, 23⟩⟩] := by decide
  refine ⟨parse_of_blocks declared rfl rfl, declared, by rw [strip, declared]; rfl, ?_⟩
  refine List.forall_mem_singleton.2 ?_
  rintro ⟨t, -, -, ends, apart⟩
  -- all characters are of one byte, so the span ends where the code does
  have small : ∀ c ∈ importInCode, c.utf8Size = 1 := by
    have all : importInCode.all (·.utf8Size == 1) = true := rfl
    exact fun c mem => beq_iff_eq.1 (List.all_eq_true.1 all c mem)
  have stop : 29 = 2 + Text.bytes t := ends.elim id fun reaches => (reaches.isCut small).2
  rw [declared] at apart
  rcases List.forall_mem_singleton.1 apart with before | after
  · rw [← stop] at before
    exact absurd before (by decide)
  · exact absurd after (by decide)

end Document
end Folio
