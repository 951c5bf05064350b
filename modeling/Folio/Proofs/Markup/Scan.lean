import Folio.Proofs.Markup.Strip

/-!
# How declarations are looked for

A scan reads the lines of a source from the top. At a line that it does not pass over it finds a
declaration, or passes over what the line begins: `Declaration.declared?` and `Declaration.past`.
`Declaration.Walk` says where a scan is in a source: the declarations that it has not found yet are
all that cover lines from there on. What it passes over at once is a stride. Main statements:

* `Declaration.exists_start`: each declaration starts at a line that reads like an import, or like
  an export where metadata may come;
* `Declaration.Walk.isCovered_eq`: a line that a scan reaches is covered if a declaration starts
  there;
* `Declaration.Walk.not_isCovered_of_lt_past`: what a scan passes over is not covered.
-/

namespace Folio

open Text (trimStart isBlankChar)

/-! ### The first character of a line -/

/-- A mark after the indentation of a line is its first visible character. -/
theorem head?_trimStart {line rest : Text} {c : Char} (h : unindent? line = some (c :: rest))
    (visible : isBlankChar c = false) : (trimStart line).head? = some c := by
  have after : line.dropWhile isIndent = c :: rest := by
    unfold unindent? at h
    split at h
    · cases h
    · exact Option.some.inj h
  clear h
  induction line with
  | nil => cases after
  | cons d line ih =>
    rw [List.dropWhile_cons] at after
    rw [trimStart, List.dropWhile_cons]
    split at after
    · rename_i indent
      rw [if_pos (isBlankChar_of_isIndent indent)]
      exact ih after
    · cases after
      rw [if_neg (by rw [visible]; exact Bool.false_ne_true)]
      rfl

theorem Fence.head?_of_open? {line : Text} {f : Fence} (h : open? line = some f) :
    (trimStart line).head? = some '\x60' ∨ (trimStart line).head? = some '~' := by
  unfold open? at h
  obtain ⟨rest, unindented, h⟩ := Option.bind_eq_some_iff.1 h
  obtain ⟨marker, first, h⟩ := Option.bind_eq_some_iff.1 h
  obtain ⟨after, rfl⟩ : ∃ after, rest = marker :: after := List.head?_eq_some_iff.1 first
  split at h
  · cases h
  · rename_i known
    simp only [Bool.and_eq_true, bne_iff_ne, ne_eq, not_and, not_not] at known
    by_cases backtick : marker = '\x60'
    · subst backtick
      exact .inl (head?_trimStart unindented rfl)
    · have tilde : marker = '~' := known backtick
      subst tilde
      exact .inr (head?_trimStart unindented rfl)

/-- A fence is made of three or more backticks or tildes. -/
theorem Fence.marks_of_open? {line : Text} {f : Fence} (h : open? line = some f) :
    (f.marker = '\x60' ∨ f.marker = '~') ∧ 3 ≤ f.length := by
  unfold open? at h
  obtain ⟨rest, -, h⟩ := Option.bind_eq_some_iff.1 h
  obtain ⟨marker, -, h⟩ := Option.bind_eq_some_iff.1 h
  dsimp only at h
  split at h
  · cases h
  · rename_i known
    simp only [Bool.and_eq_true, bne_iff_ne, not_and_or, not_not] at known
    split at h
    · cases h
    · rename_i long
      split at h
      · cases h
      · cases h
        exact ⟨known, Nat.le_of_not_lt long⟩

/-- An empty line closes no fence. -/
theorem Fence.closes_nil {line : Text} {f : Fence} (h : open? line = some f) : f.closes [] = false := by
  have short : ¬ f.length ≤ 0 := by
    have long := (marks_of_open? h).2
    omega
  show (true && decide (f.length ≤ 0) && _) = false
  rw [decide_eq_false short]
  rfl

theorem head?_filter_visible (line : Text) :
    (line.filter fun c => !isBlankChar c).head? = (trimStart line).head? := by
  induction line with
  | nil => rfl
  | cons c line ih =>
    rw [trimStart, List.dropWhile_cons]
    by_cases blank : isBlankChar c = true
    · rw [List.filter_cons_of_neg (by simp [blank]), if_pos blank]
      exact ih
    · rw [List.filter_cons_of_pos (by simp [blank]), if_neg blank]
      rfl

/-- The first mark of a thematic break is its first visible character. -/
theorem head?_of_isThematicBreak {line : Text} (h : isThematicBreak line = true) :
    ∃ c, (trimStart line).head? = some c ∧ (c = '-' ∨ c = '*' ∨ c = '_') := by
  unfold isThematicBreak at h
  dsimp only at h
  rw [Bool.and_eq_true] at h
  obtain ⟨-, marks⟩ := h
  rw [← head?_filter_visible]
  split at marks
  · cases marks
  · rename_i c rest eq
    rw [Bool.and_eq_true, Bool.and_eq_true, Bool.or_eq_true, Bool.or_eq_true, beq_iff_eq, beq_iff_eq,
      beq_iff_eq, or_assoc] at marks
    exact ⟨c, by rw [eq]; rfl, marks.1.1⟩

theorem head?_of_isWidgetStart {line : Text} (h : isWidgetStart line = true) :
    (trimStart line).head? = some '<' := by
  unfold isWidgetStart at h
  split at h
  · exact head?_trimStart ‹_› rfl
  · cases h

theorem mem_of_isWidgetStart {line : Text} (h : isWidgetStart line = true) : '<' ∈ line :=
  List.dropWhile_subset _ (List.mem_of_head? (head?_of_isWidgetStart h))

theorem Fence.open?_of_isWidgetStart {line : Text} (h : isWidgetStart line = true) :
    open? line = none := by
  cases opened : open? line with
  | none => rfl
  | some fence =>
    have first := head?_of_isWidgetStart h
    rcases head?_of_open? opened with marker | marker <;> rw [first] at marker <;> cases marker

theorem head?_of_quoteMark? {line : Text} (h : (quoteMark? line).isSome = true) :
    (trimStart line).head? = some '>' := by
  obtain ⟨n, eq⟩ := Option.isSome_iff_exists.1 h
  unfold quoteMark? at eq
  obtain ⟨rest, unindented, eq⟩ := Option.bind_eq_some_iff.1 eq
  split at eq
  · exact head?_trimStart unindented rfl
  · exact head?_trimStart unindented rfl
  · cases eq

namespace Text

/-- The first word of a text starts with its first visible character. -/
theorem head?_of_words {s w : Text} {ws : List Text} (h : words s = w :: ws) :
    w.head? = (trimStart s).head? := by
  induction s generalizing w ws with
  | nil => cases h
  | cons c s ih =>
    rw [words] at h
    rw [trimStart, List.dropWhile_cons]
    split at h
    · rename_i blank
      rw [if_pos blank]
      exact ih h
    · rename_i visible
      rw [if_neg visible]
      split at h
      · cases h
        rfl
      · split at h
        · cases h
          rfl
        · cases h
          rfl

end Text

/-! ### Lines of a text -/

namespace Line

variable {s : Text} {l m : Line} {ls : List Line}

theorem next_mk (start : Nat) (text : Text) (ending : LineEnding) :
    (⟨start, text, ending⟩ : Line).next = start + (Text.bytes text + Text.bytes ending.text) :=
  Nat.add_assoc ..

theorem start_lt_next (mem : l ∈ split s) : l.start < l.next := by
  obtain ⟨ls, suffix⟩ := exists_suffix mem
  obtain ⟨-, last, -⟩ := whole_of_suffix suffix
  rw [next, stop]
  cases ending : l.ending with
  | none =>
    obtain ⟨c, t, text_eq⟩ := List.exists_cons_of_ne_nil (last ending).1
    have := c.utf8Size_pos
    rw [text_eq, Text.bytes_cons]
    omega
  | lf =>
    have size : Text.bytes LineEnding.lf.text = 1 := rfl
    omega
  | crlf =>
    have size : Text.bytes LineEnding.crlf.text = 2 := rfl
    omega

/-- The lines after a line of a text start after it. -/
theorem start_lt_of_mem (suffix : l :: ls <:+ split s) (mem : m ∈ ls) : l.start < m.start :=
  Nat.lt_of_lt_of_le (start_lt_next (suffix.subset List.mem_cons_self))
    ((whole_of_suffix suffix).2.2 m mem)

/-- The lines before a line of a text start before it. -/
theorem start_lt_of_append {before after : List Line} (suffix : before ++ m :: after <:+ split s)
    (mem : l ∈ before) : l.start < m.start := by
  obtain ⟨front, back, rfl⟩ := List.append_of_mem mem
  rw [List.append_assoc, List.cons_append] at suffix
  exact start_lt_of_mem ((List.suffix_append front _).trans suffix)
    (List.mem_append_right back List.mem_cons_self)

/-- A line of a text starts before the end of another one, or not before the next line. -/
theorem start_lt_next_iff (l_mem : l ∈ split s) (m_mem : m ∈ split s) :
    l.start < m.next ↔ l.start ≤ m.stop := by
  have filled := start_lt_next l_mem
  have le := m.le_stop
  have le' := m.stop_le_next
  obtain ⟨before, ls, lines⟩ := List.append_of_mem m_mem
  rw [lines] at l_mem
  rcases List.mem_append.1 l_mem with earlier | among
  · obtain ⟨front, back, rfl⟩ := List.append_of_mem earlier
    have suffix : l :: (back ++ m :: ls) <:+ split s := ⟨front, by rw [lines]; simp⟩
    have lt : l.start < m.start :=
      start_lt_of_mem suffix (List.mem_append_right back List.mem_cons_self)
    omega
  · rcases List.mem_cons.1 among with rfl | later
    · omega
    · have suffix : m :: ls <:+ split s := ⟨before, lines.symm⟩
      have next_le := (whole_of_suffix suffix).2.2 l later
      have lt : m.stop < l.start := (gap suffix later).1.lt
      omega

theorem exists_divided (suffix : l :: ls <:+ split s) :
    ∃ ps, Divided ps ∧ ls = place l.next ps := by
  obtain ⟨ps, suffix, eq⟩ := exists_of_suffix_place suffix
  exact ⟨ps, ((divided_divide s).of_suffix suffix).2.2, eq⟩

/-- The last of some lines, which the lines after them follow. -/
theorem exists_init (l : Line) (chunk : List Line) :
    ∃ init last, l :: chunk = init ++ [last] ∧ (l :: chunk).getLast?.getD l = last := by
  refine ⟨_, _, (List.dropLast_concat_getLast (List.cons_ne_nil l chunk)).symm, ?_⟩
  rw [List.getLast?_eq_some_getLast (List.cons_ne_nil l chunk), Option.getD_some]

variable {chunk after : List Line} (suffix : l :: (chunk ++ after) <:+ split s)

include suffix

theorem next_of_getLast? :
    (∀ m ∈ l :: chunk, m.start < ((l :: chunk).getLast?.getD l).next ∧
      m.stop ≤ ((l :: chunk).getLast?.getD l).next) ∧
    ∀ m ∈ after, ((l :: chunk).getLast?.getD l).next ≤ m.start := by
  obtain ⟨init, last, lines, last_eq⟩ := exists_init l chunk
  rw [← List.cons_append, lines, List.append_assoc, List.singleton_append] at suffix
  have suffix' : last :: after <:+ split s := (List.suffix_append init _).trans suffix
  have lt := start_lt_next (suffix'.subset List.mem_cons_self)
  rw [last_eq, lines]
  refine ⟨?_, (whole_of_suffix suffix').2.2⟩
  intro m mem
  rcases List.mem_append.1 mem with earlier | among
  · have before := start_lt_of_append suffix earlier
    have m_mem : m ∈ split s := suffix.subset (List.mem_append_left _ earlier)
    have mem' : last ∈ split s := suffix'.subset List.mem_cons_self
    rcases eq_or_lt m_mem mem' with rfl | stop | stop
    · omega
    · omega
    · have := last.le_stop
      omega
  · rw [List.mem_singleton.1 among]
    exact ⟨lt, last.stop_le_next⟩

theorem next_eq_add_bytes :
    ((l :: chunk).getLast?.getD l).next = l.start + Text.bytes (join (l :: chunk)) := by
  obtain ⟨before, split_eq⟩ := suffix
  obtain ⟨init, last, lines, last_eq⟩ := exists_init l chunk
  have start := start_of_split split_eq.symm
  rw [← List.cons_append, lines, List.append_assoc, List.singleton_append, ← List.append_assoc]
    at split_eq
  have last_start := start_of_split split_eq.symm
  rw [join_append, Text.bytes_append] at last_start
  have nothing : Text.bytes (join []) = 0 := rfl
  rw [last_eq, lines, join_append, join_cons, Text.bytes_append, Text.bytes_append, ← bytes_raw,
    last_start, start, nothing]
  omega

end Line

/-- Whether a fenced block goes on after a line. -/
def Fence.staysOpen (f : Fence) (m : Line) : Bool := !f.closes m.text

namespace Block

variable {f : Fence} {m : Line} {ms : List Line}

/-- The lines of a fenced block after its first one. -/
def fenceLines (fence : Fence) (ls : List Line) : List Line :=
  ls.takeWhile fence.staysOpen ++ (ls.dropWhile fence.staysOpen).head?.toList

theorem fenceLines_cons :
    fenceLines f (m :: ms) = if f.closes m.text then [m] else m :: fenceLines f ms := by
  unfold fenceLines
  rw [List.takeWhile_cons, List.dropWhile_cons, Fence.staysOpen]
  cases f.closes m.text <;> rfl

/-- The lines of fenced code are some of those that follow its first line. -/
theorem exists_append_fenceLines (f : Fence) (ms : List Line) : ∃ after, ms = fenceLines f ms ++ after := by
  induction ms with
  | nil => exact ⟨[], rfl⟩
  | cons m ms ih =>
    rw [fenceLines_cons]
    split
    · exact ⟨ms, rfl⟩
    · obtain ⟨after, rest⟩ := ih
      exact ⟨after, congrArg (m :: ·) rest⟩

theorem fenceLines_subset (f : Fence) (ms : List Line) : fenceLines f ms ⊆ ms := by
  obtain ⟨after, lines⟩ := exists_append_fenceLines f ms
  intro m mem
  rw [lines]
  exact List.mem_append_left after mem

end Block

namespace Fence

open Block (fenceLines fenceLines_cons)

variable {s : Text} {f : Fence} {l close : Line} {ls after : List Line}

/-- The lines that a scan passes over are those of the fenced code. -/
theorem extent_eq (f : Fence) (at_ : Nat) (ps : List (Text × LineEnding)) :
    at_ + f.extent ps = ((fenceLines f (Line.place at_ ps)).getLast?.map Line.next).getD at_ := by
  induction ps generalizing at_ with
  | nil => rfl
  | cons p ps ih =>
    rw [extent, Line.place, fenceLines_cons]
    dsimp only
    split
    · exact (Nat.add_assoc ..).symm
    · rw [← Nat.add_assoc, ← Line.next_mk, ih, List.getLast?_cons]
      cases (fenceLines f (Line.place _ ps)).getLast? <;> rfl

theorem skip_eq (suffix : l :: ls <:+ Line.split s) :
    f.skip l.next (Line.join ls) = ((l :: fenceLines f ls).getLast?.getD l).next := by
  obtain ⟨ps, divided, rfl⟩ := Line.exists_divided suffix
  rw [skip, Line.join_place, Line.divide_eq divided, extent_eq, List.getLast?_cons]
  cases (fenceLines f (Line.place l.next ps)).getLast? <;> rfl

/-- A fenced block that is closed takes the lines up to the one that closes it. -/
theorem skip_eq_next (suffix : l :: ls <:+ Line.split s)
    (closed : ls.dropWhile f.staysOpen = close :: after) :
    f.skip l.next (Line.join ls) = close.next := by
  have lines : l :: fenceLines f ls = (l :: ls.takeWhile f.staysOpen) ++ [close] := by
    rw [fenceLines, closed]
    rfl
  rw [skip_eq suffix, lines, List.getLast?_concat, Option.getD_some]

/-- A fenced block that is not closed takes all lines. -/
theorem lt_skip (suffix : l :: ls <:+ Line.split s)
    (unclosed : ls.dropWhile f.staysOpen = []) :
    ∀ m ∈ ls, m.start < f.skip l.next (Line.join ls) := by
  have lines : fenceLines f ls = ls := by
    rw [fenceLines, unclosed]
    exact (List.append_nil _).trans (List.takeWhile_eq_self_iff.2 (List.dropWhile_eq_nil_iff.1 unclosed))
  rw [← List.append_nil ls] at suffix
  have before := (Line.next_of_getLast? suffix).1
  rw [List.append_nil] at suffix
  rw [skip_eq suffix, lines]
  exact fun m mem => (before m (List.mem_cons_of_mem l mem)).1

end Fence

namespace Declaration

variable {source : Text} {metadata : Bool} {resume : Nat} {d : Declaration} {l last : Line}
  {ls : List Line} {kind : DeclarationKind}

theorem head?_of_isExport {line : Text} (h : isExport line = true) :
    (trimStart line).head? = some 'e' := by
  unfold isExport at h
  split at h
  · rename_i e c m ws words_eq
    rw [Bool.and_eq_true, Bool.and_eq_true, beq_iff_eq] at h
    rw [← Text.head?_of_words words_eq, h.1.1]
    rfl
  · cases h

theorem exists_of_isImport {line : Text} (h : isImport line = true) :
    ∃ rest, line = 'i' :: rest := by
  simp only [isImport, Bool.or_eq_true, List.isPrefixOf_iff_prefix] at h
  rcases h with ⟨rest, rfl⟩ | ⟨rest, rfl⟩
  · exact ⟨_, rfl⟩
  · exact ⟨_, rfl⟩

theorem head?_of_isImport {line : Text} (h : isImport line = true) :
    (trimStart line).head? = some 'i' := by
  obtain ⟨rest, rfl⟩ := exists_of_isImport h
  rfl

theorem open?_of_isExport {line : Text} (h : isExport line = true) : Fence.open? line = none := by
  cases opened : Fence.open? line with
  | none => rfl
  | some f =>
    have first := Fence.head?_of_open? opened
    rw [head?_of_isExport h] at first
    rcases first with first | first <;> cases first

theorem isWidgetStart_of_isExport {line : Text} (h : isExport line = true) :
    isWidgetStart line = false := by
  rw [← Bool.not_eq_true]
  intro widget
  have first := head?_of_isWidgetStart widget
  rw [head?_of_isExport h] at first
  cases first

/-- Front matter begins with three dashes. -/
theorem frontMatter?_eq_none_of_dashes (first : ∀ l ∈ ls.head?, ¬ "---".toList <+: l.text) :
    frontMatter? ls = none := by
  unfold frontMatter?
  split
  · rename_i l second rest
    have dashes : (Text.trimEnd l.text == "---".toList) = false := by
      rw [beq_eq_false_iff_ne]
      intro eq
      exact first l rfl (eq ▸ Text.isPrefix_trimEndOf _ _)
    rw [dashes, Bool.false_and, if_neg Bool.false_ne_true]
  · rfl

theorem frontMatter?_eq_none (first : ∀ l ∈ ls.head?, l.text.head? ≠ some '-') :
    frontMatter? ls = none := by
  refine frontMatter?_eq_none_of_dashes fun l mem begins => first l mem ?_
  obtain ⟨after, text⟩ := begins
  rw [← text]
  rfl

/-! ### The step of a scan -/

/-- The kind of the declaration that starts at a line, and its last line. -/
def declared? (metadata : Bool) (l : Line) (ls : List Line) : Option (DeclarationKind × Line) :=
  if (Fence.open? l.text).isSome then none
  else
    match if isImport l.text then importEnd? (l :: ls) else none with
    | some last => some (.importStatement, last)
    | none =>
      if metadata && isExport l.text then
        (exportEnd? (l :: ls)).map fun last => (.exportedMetadata, last)
      else none

/-- When nothing is declared at a line. -/
theorem declared?_eq_none_iff :
    declared? metadata l ls = none ↔
      (Fence.open? l.text).isSome = true ∨
        (isImport l.text = true → importEnd? (l :: ls) = none) ∧
          (metadata = true ∧ isExport l.text = true → exportEnd? (l :: ls) = none) := by
  unfold declared?
  split
  · simp [*]
  · by_cases imports : isImport l.text = true
    · cases importEnd? (l :: ls) <;> simp [*]
    · simp [*]

/-- The offset up to which a scan passes over lines after one that does not start a declaration. -/
def past (l : Line) (ls : List Line) : Nat :=
  match Fence.open? l.text with
  | some fence => fence.skip l.next (Line.join ls)
  | none => (if isWidgetStart l.text then pastWidget? (l :: ls) else none).getD l.next

theorem scanFrom_of_passed (passed : l.start < resume ∨ Text.isBlank l.text = true) :
    scanFrom metadata resume (l :: ls) = scanFrom metadata resume ls := by
  rw [scanFrom, if_pos (by simpa using passed)]

theorem scanFrom_of_declared (reached : resume ≤ l.start) (filled : Text.isBlank l.text = false)
    (found : declared? metadata l ls = some (kind, last)) :
    scanFrom metadata resume (l :: ls) = { kind, span := ⟨l.start, last.stop⟩ } ::
      scanFrom (metadata && kind == .importStatement) last.next ls := by
  rw [scanFrom, if_neg (by simp [filled, reached])]
  unfold declared? at found
  cases opened : Fence.open? l.text with
  | some fence =>
    rw [opened] at found
    cases found
  | none =>
    rw [opened, Option.isSome_none, if_neg Bool.false_ne_true] at found
    cases imported : (if isImport l.text then importEnd? (l :: ls) else none) with
    | some end_ =>
      rw [imported] at found
      cases found
      rw [beq_self_eq_true, Bool.and_true]
    | none =>
      rw [imported] at found
      by_cases exported : (metadata && isExport l.text) = true
      · rw [if_pos exported] at found
        obtain ⟨end_, ended, made⟩ := Option.map_eq_some_iff.1 found
        cases made
        have other : (DeclarationKind.exportedMetadata == .importStatement) = false := rfl
        simp only [exported, ended, other, if_true, Bool.and_false]
      · rw [if_neg exported] at found
        cases found

theorem scanFrom_of_bare (reached : resume ≤ l.start) (filled : Text.isBlank l.text = false)
    (bare : declared? metadata l ls = none) :
    scanFrom metadata resume (l :: ls) = scanFrom false (past l ls) ls := by
  rw [scanFrom, if_neg (by simp [filled, reached])]
  unfold declared? at bare
  unfold past
  cases opened : Fence.open? l.text with
  | some fence => rfl
  | none =>
    rw [opened, Option.isSome_none, if_neg Bool.false_ne_true] at bare
    cases imported : (if isImport l.text then importEnd? (l :: ls) else none) with
    | some end_ =>
      rw [imported] at bare
      cases bare
    | none =>
      rw [imported] at bare
      by_cases exported : (metadata && isExport l.text) = true
      · rw [if_pos exported, Option.map_eq_none_iff] at bare
        rw [Bool.and_eq_true] at exported
        simp only [exported, bare, isWidgetStart_of_isExport exported.2, Bool.and_self, if_true,
          Bool.false_eq_true, if_false, Option.getD_none]
      · simp only [if_neg exported]
        cases (if isWidgetStart l.text then pastWidget? (l :: ls) else none) with
        | none => rfl
        | some resume => rfl

/-- A declaration ends among the lines from its first one on, which reads like an import or an
export. -/
theorem of_declared? (h : declared? metadata l ls = some (kind, last)) :
    last ∈ l :: ls ∧ (isImport l.text = true ∨ metadata = true ∧ isExport l.text = true) := by
  unfold declared? at h
  split at h
  · cases h
  · split at h
    · rename_i ended
      cases h
      split at ended
      · rename_i imports
        exact ⟨mem_of_importEnd? ended, .inl imports⟩
      · cases ended
    · split at h
      · rename_i exported
        obtain ⟨end_, ended, made⟩ := Option.map_eq_some_iff.1 h
        cases made
        rw [Bool.and_eq_true] at exported
        exact ⟨mem_of_exportEnd? ended, .inr exported⟩
      · cases h

/-- A declaration starts at a line that the scan reaches. -/
theorem exists_start (suffix : ls <:+ Line.split source)
    (mem : d ∈ scanFrom metadata resume ls) :
    ∃ l ∈ ls, resume ≤ l.start ∧ d.span.start = l.start ∧
      (isImport l.text = true ∨ metadata = true ∧ isExport l.text = true) := by
  induction ls generalizing metadata resume with
  | nil => cases mem
  | cons l ls ih =>
    have suffix' : ls <:+ Line.split source := (List.suffix_cons l ls).trans suffix
    by_cases passed : l.start < resume ∨ Text.isBlank l.text = true
    · rw [scanFrom_of_passed passed] at mem
      obtain ⟨l', among, rest⟩ := ih suffix' mem
      exact ⟨l', List.mem_cons_of_mem l among, rest⟩
    · rw [not_or, Nat.not_lt, Bool.not_eq_true] at passed
      obtain ⟨reached, filled⟩ := passed
      -- a declaration that is found further down starts at a later line
      have later : ∀ {m r}, (m = true → metadata = true) → d ∈ scanFrom m r ls →
          ∃ l' ∈ l :: ls, resume ≤ l'.start ∧ d.span.start = l'.start ∧
            (isImport l'.text = true ∨ metadata = true ∧ isExport l'.text = true) := by
        intro m r still mem
        obtain ⟨l', among, -, start, kind⟩ := ih suffix' mem
        have le := Line.start_le_of_mem suffix (List.mem_cons_of_mem l among)
        exact ⟨l', List.mem_cons_of_mem l among, Nat.le_trans reached le, start,
          kind.imp_right fun other => ⟨still other.1, other.2⟩⟩
      cases found : declared? metadata l ls with
      | none =>
        rw [scanFrom_of_bare reached filled found] at mem
        exact later (by simp) mem
      | some made =>
        rw [scanFrom_of_declared reached filled found] at mem
        rcases List.mem_cons.1 mem with rfl | mem
        · exact ⟨l, List.mem_cons_self, reached, rfl, (of_declared? found).2⟩
        · exact later (fun both => (Bool.and_eq_true_iff.1 both).1) mem

/-! ### Strides -/

/-- What a scan passes over at once from a line that does not start a declaration: the line, fenced
code or a widget. It starts with the first visible character. -/
def stride (l : Line) (ls : List Line) : Span where
  start := l.start + indentation l.text
  stop := ((l :: ls.takeWhile (·.start < past l ls)).getLast?.getD l).next

/-- The strides of a scan of some lines. -/
def stridesFrom : Bool → Nat → List Line → List Span
  | _, _, [] => []
  | metadata, resume, l :: ls =>
    if l.start < resume || Text.isBlank l.text then stridesFrom metadata resume ls
    else
      match declared? metadata l ls with
      | some (kind, last) => stridesFrom (metadata && kind == .importStatement) last.next ls
      | none => stride l ls :: stridesFrom false (past l ls) ls

/-- Where the scan of a source goes on after front matter. -/
def entry (source : Text) : Bool × Nat :=
  match frontMatter? (Line.split source) with
  | some (_, resume) => (false, resume)
  | none => (true, 0)

/-- The strides of the scan of a source. -/
def strides (source : Text) : List Span :=
  stridesFrom (entry source).1 (entry source).2 (Line.split source)

theorem stridesFrom_of_passed (passed : l.start < resume ∨ Text.isBlank l.text = true) :
    stridesFrom metadata resume (l :: ls) = stridesFrom metadata resume ls := by
  rw [stridesFrom, if_pos (by simpa using passed)]

theorem stridesFrom_of_declared (reached : resume ≤ l.start) (filled : Text.isBlank l.text = false)
    (found : declared? metadata l ls = some (kind, last)) :
    stridesFrom metadata resume (l :: ls) =
      stridesFrom (metadata && kind == .importStatement) last.next ls := by
  rw [stridesFrom, if_neg (by simp [filled, reached]), found]

theorem stridesFrom_of_bare (reached : resume ≤ l.start) (filled : Text.isBlank l.text = false)
    (bare : declared? metadata l ls = none) :
    stridesFrom metadata resume (l :: ls) = stride l ls :: stridesFrom false (past l ls) ls := by
  rw [stridesFrom, if_neg (by simp [filled, reached]), bare]

/-! ### The course of a scan -/

/-- A scan of a source has come to some lines. The declarations that it is to find are those of the
source that cover a line from there on. -/
structure Walk (source : Text) (metadata : Bool) (resume : Nat) (ls : List Line) : Prop where
  suffix : ls <:+ Line.split source
  among : ∀ d ∈ scanFrom metadata resume ls, d ∈ scan source
  ahead : ∀ d ∈ scan source, d ∈ scanFrom metadata resume ls ∨
    ∀ l ∈ ls, d.covers l.start = true → l.start < resume
  strides : ∀ p ∈ stridesFrom metadata resume ls, p ∈ strides source

/-- Front matter covers the lines that a scan passes over after it. -/
theorem isCovered_of_frontMatter? (front : frontMatter? (Line.split source) = some (d, resume))
    (mem : l ∈ Line.split source) (lt : l.start < resume) : l.isCovered (scan source) = true := by
  obtain ⟨first, rest, close, lines, close_mem, -, rfl, rfl⟩ := exists_of_frontMatter? front
  have suffix : first :: rest <:+ Line.split source := lines ▸ List.suffix_refl _
  have close_mem : close ∈ Line.split source := lines ▸ List.mem_cons_of_mem first close_mem
  have le := Line.start_le_of_mem suffix (lines ▸ mem)
  have le' := (Line.start_lt_next_iff mem close_mem).1 lt
  rw [scan, front, Line.isCovered, List.any_cons]
  simp [covers, le, le']

/-- At the start of a source, a scan has found what covers the lines that it passes over. -/
theorem exists_walk (source : Text) :
    ∃ metadata resume, Walk source metadata resume (Line.split source) ∧
      ∀ l ∈ Line.split source, l.start < resume → l.isCovered (scan source) = true := by
  cases front : frontMatter? (Line.split source) with
  | none =>
    have found : scan source = scanFrom true 0 (Line.split source) := by
      rw [scan, front]
    have strides_eq : strides source = stridesFrom true 0 (Line.split source) := by
      rw [strides, entry, front]
    refine ⟨true, 0, ⟨List.suffix_refl _, ?_, ?_, ?_⟩, fun l _ => nofun⟩
    · rw [found]
      exact fun d mem => mem
    · rw [found]
      exact fun d mem => .inl mem
    · rw [strides_eq]
      exact fun p mem => mem
  | some made =>
    obtain ⟨d, resume⟩ := made
    have found : scan source = d :: scanFrom false resume (Line.split source) := by
      rw [scan, front]
    have strides_eq : strides source = stridesFrom false resume (Line.split source) := by
      rw [strides, entry, front]
    refine ⟨false, resume, ⟨List.suffix_refl _, ?_, ?_, ?_⟩,
      fun l mem => isCovered_of_frontMatter? front mem⟩
    · rw [found]
      exact fun d' mem => List.mem_cons_of_mem d mem
    · rw [found]
      intro d' d_mem
      rcases List.mem_cons.1 d_mem with rfl | d_mem
      · obtain ⟨first, rest, close, lines, close_mem, -, rfl, rfl⟩ := exists_of_frontMatter? front
        have mem : close ∈ Line.split source := lines ▸ List.mem_cons_of_mem first close_mem
        refine .inr fun l l_mem covered => ?_
        rw [covers, Bool.and_eq_true, decide_eq_true_eq, decide_eq_true_eq] at covered
        exact (Line.start_lt_next_iff l_mem mem).2 covered.2
      · exact .inl d_mem
    · rw [strides_eq]
      exact fun p mem => mem

namespace Walk

theorem passed (h : Walk source metadata resume (l :: ls))
    (passed : l.start < resume ∨ Text.isBlank l.text = true) : Walk source metadata resume ls where
  suffix := (List.suffix_cons l ls).trans h.suffix
  among := by
    rw [← scanFrom_of_passed passed]
    exact h.among
  ahead := by
    intro d mem
    rw [← scanFrom_of_passed passed]
    exact (h.ahead d mem).imp_right fun before m m_mem => before m (List.mem_cons_of_mem l m_mem)
  strides := by
    rw [← stridesFrom_of_passed passed]
    exact h.strides

/-- A scan goes on after a declaration, which covers the lines up to there. -/
theorem declared (h : Walk source metadata resume (l :: ls)) (reached : resume ≤ l.start)
    (filled : Text.isBlank l.text = false)
    (found : declared? metadata l ls = some (kind, last)) :
    Walk source (metadata && kind == .importStatement) last.next ls ∧
      l.isCovered (scan source) = true ∧ l.start < last.next ∧
      ∀ m ∈ ls, m.start < last.next → m.isCovered (scan source) = true := by
  have scanned := scanFrom_of_declared reached filled found
  have last_mem := h.suffix.subset (of_declared? found).1
  have lines : ∀ m ∈ l :: ls, m.start < last.next ↔ m.start ≤ last.stop :=
    fun m mem => Line.start_lt_next_iff (h.suffix.subset mem) last_mem
  have covering : ∀ m ∈ l :: ls, m.start < last.next → m.isCovered (scan source) = true := by
    intro m mem lt
    have le := Line.start_le_of_mem h.suffix mem
    have le' := (lines m mem).1 lt
    refine List.any_eq_true.2 ⟨_, h.among _ (scanned ▸ List.mem_cons_self), ?_⟩
    simp [covers, le, le']
  have start : l.start < last.next := by
    have le := Line.start_le_of_mem h.suffix (of_declared? found).1
    have le' := last.le_stop
    exact (lines l List.mem_cons_self).2 (Nat.le_trans le le')
  refine ⟨⟨(List.suffix_cons l ls).trans h.suffix, ?_, ?_, ?_⟩,
    covering l List.mem_cons_self start, start,
    fun m mem => covering m (List.mem_cons_of_mem l mem)⟩
  · exact fun d mem => h.among d (scanned ▸ List.mem_cons_of_mem _ mem)
  · intro d mem
    rcases h.ahead d mem with later | before
    · rw [scanned] at later
      rcases List.mem_cons.1 later with rfl | later
      · refine .inr fun m m_mem covered => ?_
        rw [covers, Bool.and_eq_true, decide_eq_true_eq, decide_eq_true_eq] at covered
        exact (lines m (List.mem_cons_of_mem l m_mem)).2 covered.2
      · exact .inl later
    · refine .inr fun m m_mem covered => ?_
      have lt := before m (List.mem_cons_of_mem l m_mem) covered
      have le := Line.start_le_of_mem h.suffix (List.mem_cons_of_mem l m_mem)
      omega
  · rw [← stridesFrom_of_declared reached filled found]
    exact h.strides

/-- Where a scan reaches a line, it is yet to find what covers lines from there on. -/
theorem mem_scanFrom (h : Walk source metadata resume (l :: ls)) (reached : resume ≤ l.start)
    {m : Line} (m_mem : m ∈ l :: ls) (mem : d ∈ scan source) (covered : d.covers m.start = true) :
    d ∈ scanFrom metadata resume (l :: ls) := by
  rcases h.ahead d mem with later | before
  · exact later
  · have lt := before m m_mem covered
    have le := Line.start_le_of_mem h.suffix m_mem
    omega

/-- A scan goes on after what begins with a line that does not start a declaration. -/
theorem bare (h : Walk source metadata resume (l :: ls)) (reached : resume ≤ l.start)
    (filled : Text.isBlank l.text = false) (bare : declared? metadata l ls = none) :
    Walk source false (past l ls) ls := by
  have scanned := scanFrom_of_bare reached filled bare
  refine ⟨(List.suffix_cons l ls).trans h.suffix, ?_, ?_, ?_⟩
  · rw [← scanned]
    exact h.among
  · intro d mem
    rw [← scanned]
    rcases h.ahead d mem with later | before
    · exact .inl later
    · refine .inr fun m m_mem covered => ?_
      have lt := before m (List.mem_cons_of_mem l m_mem) covered
      have le := Line.start_le_of_mem h.suffix (List.mem_cons_of_mem l m_mem)
      omega
  · intro p mem
    refine h.strides p ?_
    rw [stridesFrom_of_bare reached filled bare]
    exact List.mem_cons_of_mem _ mem

/-- What a scan passes over is not covered. -/
theorem not_isCovered_of_lt_past (h : Walk source metadata resume (l :: ls))
    (reached : resume ≤ l.start) (filled : Text.isBlank l.text = false)
    (bare : declared? metadata l ls = none) {m : Line} (mem : m ∈ ls)
    (lt : m.start < past l ls) : m.isCovered (scan source) = false := by
  rw [← Bool.not_eq_true]
  intro covered
  obtain ⟨d, d_mem, covered⟩ := List.any_eq_true.1 covered
  have later := h.mem_scanFrom reached (List.mem_cons_of_mem l mem) d_mem covered
  rw [scanFrom_of_bare reached filled bare] at later
  obtain ⟨l', -, past_le, start, -⟩ := exists_start ((List.suffix_cons l ls).trans h.suffix) later
  rw [covers, Bool.and_eq_true, decide_eq_true_eq] at covered
  omega

/-- A line that a scan reaches is covered if a declaration starts there. -/
theorem isCovered_eq (h : Walk source metadata resume (l :: ls)) (reached : resume ≤ l.start)
    (filled : Text.isBlank l.text = false) :
    l.isCovered (scan source) = (declared? metadata l ls).isSome := by
  cases found : declared? metadata l ls with
  | some made => exact (h.declared reached filled found).2.1
  | none =>
    rw [Option.isSome_none, ← Bool.not_eq_true]
    intro covered
    obtain ⟨d, d_mem, covered⟩ := List.any_eq_true.1 covered
    have later := h.mem_scanFrom reached List.mem_cons_self d_mem covered
    rw [scanFrom_of_bare reached filled found] at later
    obtain ⟨l', among, -, start, -⟩ := exists_start ((List.suffix_cons l ls).trans h.suffix) later
    have lt := Line.start_lt_of_mem h.suffix among
    rw [covers, Bool.and_eq_true, decide_eq_true_eq] at covered
    omega

theorem passed_append {chunk after : List Line}
    (h : Walk source metadata resume (chunk ++ after)) (passed : ∀ m ∈ chunk, m.start < resume) :
    Walk source metadata resume after := by
  induction chunk with
  | nil => exact h
  | cons m chunk ih =>
    rw [List.forall_mem_cons] at passed
    exact ih (h.passed (.inl passed.1)) passed.2

/-- No declaration starts at a line that is not covered. -/
theorem undeclared (h : Walk source metadata resume (l :: ls)) (reached : resume ≤ l.start)
    (filled : Text.isBlank l.text = false) (uncovered : l.isCovered (scan source) = false) :
    declared? metadata l ls = none := by
  rw [h.isCovered_eq reached filled] at uncovered
  exact Option.not_isSome_iff_eq_none.1 (Bool.not_eq_true _ ▸ uncovered)

/-- A scan goes on after a line that is not covered and begins neither fenced code nor a widget. -/
theorem plain (h : Walk source metadata resume (l :: ls)) (reached : resume ≤ l.start)
    (filled : Text.isBlank l.text = false) (uncovered : l.isCovered (scan source) = false)
    (unopened : Fence.open? l.text = none) (other : isWidgetStart l.text = false) :
    Walk source false l.next ls := by
  have next : past l ls = l.next := by
    rw [past, unopened, other]
    rfl
  rw [← next]
  exact h.bare reached filled (h.undeclared reached filled uncovered)

/-- A scan goes through lines that begin neither fenced code nor a widget nor a declaration. -/
theorem through {chunk after : List Line} (h : Walk source metadata resume (chunk ++ after))
    (reached : ∀ m ∈ chunk ++ after, resume ≤ m.start)
    (plain : ∀ m ∈ chunk, Text.isBlank m.text = false ∧ Fence.open? m.text = none ∧
      isWidgetStart m.text = false ∧ (m.isCovered (scan source) = true →
        isImport m.text = false ∧ isExport m.text = false)) :
    (∀ m ∈ chunk, m.isCovered (scan source) = false) ∧
      ∃ metadata' resume', Walk source metadata' resume' after ∧ ∀ m ∈ after, resume' ≤ m.start := by
  induction chunk generalizing metadata resume with
  | nil => exact ⟨nofun, metadata, resume, h, reached⟩
  | cons c chunk ih =>
    rw [List.forall_mem_cons] at plain
    obtain ⟨⟨filled, unopened, other, undeclared⟩, plain⟩ := plain
    rw [List.cons_append] at h reached
    have c_reached := reached c List.mem_cons_self
    have covered_eq := h.isCovered_eq c_reached filled
    cases found : declared? metadata c (chunk ++ after) with
    | some made =>
      rw [found] at covered_eq
      obtain ⟨no_import, no_export⟩ := undeclared covered_eq
      rcases (of_declared? found).2 with imports | ⟨-, exporting⟩
      · rw [no_import] at imports
        cases imports
      · rw [no_export] at exporting
        cases exporting
    | none =>
      rw [found] at covered_eq
      have walk := h.plain c_reached filled covered_eq unopened other
      obtain ⟨bare, rest⟩ := ih walk (Line.whole_of_suffix h.suffix).2.2 plain
      exact ⟨List.forall_mem_cons.2 ⟨covered_eq, bare⟩, rest⟩

/-- A scan goes through lines that are not covered and begin neither fenced code nor a widget. -/
theorem through_bare {chunk after : List Line} (h : Walk source metadata resume (chunk ++ after))
    (reached : ∀ m ∈ chunk ++ after, resume ≤ m.start)
    (bare : ∀ m ∈ chunk, m.isCovered (scan source) = false)
    (plain : ∀ m ∈ chunk, Text.isBlank m.text = true ∨
      Fence.open? m.text = none ∧ isWidgetStart m.text = false) :
    ∃ metadata' resume', Walk source metadata' resume' after ∧ ∀ m ∈ after, resume' ≤ m.start := by
  induction chunk generalizing metadata resume with
  | nil => exact ⟨metadata, resume, h, reached⟩
  | cons c chunk ih =>
    rw [List.forall_mem_cons] at bare plain
    rw [List.cons_append] at h reached
    rw [List.forall_mem_cons] at reached
    by_cases blank : Text.isBlank c.text = true
    · exact ih (h.passed (.inr blank)) reached.2 bare.2 plain.2
    · obtain ⟨unopened, other⟩ := plain.1.resolve_left blank
      rw [Bool.not_eq_true] at blank
      have walk := h.plain reached.1 blank bare.1 unopened other
      exact ih walk (Line.whole_of_suffix h.suffix).2.2 bare.2 plain.2

end Walk
end Declaration
end Folio
