import Folio.Proofs.Markup.Restrip
import Folio.Proofs.Markup.Whitespace
import Folio.Proofs.Markup.WidenedBlocks
import Folio.Proofs.Markup.WidgetExtent

/-!
# Carriage returns

A source without tags and declarations says the same with carriage returns before its line feeds. The
scan for declarations sees them where it looks at more than one line, in fenced blocks and in the
braces of an exported constant; blocks are read of lines, which do not have them. Main statements:

* `Expression.scan_crlf`: braces balance where they did;
* `Declaration.scan_crlf`: no declarations are found;
* `Document.parse_crlf`: the same blocks are read, or the same fault is found.
-/

namespace Folio

open Text (crlf)

variable {source : Text} {l : Line} {ls : List Line}

/-! ### Braces -/

namespace Expression

variable {mode mode' : Mode}

/-- The mode after a character that means nothing. -/
def Mode.past : Mode → Mode
  | .outside => .outside
  | .inside quote start => .inside quote start
  | .escaped quote start => .inside quote start

@[simp] theorem Mode.past_past (mode : Mode) : mode.past.past = mode.past := by
  cases mode <;> rfl

/-- Scans that stand in the same way, but for the offsets where strings start. -/
inductive Mode.Same : Mode → Mode → Prop
  | outside : Same .outside .outside
  | inside {quote : Char} (is_quote : isQuote quote = true) (start start' : Nat) :
    Same (.inside quote start) (.inside quote start')
  | escaped {quote : Char} (is_quote : isQuote quote = true) (start start' : Nat) :
    Same (.escaped quote start) (.escaped quote start')

theorem Mode.Same.past (same : Mode.Same mode mode') : Mode.Same mode.past mode'.past := by
  cases same with
  | outside => exact .outside
  | inside is_quote start start' => exact .inside is_quote start start'
  | escaped is_quote start start' => exact .inside is_quote start start'

theorem Mode.Same.left (same : Mode.Same mode mode') : Mode.Same mode mode := by
  cases same with
  | outside => exact .outside
  | inside is_quote start start' => exact .inside is_quote start start
  | escaped is_quote start start' => exact .escaped is_quote start start

/-- A scan passes over the characters of line endings. -/
theorem scan_ending {c : Char} (ends : c = '\r' ∨ c = '\n') (same : Mode.Same mode mode')
    (depth : Int) (at_ : Nat) (s : Text) :
    scan mode' depth at_ (c :: s) =
      (scan mode'.past depth (at_ + c.utf8Size) s).map (c :: ·) := by
  have plain : c ≠ '{' ∧ c ≠ '}' ∧ c ≠ '\\' ∧ isQuote c = false := by
    rcases ends with rfl | rfl <;> decide
  obtain ⟨opens, closes, escapes, quotes⟩ := plain
  cases same with
  | outside => simp [scan, opens, closes, quotes, Mode.past]
  | @inside quote is_quote start start' =>
    have other : c ≠ quote := by
      rintro rfl
      rw [quotes] at is_quote
      cases is_quote
    simp [scan, escapes, other, Mode.past]
  | escaped => rfl

/-- With carriage returns, braces balance where they did. -/
theorem scan_crlf (same : Mode.Same mode mode') (depth : Int) (at_ at_' : Nat) (s : Text) :
    Alike (fun e e' => e' = crlf e) (scan mode depth at_ s) (scan mode' depth at_' (crlf s)) := by
  induction s generalizing mode mode' depth at_ at_' with
  | nil => cases same <;> trivial
  | cons c s ih =>
    by_cases eol : c = '\n'
    · subst eol
      rw [Text.crlf_cons_eol, scan_ending (.inr rfl) same.left, scan_ending (.inl rfl) same,
        scan_ending (.inr rfl) same.past, Mode.past_past]
      have rest := ih same.past depth (at_ + '\n'.utf8Size) (at_' + '\r'.utf8Size + '\n'.utf8Size)
      obtain ⟨e, e', failed, failed'⟩ | ⟨e, _, found, found', rfl⟩ := rest.cases
      · rw [failed, failed']
        trivial
      · rw [found, found']
        rfl
    · have more : ∀ {mode mode'}, Mode.Same mode mode' → ∀ depth at_ at_',
          Alike (fun e e' => e' = crlf e) ((scan mode depth at_ s).map (c :: ·))
            ((scan mode' depth at_' (crlf s)).map (c :: ·)) := fun same depth at_ at_' =>
        (ih same depth at_ at_').map fun e e' same => by rw [same, Text.crlf_cons eol]
      rw [Text.crlf_cons eol]
      cases same with
      | outside =>
        rw [scan, scan]
        split
        · exact more .outside ..
        · split
          · split
            · exact (Text.crlf_cons eol []).symm
            · exact more .outside ..
          · split
            · rename_i is_quote
              exact more (.inside is_quote ..) ..
            · exact more .outside ..
      | inside is_quote start start' =>
        rw [scan, scan]
        split
        · exact more (.escaped is_quote ..) ..
        · split
          · exact more .outside ..
          · exact more (.inside is_quote ..) ..
      | escaped is_quote start start' =>
        rw [scan, scan]
        exact more (.inside is_quote ..) ..

end Expression

theorem Text.dropWhile_crlf {p : Char → Bool} (eol : p '\n' = true) (cr : p '\r' = true)
    (s : Text) : (crlf s).dropWhile p = crlf (s.dropWhile p) := by
  induction s with
  | nil => rfl
  | cons c s ih =>
    by_cases is_eol : c = '\n'
    · subst is_eol
      rw [crlf_cons_eol, List.dropWhile_cons_of_pos cr, List.dropWhile_cons_of_pos eol,
        List.dropWhile_cons_of_pos eol, ih]
    · rw [crlf_cons is_eol]
      by_cases taken : p c = true
      · rw [List.dropWhile_cons_of_pos taken, List.dropWhile_cons_of_pos taken, ih]
      · rw [List.dropWhile_cons_of_neg taken, List.dropWhile_cons_of_neg taken, crlf_cons is_eol]

namespace Declaration

variable {f : Nat → Nat}

/-! ### Declarations -/

/-- The text from the first brace on. -/
def braced (ls : List Line) : Text := (Line.join ls).dropWhile (· != '{')

/-- The size of the text before the first brace. -/
def unbraced (ls : List Line) : Nat := Text.bytes ((Line.join ls).takeWhile (· != '{'))

theorem isRest_braced (suffix : l :: ls <:+ Line.split source) :
    source.IsRest (l.start + unbraced (l :: ls)) (braced (l :: ls)) := by
  have whole := Line.isRest suffix
  rw [← List.append_assoc, ← Line.raw, ← Line.join_cons,
    ← List.takeWhile_append_dropWhile (p := (· != '{')) (l := Line.join (l :: ls))] at whole
  exact whole.append

/-- An exported constant goes on to the brace that balances the first one. -/
theorem exportEnd?_cons (l : Line) (ls : List Line) :
    exportEnd? (l :: ls) =
      match Expression.scan .outside 0 (l.start + unbraced (l :: ls)) (braced (l :: ls)) with
      | .ok e => lineAt? (l.start + unbraced (l :: ls) + Text.bytes e - 1) (l :: ls)
      | .error _ => none := by
  have text := List.takeWhile_append_dropWhile (p := (· != '{')) (l := Line.join (l :: ls))
  have size := congrArg List.length text
  rw [List.length_append] at size
  simp only [exportEnd?, List.head?_cons, Option.bind_eq_bind, Option.bind_some,
    Text.drop_length_takeWhile]
  unfold unbraced braced
  split
  · rename_i braceless
    rw [beq_iff_eq] at braceless
    rw [List.length_eq_zero_iff.1 (by omega : List.length (List.dropWhile _ _) = 0)]
    rfl
  · unfold Expression.read
    cases Expression.scan .outside 0 _ _ with
    | ok e => rfl
    | error e => cases e <;> rfl

/-- A constant is exported unless its braces do not balance. -/
theorem exportEnd?_eq_none_iff (suffix : l :: ls <:+ Line.split source) :
    exportEnd? (l :: ls) = none ↔
      ∃ e, Expression.scan .outside 0 (l.start + unbraced (l :: ls)) (braced (l :: ls)) =
        .error e := by
  have rest := isRest_braced suffix
  have outcome : Outcome _ _ (Expression.scan .outside 0 _ _) := Expression.scan_outcome rest trivial
  rw [exportEnd?_cons]
  cases scanned : Expression.scan .outside 0 (l.start + unbraced (l :: ls)) (braced (l :: ls)) with
  | error e => exact ⟨fun _ => ⟨e, rfl⟩, fun _ => rfl⟩
  | ok e =>
    rw [scanned] at outcome
    obtain ⟨begins, body, rfl⟩ := outcome
    have stops := Text.le_bytes_of_isBoundary (rest.holds_of_begins begins).isBoundary_stop
    have filled : 0 < Text.bytes (body ++ ['}']) := by
      rw [Text.bytes_append]
      exact Nat.add_pos_right _ Nat.one_pos
    have within : l.start ≤ l.start + unbraced (l :: ls) + Text.bytes (body ++ ['}']) - 1 := by
      omega
    obtain ⟨chunk, after, -, found, -⟩ := exists_lineAt? suffix within (by omega)
    dsimp only
    rw [found]
    exact ⟨nofun, nofun⟩

/-- A constant is exported exactly if it is with carriage returns. -/
theorem exportEnd?_widened (cr : '\r' ∉ source) (suffix : l :: ls <:+ Line.split source) :
    exportEnd? ((l :: ls).map (Line.widened (Text.widen source))) = none ↔
      exportEnd? (l :: ls) = none := by
  have suffix' := suffix.map (Line.widened (Text.widen source))
  rw [← Line.split_crlf cr, List.map_cons] at suffix'
  have text : braced ((l :: ls).map (Line.widened (Text.widen source))) =
      crlf (braced (l :: ls)) := by
    rw [braced, Line.join_widened _ fun m mem => Line.isBare cr (suffix.subset mem)]
    exact Text.dropWhile_crlf rfl rfl _
  rw [List.map_cons] at text ⊢
  rw [exportEnd?_eq_none_iff suffix, exportEnd?_eq_none_iff suffix', text]
  obtain ⟨e, e', failed, failed'⟩ | ⟨e, e', found, found', -⟩ :=
    (Expression.scan_crlf .outside 0 (l.start + unbraced (l :: ls)) _ (braced (l :: ls))).cases
  · rw [failed, failed']
    exact ⟨fun _ => ⟨e, rfl⟩, fun _ => ⟨e', rfl⟩⟩
  · rw [found, found']
    exact ⟨nofun, nofun⟩

theorem importEnd?_widened : importEnd? (ls.map (Line.widened f)) =
    (importEnd? ls).map (Line.widened f) := by
  induction ls with
  | nil => rfl
  | cons l ls ih =>
    rw [List.map_cons, importEnd?, importEnd?, Line.text_widened, ih]
    split
    · rfl
    · split <;> rfl

theorem isSome_frontMatter?_widened :
    (frontMatter? (ls.map (Line.widened f))).isSome = (frontMatter? ls).isSome := by
  match ls with
  | [] => rfl
  | [_] => rfl
  | first :: second :: rest =>
    rw [Bool.eq_iff_iff, List.map_cons, List.map_cons, isSome_frontMatter?_iff,
      isSome_frontMatter?_iff, ← List.map_cons]
    simp [-List.map_cons]

/-- Carriage returns do not make declarations. -/
theorem declared?_widened {metadata : Bool} (cr : '\r' ∉ source)
    (suffix : l :: ls <:+ Line.split source) :
    declared? metadata (l.widened (Text.widen source))
        (ls.map (Line.widened (Text.widen source))) = none ↔ declared? metadata l ls = none := by
  rw [declared?_eq_none_iff, declared?_eq_none_iff, ← List.map_cons, importEnd?_widened,
    exportEnd?_widened cr suffix, Option.map_eq_none_iff, Line.text_widened]

/-- The scan goes on after the same line. -/
theorem past_widened (cr : '\r' ∉ source) (tagless : '<' ∉ source)
    (suffix : l :: ls <:+ Line.split source) :
    ∀ m ∈ ls, m.start < past l ls ↔ Text.widen source m.start <
      past (l.widened (Text.widen source)) (ls.map (Line.widened (Text.widen source))) := by
  have suffix' := suffix.map (Line.widened (Text.widen source))
  rw [← Line.split_crlf cr, List.map_cons] at suffix'
  have mono := Text.strictMono_widen source
  unfold past
  rw [Line.text_widened]
  split
  · rename_i fence _
    have texts : ∀ m, fence.staysOpen (Line.widened (Text.widen source) m) = fence.staysOpen m :=
      fun _ => rfl
    have closing : (ls.map _).dropWhile fence.staysOpen = _ := Line.dropWhile_widened texts
    cases rest : ls.dropWhile fence.staysOpen with
    | nil =>
      rw [rest] at closing
      intro m mem
      exact iff_of_true (Fence.lt_skip suffix rest m mem)
        (Fence.lt_skip suffix' closing _ (List.mem_map_of_mem mem))
    | cons close after =>
      rw [rest] at closing
      have close_mem : close ∈ ls := by
        refine (List.dropWhile_suffix fence.staysOpen).subset ?_
        rw [rest]
        exact List.mem_cons_self
      rw [Fence.skip_eq_next suffix rest, Fence.skip_eq_next suffix' closing,
        Line.next_widened cr (suffix.subset (List.mem_cons_of_mem l close_mem))]
      exact fun m _ => mono.lt_iff_lt.symm
  · have mem : l ∈ Line.split source := suffix.subset List.mem_cons_self
    have other : ¬ isWidgetStart l.text = true := fun widget =>
      tagless ((Line.holds mem).mem (mem_of_isWidgetStart widget))
    rw [if_neg other, if_neg other, Option.getD_none, Option.getD_none, Line.next_widened cr mem]
    exact fun m _ => mono.lt_iff_lt.symm

/-- A scan that finds nothing finds nothing with carriage returns. -/
theorem scanFrom_widened {metadata : Bool} {resume resume' : Nat} (cr : '\r' ∉ source)
    (tagless : '<' ∉ source) (suffix : ls <:+ Line.split source)
    (resumes : ∀ m ∈ ls, m.start < resume ↔ Text.widen source m.start < resume')
    (nothing : scanFrom metadata resume ls = []) :
    scanFrom metadata resume' (ls.map (Line.widened (Text.widen source))) = [] := by
  induction ls generalizing metadata resume resume' with
  | nil => rfl
  | cons l ls ih =>
    have suffix_ls := (List.suffix_cons l ls).trans suffix
    rw [List.forall_mem_cons] at resumes
    rw [List.map_cons]
    by_cases passed : l.start < resume ∨ Text.isBlank l.text = true
    · have passed' : (l.widened (Text.widen source)).start < resume' ∨
          Text.isBlank (l.widened (Text.widen source)).text = true :=
        passed.imp_left resumes.1.1
      rw [scanFrom_of_passed passed] at nothing
      rw [scanFrom_of_passed passed']
      exact ih suffix_ls resumes.2 nothing
    · rw [not_or, Nat.not_lt, Bool.not_eq_true] at passed
      obtain ⟨reached, filled⟩ := passed
      have reached' : resume' ≤ (l.widened (Text.widen source)).start :=
        Nat.not_lt.1 (mt resumes.1.2 (Nat.not_lt.2 reached))
      have filled' : Text.isBlank (l.widened (Text.widen source)).text = false := filled
      cases found : declared? metadata l ls with
      | some made =>
        rw [scanFrom_of_declared reached filled found] at nothing
        cases nothing
      | none =>
        rw [scanFrom_of_bare reached filled found] at nothing
        rw [scanFrom_of_bare reached' filled' ((declared?_widened cr suffix).2 found)]
        exact ih suffix_ls (past_widened cr tagless suffix) nothing

/-- Carriage returns do not make declarations. -/
theorem scan_crlf (cr : '\r' ∉ source) (tagless : '<' ∉ source) (nothing : scan source = []) :
    scan (crlf source) = [] := by
  rw [scan] at nothing ⊢
  rw [Line.split_crlf cr]
  cases front : frontMatter? (Line.split source) with
  | some made =>
    rw [front] at nothing
    cases nothing
  | none =>
    rw [front] at nothing
    have bare : frontMatter? ((Line.split source).map (Line.widened (Text.widen source))) = none := by
      rw [← Option.not_isSome_iff_eq_none, isSome_frontMatter?_widened, front]
      exact Bool.false_ne_true
    rw [bare]
    exact scanFrom_widened cr tagless (List.suffix_refl _) (fun m _ => by simp) nothing

end Declaration

namespace Document

variable {formats : Formats}

/-- With carriage returns before its line feeds, a source without tags and declarations has the same
blocks, but for spans, or the same fault. -/
theorem parse_crlf (formats : Formats) (cr : '\r' ∉ source) (tagless : '<' ∉ source)
    (nothing : Declaration.scan source = []) :
    Declaration.scan (crlf source) = [] ∧
      ((∃ d d', parse formats source = .ok d ∧ parse formats (crlf source) = .ok d' ∧
          Block.allSpanless d.blocks = Block.allSpanless d'.blocks) ∨
        ∃ e e', parse formats source = .error (.mistake e) ∧
          parse formats (crlf source) = .error (.mistake e') ∧ e.fault = e'.fault) := by
  have nothing' := Declaration.scan_crlf cr tagless nothing
  have tagless' : '<' ∉ (Region.root source).text := by rwa [Region.text_root]
  refine ⟨nothing', ?_⟩
  rw [parse_of_scan_eq_nil nothing, parse_of_scan_eq_nil nothing']
  obtain ⟨h, h', halted, halted', reason⟩ | ⟨bs, bs', read, read', same⟩ :=
    (Block.parse_widened (Region.widened_root cr) maxNesting tagless').cases
  · rw [halted, halted']
    cases h with
    | badCut a b =>
      obtain ⟨body, among, -⟩ := Block.parse_eq_badCut_iff.1 halted
      rw [Block.bodies_eq_nil tagless'] at among
      cases among
    | mistake e =>
      cases h' with
      | badCut a b => exact reason.elim
      | mistake e' => exact .inr ⟨e, e', rfl, rfl, reason⟩
  · rw [read, read']
    exact .inl ⟨_, _, rfl, rfl, same⟩

/-- An expression in two lines of a quote, and a fenced block. -/
theorem parse_crlf_quote :
    let formats : Formats := { json := fun _ => .ok .null, yaml := fun _ => .ok .null }
    let source := "> \x7ba\n> b\x7d\n```\nc\n```".toList
    ('\r' ∉ source ∧ '<' ∉ source ∧ Declaration.scan source = []) ∧
      Declaration.scan (crlf source) = [] ∧
        ∃ d d', parse formats source = .ok d ∧ parse formats (crlf source) = .ok d' ∧
          Block.allSpanless d.blocks = Block.allSpanless d'.blocks := by
  intro formats source
  have cr : '\r' ∉ source := by decide
  have tagless : '<' ∉ source := by decide
  have nothing : Declaration.scan source = [] := by decide
  have isOk : (parse formats source).isOk = true := by decide
  obtain ⟨nothing', both | ⟨e, -, failed, -⟩⟩ := parse_crlf formats cr tagless nothing
  · exact ⟨⟨cr, tagless, nothing⟩, nothing', both⟩
  · rw [failed] at isOk
    cases isOk

end Document
end Folio
