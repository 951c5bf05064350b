import Folio.Proofs.Markup.Listings
import Folio.Proofs.Markup.Snippets
import Folio.Proofs.Render.OneWidget

/-!
# Fenced code as a text of its own

Between two lines of marks stands code, and nothing in it is read: no declaration, no tag, no expression
and no other fence. Each of the three that go through a text takes the fence as a whole: the scan for
declarations, the reading of blocks, and with it the compilation.

* `FencedText`: a line of marks with an info string, the code, and a line of as many marks;
* `FencedText.exists_split`: its lines;
* `FencedText.inert`: it declares nothing, and is read and compiled to its code.
-/

namespace Folio

/-! ### The opening line -/

namespace Fence

variable {marker : Char} {n : Nat} {info : Text}

/-- Some marks and an info string that holds no backtick and starts with a letter open a fence. -/
theorem open?_described (marks : marker = '\x60' ∨ marker = '~') (long : 3 ≤ n)
    (letter : info.head?.all Char.isAlpha = true) (trimmed : Text.trim info = info)
    (backtick : '\x60' ∉ info) :
    open? (List.replicate n marker ++ info) =
      some { marker, length := n, indent := 0
             info := if info.isEmpty then none else some (String.ofList info) } := by
  obtain ⟨m, cons⟩ := exists_replicate long marker
  have visible : ¬ isIndent marker = true := by simp [visible_mark marks]
  have flush : indentation (List.replicate n marker ++ info) = 0 := by
    rw [indentation, cons, List.cons_append, List.takeWhile_cons_of_neg visible]
    rfl
  have unindented : unindent? (List.replicate n marker ++ info) = some (List.replicate n marker ++ info) := by
    rw [unindent?, flush, if_neg (by omega), cons, List.cons_append, List.dropWhile_cons_of_neg visible]
  have first : (List.replicate n marker ++ info).head? = some marker := by
    rw [cons]
    rfl
  have known : (marker != '\x60' && marker != '~') = false := by
    rcases marks with rfl | rfl <;> rfl
  -- a mark is no letter, so the info string does not make the run of marks longer
  have other : info.head? ≠ some marker := by
    intro begins
    rw [begins] at letter
    rcases marks with rfl | rfl <;> cases letter
  have run := takeWhile_replicate_append n other
  have rest : (List.replicate n marker ++ info).drop n = info := by
    have drop : (List.replicate n marker ++ info).drop (List.replicate n marker).length = info :=
      List.drop_left
    rwa [List.length_replicate] at drop
  have short : ¬ n < 3 := by omega
  unfold open?
  rw [unindented]
  simp only [Option.bind_eq_bind, Option.bind_some, first, known, run, List.length_replicate, rest, trimmed,
    flush]
  simp [short, backtick]

end Fence

/-- The lines of a text, each with a line feed, are the text with a line feed. -/
theorem flatMap_splitOn_eol (s : Text) : (s.splitOn '\n').flatMap (· ++ ['\n']) = s ++ ['\n'] := by
  have joined : ['\n'].intercalate (s.splitOn '\n') = s := List.intercalate_splitOn '\n'
  cases lines : s.splitOn '\n' using List.reverseRecOn with
  | nil => exact absurd lines (List.splitOn_ne_nil _ _)
  | append_singleton ts t =>
    rw [lines, intercalate_append_cons, List.flatMap_nil, List.append_nil] at joined
    rw [List.flatMap_append, List.flatMap_singleton, ← joined, List.append_assoc]

theorem not_mem_of_mem_splitOn {s t : Text} {sep : Char} (mem : t ∈ s.splitOn sep) : sep ∉ t := by
  induction s generalizing t with
  | nil =>
    rw [List.splitOn_nil, List.mem_singleton] at mem
    subst mem
    exact List.not_mem_nil
  | cons c s ih =>
    rw [List.splitOn_cons_eq_if_modifyHead] at mem
    split at mem
    · rcases List.mem_cons.1 mem with rfl | mem
      · exact List.not_mem_nil
      · exact ih mem
    · rename_i other
      obtain ⟨u, us, pieces⟩ := List.exists_cons_of_ne_nil (List.splitOn_ne_nil sep s)
      rw [pieces, List.modifyHead_cons] at mem
      rcases List.mem_cons.1 mem with rfl | mem
      · rw [List.mem_cons, not_or]
        exact ⟨fun same => other (by simp [same]), ih (by rw [pieces]; exact List.mem_cons_self)⟩
      · exact ih (by rw [pieces]; exact List.mem_cons_of_mem u mem)

/-- A text without white space at its ends does not end in white space. -/
theorem Text.isBlankChar_of_getLast?_trim {s : Text} {c : Char} (last : (trim s).getLast? = some c) :
    isBlankChar c = false := by
  rw [trim, trimEnd, trimEndOf, List.getLast?_reverse] at last
  have stop := List.head?_dropWhile_not isBlankChar (trimStart s).reverse
  rwa [last] at stop

/-! ### Fenced texts -/

/-- Fenced code as a text of its own: the marker and the number of marks, the info string of the first line,
and the code, of which no line closes the fence. -/
structure FencedText where
  marker : Char
  length : Nat
  info : Text
  code : Text
  marks : marker = '\x60' ∨ marker = '~'
  long : 3 ≤ length
  letter : info = [] ∨ info.head?.any Char.isAlpha = true
  trimmed : Text.trim info = info
  infoLine : '\n' ∉ info ∧ '\x60' ∉ info
  carriage : '\r' ∉ code
  unclosed : ∀ t ∈ code.splitOn '\n', Fence.closes { marker, length, indent := 0, info := none } t = false

namespace FencedText

variable (x : FencedText) {formats : Formats} {caps : CapabilitySet}

/-- The line of marks that closes the code. -/
def bar : Text := List.replicate x.length x.marker

/-- The line of marks before the code, with the info string. -/
def opening : Text := x.bar ++ x.info

/-- The text: the opening line, the code and the closing line, with line feeds between. -/
def text : Text := x.opening ++ '\n' :: (x.code ++ '\n' :: x.bar)

/-- The info string, if there is one. -/
def info? : Option String := if x.info.isEmpty then none else some (String.ofList x.info)

/-- The code as it is read: each line has a line feed. -/
def content : String := String.ofList (x.code ++ ['\n'])

/-- The fence that the opening line opens. -/
def fence : Fence := { marker := x.marker, length := x.length, indent := 0, info := x.info? }

/-! #### Lines -/

theorem open?_opening : Fence.open? x.opening = some x.fence := by
  refine Fence.open?_described x.marks x.long ?_ x.trimmed x.infoLine.2
  rcases x.letter with empty | letter
  · rw [empty]
    rfl
  · obtain ⟨c, first, alpha⟩ := (Option.any_eq_true _ _).1 letter
    rw [first]
    exact alpha

theorem closes_bar : x.fence.closes x.bar = true := by
  have closes : x.fence.closes (indented 0 (List.replicate x.length x.marker)) = true :=
    Fence.closes_marks x.marks x.long (Nat.zero_le 3) rfl (Nat.le_refl _)
  exact closes

theorem isWhole_bar : Line.IsWhole x.bar .lf where
  eol := by
    rw [bar, List.mem_replicate]
    rintro ⟨-, eol⟩
    rcases x.marks with mark | mark <;> rw [← eol] at mark <;> cases mark
  ending := by
    intro _ last
    have mark := List.eq_of_mem_replicate (List.mem_of_getLast? last)
    rcases x.marks with mark' | mark' <;> rw [← mark] at mark' <;> cases mark'

theorem isWhole_opening : Line.IsWhole x.opening .lf where
  eol := by
    rw [opening, List.mem_append, not_or]
    exact ⟨x.isWhole_bar.eol, x.infoLine.1⟩
  ending := by
    intro lf last
    rw [opening, List.getLast?_append, Option.or_eq_some_iff] at last
    rcases last with last | ⟨-, last⟩
    · rw [← x.trimmed] at last
      cases Text.isBlankChar_of_getLast?_trim last
    · exact x.isWhole_bar.ending lf last

theorem isWhole_of_mem_code {t : Text} (mem : t ∈ x.code.splitOn '\n') : Line.IsWhole t .lf where
  eol := not_mem_of_mem_splitOn mem
  ending := by
    intro _ last
    have among : '\r' ∈ (x.code.splitOn '\n').flatMap (· ++ ['\n']) :=
      List.mem_flatMap.2 ⟨t, mem, List.mem_append_left _ (List.mem_of_getLast? last)⟩
    rw [flatMap_splitOn_eol, List.mem_append, List.mem_singleton] at among
    exact x.carriage (among.resolve_right (by decide))

/-- The lines of the text: the opening line, those of the code, and the closing line. -/
theorem exists_split :
    ∃ l ls close, Line.split x.text = l :: (ls ++ [close]) ∧ l.text = x.opening ∧
      ls.map Line.text = x.code.splitOn '\n' ∧ close.pair = (x.bar, .none) := by
  have whole : ∀ t ∈ x.opening :: x.code.splitOn '\n', Line.IsWhole t .lf :=
    List.forall_mem_cons.2 ⟨x.isWhole_opening, fun t mem => x.isWhole_of_mem_code mem⟩
  obtain ⟨m, filled⟩ := Fence.exists_replicate x.long x.marker
  have last : Line.Divided [(x.bar, LineEnding.none)] :=
    ⟨⟨x.isWhole_bar.eol, nofun⟩, fun _ => ⟨by rw [bar, filled]; exact List.cons_ne_nil _ _, rfl⟩, trivial⟩
  have lines := Line.map_pair_split_append whole last
  have text : (x.opening :: x.code.splitOn '\n').flatMap (· ++ ['\n']) ++
      [(x.bar, LineEnding.none)].flatMap (fun q => q.1 ++ q.2.text) = x.text := by
    rw [List.flatMap_cons, flatMap_splitOn_eol]
    simp [FencedText.text]
  rw [text, List.map_cons, List.cons_append] at lines
  obtain ⟨l, more, split, opened, lines⟩ := List.map_eq_cons_iff.1 lines
  obtain ⟨ls, last, rfl, inside, lines⟩ := List.map_eq_append_iff.1 lines
  obtain ⟨close, none, rfl, closed, nil⟩ := List.map_eq_cons_iff.1 lines
  obtain rfl := List.map_eq_nil_iff.1 nil
  refine ⟨l, ls, close, split, congrArg Prod.fst opened, ?_, closed⟩
  rw [Line.map_text_eq_map_pair, inside, List.map_map]
  exact List.map_id' _

/-! #### What goes through the text -/

section Split

variable {x} {l close : Line} {ls : List Line} (split : Line.split x.text = l :: (ls ++ [close]))
  (opens : l.text = x.opening) (code : ls.map Line.text = x.code.splitOn '\n')
  (closes : close.pair = (x.bar, .none))

include code in
theorem not_closes : ∀ m ∈ ls, x.fence.closes m.text = false := fun m mem =>
  x.unclosed m.text (code ▸ List.mem_map_of_mem mem)

include closes in
theorem closes_last : x.fence.closes close.text = true := by
  rw [show close.text = x.bar from congrArg Prod.fst closes]
  exact x.closes_bar

include opens in
theorem head?_opening :
    (Text.trimStart l.text).head? = some '\x60' ∨ (Text.trimStart l.text).head? = some '~' :=
  Fence.head?_of_open? (by rw [opens, open?_opening])

include opens in
theorem isBlank_opening : Text.isBlank l.text = false := by
  rcases head?_opening opens with first | first <;> exact isBlank_of_head? first

include split in
/-- All lines start before the end of the closing line. -/
theorem start_lt_next : ∀ m ∈ ls ++ [close], m.start < close.next := by
  have suffix : l :: ((ls ++ [close]) ++ []) <:+ Line.split x.text := by
    rw [List.append_nil, split]
  have last : (l :: (ls ++ [close])).getLast?.getD l = close := by
    rw [← List.cons_append, List.getLast?_concat, Option.getD_some]
  have before := (Line.next_of_getLast? suffix).1
  rw [last] at before
  exact fun m mem => (before m (List.mem_cons_of_mem l mem)).1

include split opens code closes

/-- The scan passes over all lines after the opening one. -/
theorem past_eq_next : Declaration.past l (ls ++ [close]) = close.next := by
  have unclosed : (ls ++ [close]).dropWhile x.fence.staysOpen = [close] := by
    rw [List.dropWhile_append_of_pos, List.dropWhile_cons_of_neg]
    · simp [Fence.staysOpen, closes_last closes]
    · intro m mem
      simp [Fence.staysOpen, not_closes code m mem]
  rw [Declaration.past, opens, open?_opening]
  exact Fence.skip_eq_next (s := x.text) (by rw [split]) unclosed

/-- Between the marks nothing is declared. -/
theorem scan_eq_nil : Declaration.scan x.text = [] := by
  have front : Declaration.frontMatter? (l :: (ls ++ [close])) = none := by
    refine Declaration.frontMatter?_eq_none ?_
    rintro m ⟨⟩ dash
    obtain ⟨t, text⟩ := List.head?_eq_some_iff.1 dash
    rcases head?_opening opens with first | first <;> rw [text] at first <;> cases first
  have bare : Declaration.declared? true l (ls ++ [close]) = none :=
    Declaration.declared?_eq_none_iff.2 (.inl (by rw [opens, open?_opening]; rfl))
  unfold Declaration.scan
  rw [split]
  dsimp only
  rw [front]
  dsimp only
  rw [Declaration.scanFrom_of_bare (Nat.zero_le _) (isBlank_opening opens) bare,
    past_eq_next split opens code closes,
    Declaration.scanFrom_of_all_passed fun m mem => .inl (start_lt_next split m mem)]

/-- The text is read to one block of code. -/
theorem parse_eq (formats : Formats) : Document.parse formats x.text =
    .ok (.ofBlocks [.code x.info? x.content ((Region.root x.text).span l.start close.stop)]) := by
  have opening : Block.opening l.text = .fence x.fence := by
    rw [Block.opening, opens, open?_opening]
  have read := blockAt_code (Block.parse innerNesting []) (Region.root x.text) opening rfl (not_closes code)
    (closes_last closes) []
  have content : codeOf (ls.map Line.text) = x.content := by
    rw [code, codeOf, flatMap_splitOn_eol, FencedText.content]
  rw [Document.parse_of_scan_eq_nil (scan_eq_nil split opens code closes), Block.parse_root, split,
    Block.blocksFrom_cons (Nat.zero_le _) rfl (isBlank_opening opens), read, content]
  dsimp only [bind, Except.bind]
  rw [Block.blocksFrom_of_all_passed fun m mem => .inl (start_lt_next split m mem)]
  rfl

end Split

/-- The block is the whole text. -/
theorem span_eq {l close : Line} {ls : List Line} (split : Line.split x.text = l :: (ls ++ [close]))
    (closes : close.pair = (x.bar, .none)) :
    (Region.root x.text).span l.start close.stop = ⟨0, Text.bytes x.text⟩ := by
  have start : l.start = 0 := Line.start_of_split (show Line.split x.text = [] ++ l :: _ from split)
  have stop : close.stop = Text.bytes x.text := by
    have lines : Line.split x.text = (l :: ls) ++ close :: [] := split
    rw [Line.eq_join_append lines, Text.bytes_append, ← Line.start_of_split lines, Line.join_cons, Line.raw,
      show close.ending = .none from congrArg Prod.snd closes]
    simp [Line.stop, Line.join]
  -- the last character of the text is a mark
  obtain ⟨m, marks⟩ : ∃ m, x.bar = List.replicate m x.marker ++ [x.marker] := by
    obtain ⟨m, filled⟩ := Fence.exists_replicate x.long x.marker
    exact ⟨m, by rw [bar, filled, ← List.replicate_succ, List.replicate_succ']⟩
  have last : x.text =
      (x.opening ++ '\n' :: (x.code ++ '\n' :: List.replicate m x.marker)) ++ [x.marker] := by
    simp [text, marks]
  have held : x.text.Holds 0 x.text := ⟨[], [], by simp, rfl⟩
  have closed : (Region.root x.text).text.Closes 0 (0 + Text.bytes x.text) := by
    rw [Region.text_root]
    rw [last] at held ⊢
    exact held.closes (by rcases x.marks with mark | mark <;> rw [mark] <;> rfl)
      (by rcases x.marks with mark | mark <;> rw [mark] <;> rfl)
  rw [Nat.zero_add] at closed
  rw [start, stop, (Region.faithful_root _).span_of_closes closed, Region.toSource_root,
    Region.toSource_root, Nat.min_self, Nat.zero_min]

/-- **Fenced code is inert.** Whatever stands between the marks, the text declares nothing, so that stripping
leaves it as it is; it is read as one block of code, with the info string and the code; and it compiles, with
any capabilities, to this code as the only text. -/
theorem inert (formats : Formats) (caps : CapabilitySet) :
    Declaration.scan x.text = [] ∧ strip x.text = x.text ∧
      Document.parse formats x.text =
        .ok (.ofBlocks [.code x.info? x.content ⟨0, Text.bytes x.text⟩]) ∧
      compile formats caps x.text = .tree {
        nodes := [.el "pre" [.element "code" (Evaluation.codeAttributes x.info?) [.text x.content]]]
        metadata := none } := by
  obtain ⟨l, ls, close, split, opens, code, closes⟩ := x.exists_split
  have nothing := scan_eq_nil split opens code closes
  have read := parse_eq split opens code closes formats
  rw [x.span_eq split closes] at read
  have made : Evaluation.block formats caps (.code x.info? x.content ⟨0, Text.bytes x.text⟩) =
      .ok (.el "pre" [.element "code" (Evaluation.codeAttributes x.info?) [.text x.content]]) := by
    rw [Evaluation.block]
  refine ⟨nothing, strip_of_scan_eq_nil nothing, read, ?_⟩
  rw [compile_of_scan_eq_nil formats caps nothing read, Document.evaluate_of_block rfl made]

/-- Code that looks like an import, a tag, an expression and a shorter fence. -/
def sample : FencedText where
  marker := '\x60'
  length := 4
  info := "js run".toList
  code := "import A from 'a'\n\n<Box>\x7b[\n\x60\x60\x60\n".toList
  marks := .inl rfl
  long := by decide
  letter := .inr rfl
  trimmed := by decide
  infoLine := by decide
  carriage := by decide
  unclosed := by decide

theorem inert_sample :
    let formats : Formats := { json := fun _ => .ok .null, yaml := fun _ => .ok .null }
    sample.text = "\x60\x60\x60\x60js run\nimport A from 'a'\n\n<Box>\x7b[\n\x60\x60\x60\n\n\x60\x60\x60\x60".toList ∧
      strip sample.text = sample.text ∧
      Document.parse formats sample.text = .ok (.ofBlocks [.code (some "js run")
        "import A from 'a'\n\n<Box>\x7b[\n\x60\x60\x60\n\n" ⟨0, 47⟩]) := by
  intro formats
  obtain ⟨-, stripped, read, -⟩ := inert sample formats .empty
  have info : sample.info? = some "js run" := rfl
  have content : sample.content = "import A from 'a'\n\n<Box>\x7b[\n\x60\x60\x60\n\n" := rfl
  have size : Text.bytes sample.text = 47 := by decide
  rw [info, content, size] at read
  exact ⟨by decide, stripped, read⟩

end FencedText
end Folio
