import Folio.Proofs.Editor.InsertedLines
import Folio.Proofs.Markup.BlockReading
import Folio.Proofs.Render.Stock

/-!
# Commands for blocks

A rule, a widget and fenced code are put into a document of words after a selection, the code around
the selected text. What the parser makes of them is said for every document of words and every
selection in a line of it.
-/

namespace Folio

/-! ### Paragraphs of text -/

/-- The paragraphs that lines of text make up. -/
def textParagraphs (us : List Text) : List Block := paragraphs (us.map texts)

theorem readings_intercalate (cs : List (List Inline)) :
    Inline.readings ([.softBreak].intercalate cs) = cs.flatMap Inline.readings := by
  induction cs with
  | nil => rfl
  | cons c cs ih =>
    cases cs with
    | nil => simp
    | cons c' cs =>
      rw [List.intercalate_cons_cons, Inline.readings_append, Inline.readings_append, ih]
      simp [Inline.readings, Inline.reading]

/-- Paragraphs say what their lines say. -/
theorem readings_paragraphs (cs : List (List Inline)) :
    Block.readings (paragraphs cs) = cs.flatMap Inline.readings := by
  induction size : cs.length using Nat.strong_induction_on generalizing cs with
  | _ n ih =>
    subst size
    cases cs with
    | nil => rfl
    | cons c cs =>
      by_cases empty : c = []
      · subst empty
        rw [paragraphs_gap, ih cs.length (Nat.lt_succ_self _) cs rfl]
        rfl
      · -- a run of lines with content is one paragraph
        let chunk := cs.takeWhile (!·.isEmpty)
        let later := cs.dropWhile (!·.isEmpty)
        have parts : c :: cs = (c :: chunk) ++ later := by
          rw [List.cons_append, List.takeWhile_append_dropWhile]
        have filled : ∀ c' ∈ c :: chunk, c' ≠ [] := by
          refine List.forall_mem_cons.2 ⟨empty, fun c' mem => ?_⟩
          have kept := List.all_eq_true.1 List.all_takeWhile c' mem
          rintro rfl
          cases kept
        have ends : ∀ c' ∈ later.head?, c' = [] := by
          intro c' first
          have stop := List.head?_dropWhile_not (!·.isEmpty) cs
          rw [show (cs.dropWhile (!·.isEmpty)).head? = some c' from first] at stop
          simpa using stop
        have shorter : later.length < (c :: cs).length :=
          Nat.lt_succ_of_le (List.length_dropWhile_le _ cs)
        rw [parts, paragraphs_chunk (List.cons_ne_nil _ _) filled ends, Block.readings, Block.reading,
          readings_intercalate, ih later.length shorter later rfl, List.flatMap_append]

theorem readings_textParagraphs (us : List Text) :
    Block.readings (textParagraphs us) = us.flatten := by
  have each : ∀ t : Text, Inline.readings (texts t) = t := by
    intro t
    unfold texts
    split
    · rename_i empty
      rw [empty]
      rfl
    · simp [Inline.readings, Inline.reading]
  rw [textParagraphs, readings_paragraphs, List.flatMap_map]
  simp only [each]
  exact List.flatMap_id

/-! ### Templates -/

/-- The template of a widget is lines that can be put between others and are one block. -/
structure IsTemplate (template : String) (qs : List (Text × LineEnding)) (block : Block) : Prop where
  text : template.toList = qs.flatMap fun q => q.1 ++ q.2.text
  insertable : ∀ q ∈ qs, isInsertable q = true
  snippet : ∀ us, IsSnippet qs us block
  filled : qs ≠ []

section Templates

variable {name : Text} {ps : List PlainProp} {template : String}

/-- A name and props that can be read back, as it can be computed. -/
def isWritable (name : Text) (ps : List PlainProp) : Bool :=
  name.head?.any isUpper && name.all isNameChar && ps.all fun p =>
    p.1.head?.any TagToken.isNameStart && p.1.all isNameChar &&
      p.2.all fun v => !v.contains '"' && !v.contains '\\'

theorem of_isWritable (h : isWritable name ps = true) : IsTagName name ∧ ∀ p ∈ ps, p.IsPlain := by
  simp only [isWritable, Bool.and_eq_true, List.all_eq_true, Option.all_eq_true] at h
  obtain ⟨⟨starts, chars⟩, props⟩ := h
  refine ⟨⟨starts, chars⟩, fun p mem => ?_⟩
  obtain ⟨⟨starts, chars⟩, value⟩ := props p mem
  exact ⟨starts, chars, fun v given => by simpa using value v given⟩

theorem isTemplate_selfClosing (writable : isWritable name ps = true)
    (text : template.toList = OpenTag.write name ps true ++ ['\n'])
    (insertable : isInsertable (OpenTag.write name ps true, .lf) = true) :
    IsTemplate template [(OpenTag.write name ps true, .lf)] (.widget (plainTag name ps) true []) where
  text := by
    rw [text]
    simp
  insertable := List.forall_mem_singleton.2 insertable
  snippet := isSnippet_selfClosing (of_isWritable writable).1 (of_isWritable writable).2
  filled := List.cons_ne_nil _ _

theorem isTemplate_enclosing {inside : List Text} {children : List Block}
    (writable : isWritable name ps = true)
    (text : template.toList = (enclosing name ps inside).flatMap fun q => q.1 ++ q.2.text)
    (insertable : (enclosing name ps inside).all isInsertable = true)
    (bare : ClosingTag.IsBare (bodyText inside))
    (content : (Block.dedent (Region.root (bodyText inside)) >>= Block.parse innerNesting []).map
      Block.allSpanless = .ok children) :
    IsTemplate template (enclosing name ps inside) (.widget (plainTag name ps) false children) where
  text := text
  insertable := List.all_eq_true.1 insertable
  snippet := isSnippet_enclosing (of_isWritable writable).1 (of_isWritable writable).2 bare content
  filled := List.cons_ne_nil _ _

end Templates

theorem Fields.exists_get?_of_mem_names {α : Type} {fs : Fields α} {name : String}
    (mem : name ∈ names fs) : ∃ value, get? name fs = some value := by
  fun_induction get? name fs with
  | case1 => cases mem
  | case2 => exact ⟨_, rfl⟩
  | case3 k v fs other ih => exact ih ((List.mem_cons.1 mem).resolve_left other)

namespace Builtin

/-- What a widget's template is. -/
def HasTemplate (w : Widget) : Prop :=
  ∃ qs tag selfClosing us, tag.name = w.name ∧
    IsTemplate w.template qs (.widget tag selfClosing (textParagraphs us))

theorem hasTemplate_button : HasTemplate button := by
  let ps : List PlainProp := [("href".toList, some "https://example.com".toList),
    ("label".toList, some "Learn more".toList)]
  exact ⟨_, plainTag "Button".toList ps, true, [], rfl,
    isTemplate_selfClosing (by decide) (by decide) (by decide)⟩

theorem hasTemplate_figure : HasTemplate figure := by
  let ps : List PlainProp := [("src".toList, some "/images/example.png".toList),
    ("caption".toList, some "Caption".toList)]
  exact ⟨_, plainTag "Figure".toList ps, true, [], rfl,
    isTemplate_selfClosing (by decide) (by decide) (by decide)⟩

theorem hasTemplate_video : HasTemplate video := by
  let ps : List PlainProp := [("src".toList, some "/videos/example.mp4".toList),
    ("controls".toList, none)]
  exact ⟨_, plainTag "Video".toList ps, true, [], rfl,
    isTemplate_selfClosing (by decide) (by decide) (by decide)⟩

theorem hasTemplate_columns : HasTemplate columns := by
  let left : Text := ['L', 'e', 'f', 't', ' ', 'c', 'o', 'l', 'u', 'm', 'n']
  let right : Text := ['R', 'i', 'g', 'h', 't', ' ', 'c', 'o', 'l', 'u', 'm', 'n']
  let inside : List Text := [[], left, [], right, []]
  have words : ∀ t ∈ [] :: inside, Text.IsTail t := by
    have each : ([] :: inside).all (fun t => decide (Text.IsWords t)) = true := by decide
    exact fun t mem => (of_decide_eq_true (List.all_eq_true.1 each t mem)).isTail
  have dedented : (Block.dedent (Region.root (bodyText inside))).map Region.text =
      .ok (bodyText inside) := by decide
  have content := content_of_rows (([] :: inside).map wordRow) dedented (by decide)
    (rows_of_words words)
  exact ⟨_, plainTag "Columns".toList [], false, [] :: inside, rfl,
    isTemplate_enclosing (by decide) (by decide) (by decide) (by decide) content⟩

theorem hasTemplate_callout : HasTemplate callout := by
  let note : Text := ['Y', 'o', 'u', 'r', ' ', 'n', 'o', 't', 'e', ' ', 'h', 'e', 'r', 'e', '.']
  let ps : List PlainProp := [("kind".toList, some "info".toList)]
  let indented : List Text := [' ' :: ' ' :: note]
  have phrase : Style.IsPhrase note := by
    have plain : note.all (fun c => !Token.isSpecial c) = true := by decide
    exact ⟨fun c mem => by simpa using List.all_eq_true.1 plain c mem, rfl, rfl⟩
  have line : (wordRow note).IsLine :=
    ⟨isQuiet_of_head? (show _ = some 'Y' from rfl) rfl, Inline.sentence_of_phrase phrase, rfl⟩
  have rows : Rows [wordRow [], wordRow note] := by
    refine .of_isPlain ?_ ?_
    · rw [List.forall_mem_cons, List.forall_mem_singleton]
      exact ⟨.inl ⟨rfl, rfl⟩, .inr line⟩
    · rw [List.forall_mem_cons, List.forall_mem_singleton]
      exact ⟨fun content => absurd rfl content, fun _ => ⟨phrase, rfl⟩⟩
  have dedented : (Block.dedent (Region.root (bodyText indented))).map Region.text =
      .ok ('\n' :: note) := by decide
  have content := content_of_rows _ dedented (by decide) rows
  exact ⟨_, plainTag "Callout".toList ps, false, [[], note], rfl,
    isTemplate_enclosing (by decide) (by decide) (by decide) (by decide) content⟩

/-- The templates of all stock widgets. -/
theorem hasTemplate {w : Widget} (mem : w ∈ all) : HasTemplate w := by
  simp only [all, List.mem_cons, List.not_mem_nil, or_false] at mem
  rcases mem with rfl | rfl | rfl | rfl | rfl
  · exact hasTemplate_button
  · exact hasTemplate_callout
  · exact hasTemplate_columns
  · exact hasTemplate_figure
  · exact hasTemplate_video

/-- A name of the stock widgets is the name of one of them. -/
theorem exists_get? {name : String} (mem : name ∈ CapabilitySet.builtins.names) :
    ∃ w ∈ all, w.name = name ∧ CapabilitySet.builtins.get? name = some w := by
  obtain ⟨w, found⟩ := Fields.exists_get?_of_mem_names mem
  obtain ⟨w', among, same⟩ :=
    List.mem_map.1 (Fields.mem_of_mem_ofList (Fields.mem_of_get?_eq_some found))
  obtain ⟨rfl, rfl⟩ := Prod.mk.inj same
  exact ⟨w', among, rfl, found⟩

end Builtin

/-! ### Commands -/

section Commands

variable {s : Text} {formats : Formats} {caps : CapabilitySet} {qs : List (Text × LineEnding)}
  {block : Block}

namespace Pick

variable (p : Pick s)

/-- The end of a selection. -/
theorem exists_getLast? : ∃ c, p.inside.getLast? = some c ∧ c ≠ '\n' := by
  obtain ⟨c, last, letter⟩ := (Option.any_eq_true _ _).1 p.stops
  refine ⟨c, last, ?_⟩
  rintro rfl
  cases letter

/-- The line up to the end of the selection. -/
theorem isTail_upTo (plain : s.IsPlainDocument) : (p.before ++ p.inside).IsTail := by
  have picked := p.isPicked plain
  refine ⟨List.forall_mem_append.2 ⟨picked.chars_before, picked.chars⟩, ?_⟩
  obtain ⟨c, last, letter⟩ := (Option.any_eq_true _ _).1 p.stops
  rw [List.getLast?_append, last]
  exact letter

/-- The line up to the end of the selection and an empty line. -/
def upTo : List (Text × LineEnding) := [(p.before ++ p.inside, .lf), ([], .lf)]

/-- The text after a piece has been put in on lines of its own. -/
theorem text_insert_ownLine (qs : List (Text × LineEnding)) :
    (Edit.insert (Edit.ownLine (qs.flatMap fun q => q.1 ++ q.2.text) s p.selection) s
        p.selection).text =
      Line.join p.earlier ++ (((p.upTo ++ qs).flatMap fun q => q.1 ++ q.2.text) ++ p.back) := by
  have own := Edit.ownLine_parts p.front p.inside p.back (qs.flatMap fun q => q.1 ++ q.2.text)
    p.exists_getLast?
  rw [← p.source_eq, ← p.selection_eq] at own
  have put := Edit.insert_parts p.front p.inside p.back
    ('\n' :: '\n' :: qs.flatMap fun q => q.1 ++ q.2.text)
  rw [← p.source_eq, ← p.selection_eq] at put
  rw [own, put, front]
  simp [upTo]

end Pick

theorem isInsertable_of_words {t : Text} (words : ∀ c ∈ t, Text.isWordChar c = true) :
    isInsertable (t, .lf) = true :=
  isInsertable_of_chars (fun c mem => isDeclaring_of_isWordChar (words c mem))
    (fun mem => absurd (words _ mem) (by decide)) fun mem => absurd (words _ mem) (by decide)

/-- A block on lines of its own after a selection stands between the paragraphs of the lines up to
there and of what comes after. -/
theorem Document.parse_ownLine (formats : Formats) (plain : s.IsPlainDocument) (p : Pick s)
    (insertable : ∀ q ∈ qs, isInsertable q = true) (snippet : ∀ us, IsSnippet qs us block)
    (filled : qs ≠ []) :
    (parse formats (Edit.insert (Edit.ownLine (qs.flatMap fun q => q.1 ++ q.2.text) s p.selection) s
        p.selection).text).map spanless =
      .ok (ofBlocks (textParagraphs p.above ++ block :: textParagraphs p.below)) := by
  have tail := p.isTail_upTo plain
  have picked := p.isPicked plain
  have earlier := isTail_of_mem plain (show p.earlier ⊆ Line.split s by rw [p.lines]; simp)
  have starts : body (p.before ++ p.inside) = p.before ++ p.inside := by
    refine body_of_starts ?_
    have starts := picked.words.starts
    rw [← List.append_assoc, List.head?_append] at starts
    cases first : (p.before ++ p.inside).head? with
    | none => rfl
    | some c => rwa [first, Option.some_or] at starts
  have insertable' : ∀ q ∈ p.upTo ++ qs, isInsertable q = true := by
    rw [Pick.upTo, List.forall_mem_append, List.forall_mem_cons, List.forall_mem_singleton]
    exact ⟨⟨isInsertable_of_words tail.chars, rfl⟩, insertable⟩
  have dash : ∀ q ∈ (p.upTo ++ qs).head?, '-' ∉ q.1 := by
    rintro q ⟨⟩ mem
    exact absurd (tail.chars _ mem) (by decide)
  have rows : Rows ((p.earlier.map Line.text).map wordRow ++
      [wordRow (p.before ++ p.inside), wordRow []]) := by
    have words : ∀ t ∈ p.earlier.map Line.text ++ [p.before ++ p.inside, []], t.IsTail := by
      rw [List.forall_mem_append, List.forall_mem_cons, List.forall_mem_singleton]
      exact ⟨earlier, tail, nofun, rfl⟩
    simpa using rows_of_words words
  have read := parse_inserted formats plain p _ insertable' dash rfl rows snippet filled
  rw [p.text_insert_ownLine, read]
  have above : paragraphs (lineTexts p.earlier ++ [texts (p.before ++ p.inside), []]) =
      textParagraphs p.above := by
    have gap := paragraphs_append_gap (lineTexts p.earlier ++ [texts (p.before ++ p.inside)]) []
    rw [List.append_assoc, paragraphs_nil, List.append_nil] at gap
    rw [textParagraphs, Pick.above, List.map_append, List.map_map]
    exact gap
  show Except.ok (ofBlocks (paragraphs (lineTexts p.earlier ++
    [texts (body (p.before ++ p.inside)), []]) ++ block :: textParagraphs p.below)) = _
  rw [starts, above]

/-! ### Code -/

namespace Pick

variable (p : Pick s)

/-- The lines with the selection when fences are put around it. -/
def fenced : List (Text × LineEnding) :=
  [(p.before ++ backticks, .lf), (p.inside, .lf), fenceLine]

/-- The text after fences have been put around the selection. -/
theorem text_codeBlock (caps : CapabilitySet) :
    ∃ edit, Command.codeBlock.apply caps s p.selection = .ok edit ∧
      edit.text = Line.join p.earlier ++ ((p.fenced.flatMap fun q => q.1 ++ q.2.text) ++ p.back) := by
  refine ⟨_, rfl, ?_⟩
  have opening : "```\n".toList = backticks ++ ['\n'] := by decide
  have closing : "\n```\n".toList = '\n' :: (backticks ++ ['\n']) := by decide
  have wrapped := Edit.wrap_parts p.front p.inside p.back (backticks ++ ['\n'])
    ('\n' :: (backticks ++ ['\n']))
  rw [← p.source_eq, ← p.selection_eq, ← closing, ← opening] at wrapped
  rw [wrapped, opening, closing, front]
  simp [fenced, fenceLine]

/-- The blocks of a document after fences have been put around the selection. If the selection does
not start its line, the first fence is text at the end of a line, and the second one opens code that
goes on to the end. -/
def coded : List Block :=
  if p.before = [] then
    textParagraphs (p.earlier.map Line.text) ++
      .code none (codeOf [p.inside]) ⟨0, 0⟩ :: textParagraphs p.below
  else
    textParagraphs (p.earlier.map Line.text ++ [p.before ++ backticks, p.inside]) ++
      [.code none (codeOf (p.remaining.map Prod.fst)) ⟨0, 0⟩]

end Pick

theorem not_mem_backtick {t : Text} (words : ∀ c ∈ t, Text.isWordChar c = true) : '\x60' ∉ t :=
  fun mem => absurd (words _ mem) (by decide)

theorem insertable_fenced (plain : s.IsPlainDocument) (p : Pick s) :
    ∀ q ∈ p.fenced, isInsertable q = true := by
  have picked := p.isPicked plain
  have chars : ∀ c ∈ p.before ++ backticks, Text.isWordChar c = true ∨ c = '\x60' := by
    rw [List.forall_mem_append]
    exact ⟨fun c mem => .inl (picked.chars_before c mem),
      fun c mem => .inr (List.eq_of_mem_replicate (show c ∈ List.replicate 3 '\x60' from mem))⟩
  have first : isInsertable (p.before ++ backticks, .lf) = true := by
    refine isInsertable_of_chars (fun c mem => ?_) (fun mem => ?_) fun mem => ?_
    · rcases chars c mem with word | rfl
      · exact isDeclaring_of_isWordChar word
      · rfl
    · exact absurd (chars _ mem) (by decide)
    · exact absurd (chars _ mem) (by decide)
  rw [Pick.fenced, List.forall_mem_cons, List.forall_mem_cons, List.forall_mem_singleton]
  exact ⟨first, isInsertable_of_words picked.chars, rfl⟩

/-- Fences around a selection that starts its line make a block of code of it. -/
theorem Document.parse_closedFences (formats : Formats) (plain : s.IsPlainDocument) (p : Pick s)
    (starts : p.before = []) :
    (parse formats (Line.join p.earlier ++
        ((p.fenced.flatMap fun q => q.1 ++ q.2.text) ++ p.back))).map spanless =
      .ok (ofBlocks p.coded) := by
  have picked := p.isPicked plain
  have earlier := isTail_of_mem plain (show p.earlier ⊆ Line.split s by rw [p.lines]; simp)
  have insertable := insertable_fenced plain p
  have closed : ∀ us, IsSnippet [fenceLine, (p.inside, .lf), fenceLine] us
      (.code none (codeOf [p.inside]) ⟨0, 0⟩) :=
    isSnippet_code [(p.inside, .lf)]
      (List.forall_mem_singleton.2 (not_mem_backtick picked.chars))
  have whole : p.fenced = [] ++ [fenceLine, (p.inside, .lf), fenceLine] := by
    rw [Pick.fenced, starts]
    rfl
  rw [whole] at insertable ⊢
  have rows : Rows ((p.earlier.map Line.text).map wordRow ++ []) := by
    rw [List.append_nil]
    exact rows_of_words earlier
  have dash : ∀ q ∈ ([] ++ [fenceLine, (p.inside, LineEnding.lf), fenceLine]).head?, '-' ∉ q.1 := by
    rintro q ⟨⟩
    decide
  have read := parse_inserted formats plain p [] insertable dash rfl rows closed
    (List.cons_ne_nil _ _)
  rw [read, Pick.coded, if_pos starts, textParagraphs, List.map_map, List.map_nil, List.append_nil]
  rfl

/-- The rows before the second fence, when the first one does not start its line and is text. -/
theorem Pick.rows_openFence (plain : s.IsPlainDocument) (p : Pick s) (later : p.before ≠ []) :
    Rows ((p.earlier.map Line.text).map wordRow ++
      (p.before ++ backticks, Inline.plain (p.before ++ backticks)) :: [p.inside].map wordRow) := by
  have picked := p.isPicked plain
  have earlier := isTail_of_mem plain (show p.earlier ⊆ Line.split s by rw [p.lines]; simp)
  obtain ⟨c, first⟩ : ∃ c, p.before.head? = some c :=
    Option.ne_none_iff_exists'.1 fun none => later (List.head?_eq_none_iff.1 none)
  have letter : p.before.head?.any Char.isAlpha = true := by
    have letter := picked.words.starts
    rw [List.head?_append, first, Option.some_or] at letter
    rw [first]
    exact letter
  have inside : p.inside.IsTail := (p.isTail_upTo plain).of_suffix (List.suffix_append _ _)
  exact rows_around earlier (List.forall_mem_singleton.2 inside)
    (.inr (isLine_backticks letter picked.chars_before))

/-- Fences around a selection further on in its line: the first one is text, and the second one opens
code that is never closed. -/
theorem Document.parse_lateFences (formats : Formats) (plain : s.IsPlainDocument) (p : Pick s)
    (later : p.before ≠ []) :
    (parse formats (Line.join p.earlier ++
        ((p.fenced.flatMap fun q => q.1 ++ q.2.text) ++ p.back))).map spanless =
      .ok (ofBlocks p.coded) := by
  have picked := p.isPicked plain
  have insertable := insertable_fenced plain p
  have opened : IsSnippet (fenceLine :: p.remaining) []
      (.code none (codeOf (p.remaining.map Prod.fst)) ⟨0, 0⟩) :=
    isSnippet_openCode fun q mem =>
      not_mem_backtick (p.isTail_remaining plain q.1 (List.mem_map_of_mem mem)).chars
  have split := p.map_pair_split_insert insertable
  have regroup : p.earlier.map Line.pair ++ (p.fenced ++ p.remaining) =
      (p.earlier.map Line.pair ++ [(p.before ++ backticks, .lf), (p.inside, .lf)]) ++
        ((fenceLine :: p.remaining) ++ []) := by simp [Pick.fenced]
  rw [regroup] at split
  have none : Rows [] := ⟨nofun, .nil⟩
  have before : (p.earlier.map Line.pair ++
      [(p.before ++ backticks, LineEnding.lf), (p.inside, .lf)]).map Prod.fst =
      ((p.earlier.map Line.text).map wordRow ++ (p.before ++ backticks,
        Inline.plain (p.before ++ backticks)) :: [p.inside].map wordRow).map Prod.fst := by
    rw [List.map_append, List.map_append, map_fst_wordRow, ← Line.map_text_eq_map_pair]
    rfl
  have nothing := scan_inserted plain p insertable (List.cons_ne_nil _ _) (by
    rintro q ⟨⟩ mem
    rcases List.mem_append.1 mem with word | mark
    · exact absurd (picked.chars_before _ word) (by decide)
    · exact absurd mark (by decide))
  have read := parse_snippet formats split before rfl (p.rows_openFence plain later) none opened
    (List.cons_ne_nil _ _) nothing
  have flush : body p.inside = p.inside := by
    refine body_of_visible ?_
    exact any_visible p.starts
  have loose : Inline.plain (p.before ++ backticks) = texts (p.before ++ backticks) :=
    (texts_eq_plain (List.append_ne_nil_of_left_ne_nil later _)).symm
  rw [read, Pick.coded, if_neg later, textParagraphs, List.map_append, List.map_append,
    map_wordRow plain (by rw [p.lines]; simp), List.map_map]
  show Except.ok (ofBlocks (paragraphs (lineTexts p.earlier ++ [Inline.plain (p.before ++ backticks),
    texts (body p.inside)]) ++ _)) = _
  rw [flush, loose]
  rfl

/-- Fences around a selection. -/
theorem Document.parse_fenced (formats : Formats) (plain : s.IsPlainDocument) (p : Pick s) :
    (parse formats (Line.join p.earlier ++
        ((p.fenced.flatMap fun q => q.1 ++ q.2.text) ++ p.back))).map spanless =
      .ok (ofBlocks p.coded) := by
  by_cases starts : p.before = []
  · exact parse_closedFences formats plain p starts
  · exact parse_lateFences formats plain p starts

/-! ### Letters -/

theorem isUnmarked_isAlpha : Text.IsUnmarked Char.isAlpha := by
  refine Text.isUnmarked_of_isLetter fun c letter => ?_
  have range := Text.isAlpha_iff.1 letter
  have digit : c.isDigit = false := by
    rw [← Bool.not_eq_true]
    intro digit
    have bounds : 48 ≤ c.toNat ∧ c.toNat ≤ 57 := Char.isDigit_iff_toNat.1 digit
    omega
  refine ⟨Text.isLetter_of_isAlphanum ?_, digit⟩
  rw [Char.isAlphanum, letter]
  rfl

theorem Block.readings_append (bs bs' : List Block) :
    Block.readings (bs ++ bs') = Block.readings bs ++ Block.readings bs' := by
  induction bs with
  | nil => rfl
  | cons b bs ih => rw [List.cons_append, Block.readings, Block.readings, ih, List.append_assoc]

/-- The letters of lines of text, in order. -/
def letters (us : List Text) : Text := us.flatMap fun t => t.filter Char.isAlpha

theorem filter_readings_textParagraphs (us : List Text) :
    (Block.readings (textParagraphs us)).filter Char.isAlpha = letters us := by
  rw [readings_textParagraphs, List.filter_flatten, letters, List.flatMap_def]

theorem filter_reading_code (us : List Text) :
    (Block.reading (.code none (codeOf us) ⟨0, 0⟩)).filter Char.isAlpha = letters us := by
  have lines : ∀ t : Text, (t ++ ['\n']).filter Char.isAlpha = t.filter Char.isAlpha := by
    intro t
    rw [List.filter_append]
    exact List.append_nil _
  rw [Block.reading, codeOf, String.toList_ofList, letters]
  show (us.flatMap (· ++ ['\n'])).filter Char.isAlpha = _
  rw [List.filter_flatMap]
  simp only [lines]

theorem filter_join_isAlpha (ls : List Line) :
    (Line.join ls).filter Char.isAlpha = letters (ls.map Line.text) := by
  rw [Block.filter_join isUnmarked_isAlpha, letters, List.flatMap_map]

/-- The letters of a document around a selection. -/
theorem filter_source (p : Pick s) : s.filter Char.isAlpha =
    letters (p.earlier.map Line.text) ++ (letters [p.before, p.inside, p.after] ++
      letters (p.later.map Line.text)) := by
  have ending : p.line.ending.text.filter Char.isAlpha = [] := by
    cases p.line.ending <;> rfl
  conv_lhs => rw [p.source_eq, Pick.front, Pick.back]
  simp only [List.filter_append, filter_join_isAlpha, ending]
  simp [letters]

theorem letters_append (us vs : List Text) : letters (us ++ vs) = letters us ++ letters vs :=
  List.flatMap_append

theorem letters_below (p : Pick s) :
    letters p.below = letters (p.after :: p.later.map Line.text) := by
  have indent : ∀ c, isIndent c = true → c.isAlpha = false := by
    intro c indent
    rw [← Bool.not_eq_true]
    intro letter
    rw [Text.isIndent_of_isAlpha letter] at indent
    cases indent
  have kept : (body p.after).filter Char.isAlpha = p.after.filter Char.isAlpha :=
    Text.filter_dropWhile indent
  simp only [letters, Pick.below, List.flatMap_cons, kept]

theorem letters_remaining (p : Pick s) :
    letters (p.remaining.map Prod.fst) = letters (p.after :: p.later.map Line.text) := by
  rw [Pick.remaining, List.map_append, ← Line.map_text_eq_map_pair, letters_append]
  split
  · rename_i nothing
    rw [nothing.1]
    rfl
  · simp [letters]

/-- No letter is lost around a block on lines of its own. -/
theorem filter_readings_around (p : Pick s) :
    (Block.readings (textParagraphs p.above ++ textParagraphs p.below)).filter Char.isAlpha =
      s.filter Char.isAlpha := by
  rw [Block.readings_append, List.filter_append, filter_readings_textParagraphs,
    filter_readings_textParagraphs, letters_below, filter_source p, Pick.above, letters_append]
  simp [letters]

/-- No letter is lost when fences are put around a selection. -/
theorem filter_readings_coded (p : Pick s) :
    (Block.readings p.coded).filter Char.isAlpha = s.filter Char.isAlpha := by
  have mark : backticks.filter Char.isAlpha = [] := by decide
  rw [Pick.coded]
  split
  · rename_i starts
    rw [Block.readings_append, Block.readings, List.filter_append, List.filter_append,
      filter_readings_textParagraphs, filter_readings_textParagraphs, filter_reading_code,
      letters_below, filter_source p, starts]
    simp [letters]
  · rw [Block.readings_append, Block.readings, Block.readings, List.append_nil, List.filter_append,
      filter_readings_textParagraphs, filter_reading_code, letters_remaining, filter_source p,
      letters_append]
    simp [letters, mark]

/-! ### What the commands do -/

/-- **Commands for blocks make their block**, but for code around a selection that does not start its
line. For every document of words and every selection in a line of it that starts and ends on a letter,
a rule and each stock widget stand between the paragraphs of the lines up to the selection and of what
comes after it. Code is the selected text where the selection starts its line; where it does not, the
code is what comes after the selection: `Pick.coded` says how. No letter of the document is lost. -/
theorem Command.parse_apply_block (formats : Formats) (caps : CapabilitySet)
    (plain : s.IsPlainDocument) {selection : Selection} (lettered : selection.IsLettered s) :
    (∃ p : Pick s, p.selection = selection) ∧ ∀ p : Pick s, p.selection = selection →
      (∃ edit, horizontalRule.apply caps s selection = .ok edit ∧
        (Document.parse formats edit.text).map Document.spanless = .ok (.ofBlocks
          (textParagraphs p.above ++ .thematicBreak ⟨0, 0⟩ :: textParagraphs p.below))) ∧
      (∀ name ∈ CapabilitySet.builtins.names, ∃ edit tag selfClosing us, tag.name = name ∧
        (widget name).apply .builtins s selection = .ok edit ∧
        (Document.parse formats edit.text).map Document.spanless = .ok (.ofBlocks
          (textParagraphs p.above ++
            .widget tag selfClosing (textParagraphs us) :: textParagraphs p.below))) ∧
      (∃ edit, codeBlock.apply caps s selection = .ok edit ∧
        (Document.parse formats edit.text).map Document.spanless = .ok (.ofBlocks p.coded)) ∧
      (Block.readings (textParagraphs p.above ++ textParagraphs p.below)).filter Char.isAlpha =
        s.filter Char.isAlpha ∧
      (Block.readings p.coded).filter Char.isAlpha = s.filter Char.isAlpha := by
  refine ⟨Pick.exists_selection_eq_iff.2 lettered, ?_⟩
  rintro p rfl
  refine ⟨?_, fun name mem => ?_, ?_, filter_readings_around p, filter_readings_coded p⟩
  · have dashes : "---\n".toList = [(['-', '-', '-'], LineEnding.lf)].flatMap fun q => q.1 ++ q.2.text := by
      decide
    refine ⟨_, rfl, ?_⟩
    rw [dashes]
    exact Document.parse_ownLine formats plain p (List.forall_mem_singleton.2 rfl)
      isSnippet_thematicBreak (List.cons_ne_nil _ _)
  · obtain ⟨w, among, rfl, found⟩ := Builtin.exists_get? mem
    obtain ⟨qs, tag, selfClosing, us, named, text, insertable, snippet, filled⟩ :=
      Builtin.hasTemplate among
    refine ⟨_, tag, selfClosing, us, named, ?_,
      Document.parse_ownLine formats plain p insertable snippet filled⟩
    show Edit.insertTemplate .builtins w.name s p.selection = _
    rw [Edit.insertTemplate, found]
    dsimp only
    rw [text]
  · obtain ⟨edit, done, text⟩ := p.text_codeBlock caps
    exact ⟨edit, done, by rw [text, Document.parse_fenced formats plain p]⟩

/-- A rule, a video and code at the first of two lines. -/
theorem Command.parse_apply_block_twoLines :
    let formats : Formats := { json := fun _ => .ok .null, yaml := fun _ => .ok .null }
    let s : Text := ['m', 'e', '\n', 'u', 's']
    s.IsPlainDocument ∧ Selection.IsLettered ⟨0, 2⟩ s ∧ "Video" ∈ CapabilitySet.builtins.names ∧
      (∃ edit, horizontalRule.apply { widgets := [] } s ⟨0, 2⟩ = .ok edit ∧
        (Document.parse formats edit.text).map Document.spanless =
          .ok ⟨none, [], [.paragraph [.text "me"] ⟨0, 0⟩, .thematicBreak ⟨0, 0⟩,
            .paragraph [.text "us"] ⟨0, 0⟩]⟩) ∧
      (∃ edit tag selfClosing us, tag.name = "Video" ∧
        (widget "Video").apply .builtins s ⟨0, 2⟩ = .ok edit ∧
        (Document.parse formats edit.text).map Document.spanless =
          .ok ⟨none, [], [.paragraph [.text "me"] ⟨0, 0⟩,
            .widget tag selfClosing (textParagraphs us), .paragraph [.text "us"] ⟨0, 0⟩]⟩) ∧
      ∃ edit, codeBlock.apply { widgets := [] } s ⟨0, 2⟩ = .ok edit ∧
        (Document.parse formats edit.text).map Document.spanless =
          .ok ⟨none, [], [.code none "me\n" ⟨0, 0⟩, .paragraph [.text "us"] ⟨0, 0⟩]⟩ := by
  intro formats s
  have plain : s.IsPlainDocument := by decide
  have stock : "Video" ∈ CapabilitySet.builtins.names := by decide +kernel
  let p : Pick s := {
    earlier := [], line := ⟨0, ['m', 'e'], .lf⟩, later := [⟨3, ['u', 's'], .none⟩]
    before := [], inside := ['m', 'e'], after := []
    lines := rfl, text := rfl, starts := rfl, stops := rfl }
  have lettered : Selection.IsLettered ⟨0, 2⟩ s := ⟨by decide, by decide, rfl, rfl⟩
  obtain ⟨⟨rule, drawn, ruled⟩, widgets, ⟨code, fenced, coded⟩, -⟩ :=
    (parse_apply_block formats { widgets := [] } plain lettered).2 p rfl
  obtain ⟨edit, tag, selfClosing, us, named, put, read⟩ := widgets "Video" stock
  exact ⟨plain, lettered, stock, ⟨rule, drawn, ruled.trans rfl⟩,
    ⟨edit, tag, selfClosing, us, named, put, read.trans rfl⟩, code, fenced, coded.trans rfl⟩

/-- Code around a word that does not start its line: the code is not the selected text. -/
theorem Command.parse_codeBlock_secondWord :
    let formats : Formats := { json := fun _ => .ok .null, yaml := fun _ => .ok .null }
    let s : Text := ['o', 'n', ' ', 'm', 'e']
    ∃ edit, codeBlock.apply { widgets := [] } s ⟨3, 5⟩ = .ok edit ∧
      (Document.parse formats edit.text).map Document.spanless =
        .ok ⟨none, [], [.paragraph [.text "on ```", .softBreak, .text "me"] ⟨0, 0⟩,
          .code none "" ⟨0, 0⟩]⟩ ∧
      ∀ before after, (Document.parse formats edit.text).map Document.spanless ≠
        .ok (.ofBlocks (before ++ .code none "me\n" ⟨0, 0⟩ :: after)) := by
  intro formats s
  have plain : s.IsPlainDocument := by decide
  obtain ⟨edit, done, text⟩ := secondOfTwo.text_codeBlock { widgets := [] }
  have read : (Document.parse formats edit.text).map Document.spanless =
      .ok ⟨none, [], [.paragraph [.text "on ```", .softBreak, .text "me"] ⟨0, 0⟩,
        .code none "" ⟨0, 0⟩]⟩ := by
    rw [text]
    exact (Document.parse_fenced formats plain secondOfTwo).trans rfl
  refine ⟨edit, done, read, fun before after same => ?_⟩
  have same := read.symm.trans same
  obtain ⟨-, -, blocks⟩ := Document.mk.inj (Except.ok.inj same)
  have mem : Block.code none "me\n" ⟨0, 0⟩ ∈ before ++ .code none "me\n" ⟨0, 0⟩ :: after := by simp
  rw [← blocks] at mem
  simp at mem

end Commands

end Folio
