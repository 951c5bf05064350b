import Folio.Proofs.Markup.StrippedContainers
import Mathlib.Data.List.Infix

/-!
# Blocks of the stripped text

A source is read as its stripped text is, with declarations passed over. A block that starts before
a declaration must not reach it: a paragraph that does is content and declaration at once, a list
goes on after the blank lines that are left of a declaration, and a widget looks for its closing tag
past it. `Declaration.Apart` says that declarations stand apart from such blocks. Main statements:

* `Block.blockAt_strip`: a block before a declaration is the same in both texts, and ends before it;
* `Document.parse_strip`: the stripped text is read to the same blocks.
-/

namespace Folio

open Declaration (scan Walk)

variable {source : Text} {l m : Line} {ls : List Line}

/-- Declarations stand apart from blocks: none follows a line of a paragraph directly, a list before
one ends at another line, and a widget before one has the same tags without it. -/
structure Declaration.Apart (source : Text) : Prop where
  paragraphs : (Line.split source).IsChain (Parted (scan source))
  lists : ∀ l ls, l :: ls <:+ Line.split source → (ListMark.ofLine? l.text).isSome →
    isThematicBreak l.text = false → l.isCovered (scan source) = false →
      (∀ d ∈ scan source, d.span.start ≤ l.start) ∨ endsList (scan source) false (l :: ls) = true
  widgets : ∀ l ls, l :: ls <:+ Line.split source → isWidgetStart l.text = true →
    l.isCovered (scan source) = false →
      (∀ d ∈ scan source, d.span.start ≤ l.start) ∨ Block.KeepsTags source l ls

/-- Such widgets have the same extent in the stripped text. -/
theorem Declaration.Apart.keepsWidgets (apart : Apart source) : KeepsWidgets source := by
  intro l ls suffix widget bare
  rcases apart.widgets l ls suffix widget bare with early | keeps
  · rw [Line.map_blanked_of_bare fun m mem => Line.bare_of_early suffix bare early mem]
  · exact keeps.pastWidget?_eq widget bare

namespace Block

variable {inner : Inner} {metadata : Bool} {resume : Nat}

/-! ### Blocks before declarations -/

/-- A line that begins like a widget begins nothing else. -/
theorem opening_of_isWidgetStart {line : Text} (h : isWidgetStart line = true) :
    opening line = .widget := by
  have first := head?_of_isWidgetStart h
  have no_rule : isThematicBreak line = false := by
    rw [← Bool.not_eq_true]
    intro rule
    obtain ⟨c, first', marks⟩ := head?_of_isThematicBreak rule
    rw [first] at first'
    cases first'
    rcases marks with eq | eq | eq <;> cases eq
  have widget := h
  unfold isWidgetStart at h
  split at h
  · rename_i c t unindented
    have unopened : Fence.open? line = none := by simp [Fence.open?, unindented]
    have no_heading : HeadingMark.ofLine? line = none := by simp [HeadingMark.ofLine?, unindented]
    have no_quote : quoteMark? line = none := by simp [quoteMark?, unindented]
    have no_mark : ListMark.ofLine? line = none := by
      simp [ListMark.ofLine?, ListMark.bullet?, unindented]
    unfold opening
    simp only [unopened, no_heading, no_rule, no_quote, no_mark, widget, Option.isSome_none,
      Bool.false_eq_true, if_false, if_true]
  · cases h

/-- A block before a declaration is the same in the stripped text, and ends before it. -/
theorem blockAt_strip (inner : Inner) (apart : Declaration.Apart source)
    (walk : Walk source metadata resume (l :: ls)) (reached : resume ≤ l.start)
    (filled : Text.isBlank l.text = false) (bare : l.isCovered (scan source) = false)
    (declared : ¬ ∀ d ∈ scan source, d.span.start ≤ l.start) :
    blockAt inner (Region.root source) l ls =
        blockAt inner (Region.root (strip source)) l (ls.map (Line.blanked (scan source))) ∧
      ThenLeaves source ls (blockAt inner (Region.root source) l ls) := by
  by_cases widget : isWidgetStart l.text = true
  · rw [blockAt_eq, blockAt_eq, opening_of_isWidgetStart widget]
    have keeps := (apart.widgets l ls walk.suffix widget bare).resolve_left declared
    exact widgetAt_strip walk reached widget bare apart.paragraphs keeps
  · rw [Bool.not_eq_true] at widget
    unfold blockAt
    cases opened : Fence.open? l.text with
    | some fence =>
      obtain ⟨same, leaves⟩ := fenced_strip walk reached opened filled bare
      exact ⟨congrArg _ same, leaves⟩
    | none =>
      have plain : Plain source l := by
        refine ⟨filled, opened, widget, fun covered => ?_⟩
        rw [bare] at covered
        cases covered
      dsimp only
      cases kind : HeadingMark.ofLine? l.text with
      | some mark => exact titled_strip walk reached kind plain
      | none =>
        dsimp only
        by_cases rule : isThematicBreak l.text = true
        · obtain ⟨agree, leaves⟩ := line_strip walk reached plain
          rw [if_pos rule, if_pos rule, agree.span_eq (Nat.le_refl _) l.stop_le_next]
          exact ⟨rfl, leaves⟩
        · rw [if_neg rule, if_neg rule]
          by_cases quote : (quoteMark? l.text).isSome = true
          · rw [if_pos quote, if_pos quote]
            exact quoted_strip walk reached quote
          · rw [if_neg quote, if_neg quote]
            cases listed : ListMark.ofLine? l.text with
            | some mark =>
              dsimp only
              rw [Bool.not_eq_true] at rule
              have ends := (apart.lists l ls walk.suffix (listed ▸ rfl) rule bare).resolve_left
                declared
              exact listed_strip walk reached listed rule ends
            | none =>
              dsimp only
              rw [widget]
              cases closing : closingTagName? l.text with
              | some name =>
                obtain ⟨agree, -⟩ := line_strip walk reached plain
                dsimp only
                rw [agree.toSource_eq]
                exact ⟨rfl, trivial⟩
              | none =>
                have goes_on : goesOn l = true := by
                  simp [goesOn, startsBlock, filled, opened, kind, rule, quote, listed, widget,
                    closing]
                exact paragraphAt_strip walk reached goes_on apart.paragraphs bare

/-! ### All blocks -/

theorem blocksFrom_of_isBlank {r : Region} (reached : resume ≤ l.start)
    (blank : Text.isBlank l.text = true) :
    blocksFrom inner r [] resume (l :: ls) = blocksFrom inner r [] resume ls := by
  rw [blocksFrom, if_neg (Nat.not_lt_of_le reached), List.find?_nil]
  exact if_pos blank

theorem blocksFrom_of_passed {r : Region} {skip : List Declaration} {chunk after : List Line}
    (passed : ∀ m ∈ chunk, m.start < resume) :
    blocksFrom inner r skip resume (chunk ++ after) = blocksFrom inner r skip resume after := by
  induction chunk with
  | nil => rfl
  | cons c chunk ih =>
    rw [List.forall_mem_cons] at passed
    rw [List.cons_append, blocksFrom, if_pos passed.1, ih passed.2]

section Blank

variable (blank : l.isCovered (scan source) = true ∨ Text.isBlank l.text = true)

include blank

/-- A scan goes on after a line that is blank in the stripped text. -/
theorem exists_walk_of_blank {scanned : Nat} (walk : Walk source metadata scanned (l :: ls))
    (passed : ∀ m ∈ l :: ls, m.start < scanned →
      m.isCovered (scan source) = true ∨ Text.isBlank m.text = true) :
    ∃ metadata' scanned', Walk source metadata' scanned' ls ∧
      ∀ m ∈ ls, m.start < scanned' →
        m.isCovered (scan source) = true ∨ Text.isBlank m.text = true := by
  have passed_later := (List.forall_mem_cons.1 passed).2
  by_cases first : l.start < scanned ∨ Text.isBlank l.text = true
  · exact ⟨metadata, scanned, walk.passed first, passed_later⟩
  · rw [not_or, Nat.not_lt, Bool.not_eq_true] at first
    obtain ⟨reached, filled⟩ := first
    have covered := walk.isCovered_eq reached filled
    cases found : Declaration.declared? metadata l ls with
    | none =>
      rw [found] at covered
      rcases blank with other | other
      · rw [covered] at other
        cases other
      · rw [filled] at other
        cases other
    | some made =>
      obtain ⟨walk', -, -, covering⟩ := walk.declared reached filled found
      exact ⟨_, _, walk', fun m mem lt => .inl (covering m mem lt)⟩

/-- A reading goes on after a line that is blank in the stripped text. -/
theorem exists_resume_of_blank (inner : Inner) (r : Region) (suffix : l :: ls <:+ Line.split source)
    (skipped : ∀ m ∈ l :: ls, m.start < resume → m.isCovered (scan source) = true) :
    ∃ resume', blocksFrom inner r (scan source) resume (l :: ls) =
        blocksFrom inner r (scan source) resume' ls ∧
      ∀ m ∈ ls, m.start < resume' → m.isCovered (scan source) = true := by
  have skipped_later := (List.forall_mem_cons.1 skipped).2
  rw [blocksFrom]
  split
  · exact ⟨resume, rfl, skipped_later⟩
  · split
    · rename_i d found
      refine ⟨d.span.stop + 1, rfl, fun m mem lt => ?_⟩
      have covered := List.find?_some found
      have le := Line.start_le_of_mem suffix (List.mem_cons_of_mem l mem)
      refine List.any_eq_true.2 ⟨d, List.mem_of_find?_eq_some found, ?_⟩
      rw [Declaration.covers, Bool.and_eq_true, decide_eq_true_eq, decide_eq_true_eq] at covered ⊢
      omega
    · rename_i uncovered
      have bare : l.isCovered (scan source) = false :=
        List.any_eq_false.2 (List.find?_eq_none.1 uncovered)
      rcases blank with covered | blank
      · rw [bare] at covered
        cases covered
      · rw [if_pos blank]
        exact ⟨resume, rfl, skipped_later⟩

end Blank

/-- A reading, a scan and the reading of the stripped text have come to some lines: what the former
two pass over there is blank in the stripped text. -/
structure Together (source : Text) (metadata : Bool) (scanned resume resume' : Nat)
    (ls : List Line) : Prop where
  walk : Walk source metadata scanned ls
  scanned : ∀ m ∈ ls, m.start < scanned →
    m.isCovered (scan source) = true ∨ Text.isBlank m.text = true
  skipped : ∀ m ∈ ls, m.start < resume → m.isCovered (scan source) = true
  reached : ∀ m ∈ ls, resume' ≤ m.start

/-- The block at a line, and the blocks after it. -/
theorem blocksFrom_cons {r : Region} {skip : List Declaration} (reached : resume ≤ l.start)
    (bare : l.isCovered skip = false) (filled : Text.isBlank l.text = false) :
    blocksFrom inner r skip resume (l :: ls) = (do
      let (block, next) ← blockAt inner r l ls
      return block :: (← blocksFrom inner r skip next ls)) := by
  have uncovered : skip.find? (·.covers l.start) = none :=
    List.find?_eq_none.2 (List.any_eq_false.1 bare)
  rw [blocksFrom, if_neg (Nat.not_lt_of_le reached), uncovered]
  dsimp only
  rw [if_neg (by rw [filled]; exact Bool.false_ne_true)]

theorem exists_of_blocksFrom_cons {r : Region} {skip : List Declaration} {bs : List Block}
    (reached : resume ≤ l.start) (bare : l.isCovered skip = false)
    (filled : Text.isBlank l.text = false)
    (read : blocksFrom inner r skip resume (l :: ls) = .ok bs) :
    ∃ taken bs', blockAt inner r l ls = .ok taken ∧ blocksFrom inner r skip taken.2 ls = .ok bs' ∧
      bs = taken.1 :: bs' := by
  rw [blocksFrom_cons reached bare filled] at read
  obtain ⟨taken, block, read⟩ := exists_of_bind_eq_ok read
  obtain ⟨bs', rest, read⟩ := exists_of_bind_eq_ok read
  cases read
  exact ⟨taken, bs', block, rest, rfl⟩

/-- Where no declaration is left, the texts are the same. -/
theorem blocksFrom_strip_of_early {resume' : Nat} (suffix : l :: ls <:+ Line.split source)
    (reached : resume ≤ l.start) (reached' : resume' ≤ l.start)
    (filled : Text.isBlank l.text = false) (bare : l.isCovered (scan source) = false)
    (early : ∀ d ∈ scan source, d.span.start ≤ l.start) :
    blocksFrom inner (Region.root source) (scan source) resume (l :: ls) =
      blocksFrom inner (Region.root (strip source)) [] resume'
        ((l :: ls).map (Line.blanked (scan source))) := by
  have all_bare : ∀ m ∈ l :: ls, m.isCovered (scan source) = false :=
    fun m mem => Line.bare_of_early suffix bare early mem
  have agree := Region.agree_strip_of_suffix suffix all_bare
  have starts : ∀ m ∈ l :: ls, l.start ≤ m.start :=
    fun m mem => Line.start_le_of_mem suffix mem
  have lines : l :: ls <:+ (Region.root source).lines := by
    rw [Region.lines, Region.text_root]
    exact suffix
  rw [Line.map_blanked_of_bare all_bare, blocksFrom_cons reached bare filled,
    blocksFrom_cons reached' rfl filled, blockAt_eq_of_agree agree lines starts]
  refine bind_congr ?_
  rintro ⟨block, next⟩
  dsimp only
  rw [blocksFrom_eq_of_agree agree ((List.suffix_cons l ls).trans lines)
    (List.forall_mem_cons.1 starts).2 (List.forall_mem_cons.1 all_bare).2]

/-- Lines are read to the same blocks as in the stripped text. -/
theorem blocksFrom_strip {scanned resume' : Nat} (apart : Declaration.Apart source)
    (h : Together source metadata scanned resume resume' ls) :
    blocksFrom inner (Region.root source) (scan source) resume ls =
      blocksFrom inner (Region.root (strip source)) [] resume'
        (ls.map (Line.blanked (scan source))) := by
  induction length : ls.length using Nat.strongRecOn
    generalizing ls metadata scanned resume resume' with
  | ind n ih =>
    subst length
    cases ls with
    | nil => rfl
    | cons l ls =>
      have reached' : resume' ≤ l.start := h.reached l List.mem_cons_self
      by_cases blank : l.isCovered (scan source) = true ∨ Text.isBlank l.text = true
      · obtain ⟨metadata', scanned', walk, scanned_later⟩ :=
          exists_walk_of_blank blank h.walk h.scanned
        obtain ⟨resume'', same, skipped_later⟩ :=
          exists_resume_of_blank blank inner (Region.root source) h.walk.suffix h.skipped
        rw [same, List.map_cons, blocksFrom_of_isBlank (by rwa [Line.start_blanked])
          (Line.isBlank_blanked_of_or blank)]
        exact ih ls.length (Nat.lt_succ_self _)
          ⟨walk, scanned_later, skipped_later, (List.forall_mem_cons.1 h.reached).2⟩ rfl
      · have reached : resume ≤ l.start := by
          refine Nat.le_of_not_lt fun lt => ?_
          exact blank (.inl (h.skipped l List.mem_cons_self lt))
        have scanned_le : scanned ≤ l.start := by
          refine Nat.le_of_not_lt fun lt => ?_
          exact blank (h.scanned l List.mem_cons_self lt)
        rw [not_or, Bool.not_eq_true, Bool.not_eq_true] at blank
        obtain ⟨bare, filled⟩ := blank
        by_cases early : ∀ d ∈ scan source, d.span.start ≤ l.start
        · exact blocksFrom_strip_of_early h.walk.suffix reached reached' filled bare early
        · obtain ⟨same, leaves⟩ := blockAt_strip inner apart h.walk scanned_le filled bare early
          rw [List.map_cons, Line.blanked_of_bare bare, blocksFrom_cons reached bare filled,
            blocksFrom_cons reached' rfl filled, ← same]
          refine leaves.bind_congr ?_
          rintro ⟨block, next⟩ ⟨chunk, after, rfl, before, later, metadata', scanned', walk, from_⟩
          have before' : ∀ m ∈ chunk.map (Line.blanked (scan source)), m.start < next := by
            intro m mem
            obtain ⟨m', mem', rfl⟩ := List.mem_map.1 mem
            rw [Line.start_blanked]
            exact before m' mem'
          have shorter : after.length < (l :: (chunk ++ after)).length := by
            rw [List.length_cons, List.length_append]
            omega
          have together : Together source metadata' scanned' next next after :=
            ⟨walk, fun m mem lt => absurd (from_ m mem) (Nat.not_le_of_lt lt),
              fun m mem lt => absurd (later m mem) (Nat.not_le_of_lt lt), later⟩
          dsimp only
          rw [blocksFrom_of_passed before, List.map_append, blocksFrom_of_passed before',
            ih after.length shorter together rfl]

/-- A source is read to the same blocks as its stripped text. -/
theorem parse_eq_parse_strip (levels : Nat) (apart : Declaration.Apart source) :
    parse (levels + 1) (scan source) (Region.root source) =
      parse (levels + 1) [] (Region.root (strip source)) := by
  obtain ⟨metadata, scanned, walk, covered⟩ := Declaration.exists_walk source
  rw [parse, parse, Region.lines, Region.lines, Region.text_root, Region.text_root, split_strip]
  exact blocksFrom_strip apart
    ⟨walk, fun m mem lt => .inl (covered m mem lt), fun m _ lt => absurd lt (Nat.not_lt_zero _),
      fun m _ => Nat.zero_le _⟩

end Block

/-! ### Documents -/

namespace Document

/-- A source without metadata is its imports and its blocks. -/
theorem parse_of_blocks {formats : Formats} {ds : List Declaration} {blocks : List Block}
    (declared : scan source = ds) (undescribed : metadataOf formats source ds = .ok none)
    (read : Block.parse maxNesting ds (Region.root source) = .ok blocks) :
    parse formats source = .ok ⟨none,
      (ds.filter (·.kind == .importStatement)).map (importOf source), blocks⟩ := by
  unfold parse
  dsimp only
  rw [declared, undescribed]
  dsimp only [bind, Except.bind]
  rw [read]
  rfl

/-- If declarations stand apart from blocks, and no exported constant is the first content, the
stripped text is read to the same blocks. -/
theorem parse_strip (formats : Formats) {d : Document} (apart : Declaration.Apart source)
    (content : Declaration.exportsFirst (Line.split (strip source)) = false)
    (read : parse formats source = .ok d) :
    parse formats (strip source) = .ok { metadata := none, imports := [], blocks := d.blocks } := by
  have nothing : scan (strip source) = [] :=
    (Declaration.scan_strip_eq_nil_iff apart.keepsWidgets).2 content
  have blocks : Block.parse maxNesting (scan source) (Region.root source) =
      Block.parse maxNesting [] (Region.root (strip source)) := Block.parse_eq_parse_strip _ apart
  rw [parse_of_scan_eq_nil nothing, ← blocks]
  unfold parse at read
  dsimp only at read
  cases declared : metadataOf formats source (scan source) with
  | error halt =>
    rw [declared] at read
    cases read
  | ok metadata =>
    rw [declared] at read
    cases found : Block.parse maxNesting (scan source) (Region.root source) with
    | error halt =>
      rw [found] at read
      cases read
    | ok bs =>
      rw [found] at read
      cases read
      rfl

/-- A widget, a list and a line of text before an import, and text right after it. -/
def importAfterList : Text := "<B/>\n\n- a\n\nb\n\nimport a'\nc".toList

theorem parse_strip_importAfterList :
    let formats : Formats := { json := fun _ => .ok .null, yaml := fun _ => .ok .null }
    let d : Document := ⟨none, [⟨"import a'", ⟨14, 23⟩⟩], [.widget ⟨"B", [], ⟨0, 4⟩⟩ true [],
      .list false none true [.mk [.paragraph [.text "a"] ⟨8, 9⟩] ⟨6, 9⟩] ⟨6, 9⟩,
      .paragraph [.text "b"] ⟨11, 12⟩, .paragraph [.text "c"] ⟨24, 25⟩]⟩
    Declaration.Apart importAfterList ∧
      Declaration.exportsFirst (Line.split (strip importAfterList)) = false ∧
      parse formats importAfterList = .ok d ∧
      parse formats (strip importAfterList) = .ok ⟨none, [], d.blocks⟩ := by
  intro formats d
  have ends : ∀ t ∈ (Line.split importAfterList).tails, ∀ l ∈ t.head?,
      (ListMark.ofLine? l.text).isSome → Declaration.endsList (scan importAfterList) false t = true := by
    decide
  have first : ∀ t ∈ (Line.split importAfterList).tails, ∀ l ∈ t.head?,
      isWidgetStart l.text = true → t = Line.split importAfterList := by
    decide
  have apart : Declaration.Apart importAfterList := by
    refine ⟨by decide, fun l ls suffix marked _ _ => ?_, fun l ls suffix widget _ => ?_⟩
    · exact .inr (ends _ ((List.mem_tails ..).2 suffix) l rfl marked)
    · have lines := first _ ((List.mem_tails ..).2 suffix) l rfl widget
      have opened : Block.tagAt l ls = .ok ⟨"B", [], true, 4⟩ := by
        cases lines
        rfl
      refine .inr ⟨?_, fun tag read other => ?_, fun tag read _ => .inl ?_⟩
      · cases lines
        rfl
      · rw [opened] at read
        cases read
        cases other
      · rw [opened] at read
        cases read
        cases lines
        rfl
  have content : Declaration.exportsFirst (Line.split (strip importAfterList)) = false := by
    decide
  have declared : scan importAfterList = [⟨.importStatement, ⟨14, 23⟩⟩] := by decide
  have read : parse formats importAfterList = .ok d := parse_of_blocks declared rfl rfl
  exact ⟨apart, content, read, parse_strip formats apart content read⟩

/-- An import right after a line of text. -/
def importAfterText : Text := "text\nimport A from 'a'\n".toList

/-- Such an import is a part of the paragraph, too. -/
theorem parse_importAfterText :
    let formats : Formats := { json := fun _ => .ok .null, yaml := fun _ => .ok .null }
    parse formats importAfterText = .ok ⟨none, [⟨"import A from 'a'", ⟨5, 22⟩⟩],
        [.paragraph [.text "text", .softBreak, .text "import A from 'a'"] ⟨0, 22⟩]⟩ ∧
      parse formats (strip importAfterText) =
        .ok ⟨none, [], [.paragraph [.text "text"] ⟨0, 4⟩]⟩ := by
  have declared : scan importAfterText = [⟨.importStatement, ⟨5, 22⟩⟩] := by decide
  have bare : scan (strip importAfterText) = [] := by decide
  exact ⟨parse_of_blocks declared rfl rfl, parse_of_blocks bare rfl rfl⟩

end Document
end Folio