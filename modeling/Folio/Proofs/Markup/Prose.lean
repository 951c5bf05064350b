import Folio.Proofs.Markup.BlockAgreement
import Folio.Proofs.Region.Content

/-!
# Prose

A text is prose if it holds nothing that a tag, an expression or a destination starts with. Marks
of emphasis, brackets and backticks may stand in it in any way: those that match nothing are plain
text. Main statements:

* `Text.IsProse.strip`, `Block.isProse_of_slice` and `Block.isProse_of_gather`: parts of prose, and
  the stripped text, are prose;
* `Inline.read_of_prose`: the inline content of prose is read, and it is plain, without widgets and
  expressions;
* `Block.parse_of_prose`: prose is read to plain blocks, unless it is nested too deeply.
-/

namespace Folio

/-! ### Texts -/

namespace Text

/-- What tags, expressions and destinations start or end with. -/
def markup : List Text := [['<'], ['{'], ['}'], [']', '(']]

/-- A text without markup. -/
def IsProse (s : Text) : Prop := ∀ w ∈ markup, ¬ w <:+: s

instance (s : Text) : Decidable (IsProse s) := inferInstanceAs (Decidable (∀ w ∈ markup, _))

variable {s v w : Text} {c : Char} {pos : Nat}

theorem infix_iff_exists_holds : w <:+: s ↔ ∃ pos, s.Holds pos w := by
  constructor
  · rintro ⟨before, after, rfl⟩
    exact ⟨bytes before, after, before, by rw [List.append_assoc], rfl⟩
  · rintro ⟨pos, after, before, rfl, -⟩
    exact ⟨before, after, by rw [List.append_assoc]⟩

/-- A text that does not hold a character stands on one side of it. -/
theorem infix_or_infix (h : w <:+: s ++ c :: v) (apart : c ∉ w) : w <:+: s ∨ w <:+: v := by
  obtain ⟨before, after, eq⟩ := h
  rcases List.append_eq_append_iff.1 eq with ⟨t, rfl, -⟩ | ⟨t, eq', rest⟩
  · exact .inl ⟨before, t, rfl⟩
  · cases t with
    | nil => exact .inl ⟨before, [], by rw [eq', List.append_nil, List.append_nil]⟩
    | cons d t =>
      obtain ⟨rfl, rfl⟩ := List.cons.inj rest
      rcases List.append_eq_append_iff.1 eq' with ⟨u, -, mark⟩ | ⟨u, -, rest'⟩
      · exact absurd (by rw [mark]; simp) apart
      · cases u with
        | nil => exact absurd (by rw [← List.nil_append w, ← rest']; simp) apart
        | cons d u =>
          obtain ⟨-, rfl⟩ := List.cons.inj rest'
          exact .inr ⟨u, after, rfl⟩

theorem eol_not_mem_of_mem_markup (mem : w ∈ markup) : '\n' ∉ w := by
  simp only [markup, List.mem_cons, List.not_mem_nil, or_false] at mem
  rcases mem with rfl | rfl | rfl | rfl <;> decide

theorem exists_visible_of_mem_markup (mem : w ∈ markup) :
    ∃ c ∈ w, TagToken.isSkipped c = false := by
  simp only [markup, List.mem_cons, List.not_mem_nil, or_false] at mem
  rcases mem with rfl | rfl | rfl | rfl <;> exact ⟨_, List.mem_cons_self, rfl⟩

namespace IsProse

theorem of_infix (h : IsProse s) (inside : v <:+: s) : IsProse v :=
  fun w mem within => h w mem (within.trans inside)

theorem not_holds (h : IsProse s) (mem : w ∈ markup) : ¬ s.Holds pos w :=
  fun held => h w mem (infix_iff_exists_holds.2 ⟨pos, held⟩)

theorem not_mem (h : IsProse s) (mem : [c] ∈ markup) : c ∉ s :=
  fun c_mem => h [c] mem <| by
    obtain ⟨before, after, rfl⟩ := List.append_of_mem c_mem
    exact ⟨before, after, by simp⟩

/-- Prose joined with line feeds is prose. -/
theorem intercalate {texts : List Text} (h : ∀ w ∈ texts, IsProse w) :
    IsProse (['\n'].intercalate texts) := by
  induction texts with
  | nil => decide
  | cons w texts ih =>
    rw [List.forall_mem_cons] at h
    cases texts with
    | nil =>
      rw [List.intercalate_singleton]
      exact h.1
    | cons v texts =>
      intro u mem within
      rw [List.intercalate_cons_cons, List.append_assoc] at within
      rcases infix_or_infix within (eol_not_mem_of_mem_markup mem) with first | later
      · exact h.1 u mem first
      · exact ih h.2 u mem later

/-- Blanking out declarations leaves prose. -/
theorem strip (h : IsProse s) : IsProse (strip s) := by
  intro w mem within
  obtain ⟨pos, held⟩ := infix_iff_exists_holds.1 within
  exact h.not_holds mem (holds_of_strip held (eol_not_mem_of_mem_markup mem)
    (exists_visible_of_mem_markup mem))

end IsProse
end Text

namespace Block

variable {r inner : Region} {start stop : Nat} {pieces : List (Nat × Nat)}

theorem isProse_of_slice (prose : r.text.IsProse) (h : slice r start stop = .ok inner) :
    inner.text.IsProse :=
  prose.of_infix (fills_of_slice h).isInfix

theorem isProse_of_gather (prose : r.text.IsProse) (h : gather r pieces = .ok inner) :
    inner.text.IsProse := by
  obtain ⟨texts, fills, text_eq⟩ := exists_fills_of_gather h
  rw [text_eq]
  exact Text.IsProse.intercalate fun w mem => prose.of_infix (Text.Fills.isInfix_of_mem fills w mem)

end Block

/-! ### Tokens -/

namespace Lexeme

/-- A token that no tag, expression or destination starts or ends with. -/
structure IsPlain (t : Lexeme) : Prop where
  brace : t.token ≠ .brace
  closeBrace : t.token ≠ .closeBrace
  linkTarget : t.token ≠ .linkTarget
  widgetOpen : t.token ≠ .widgetOpen

/-- The tokens of prose are plain. -/
theorem Stand.isPlain {s : Text} {ts : List Lexeme} (stand : Stand s ts) (prose : s.IsProse) :
    ∀ t ∈ ts, t.IsPlain := by
  induction ts with
  | nil => nofun
  | cons t ts ih =>
    have held := stand.holds
    obtain ⟨-, shapes, rest⟩ := stand
    refine List.forall_mem_cons.2 ⟨⟨?_, ?_, ?_, ?_⟩, ih rest⟩ <;> intro kind <;> rw [kind] at shapes
    · exact prose.not_holds (by simp [Text.markup]) (shapes ▸ held)
    · exact prose.not_holds (by simp [Text.markup]) (shapes ▸ held)
    · exact prose.not_holds (by simp [Text.markup]) (shapes ▸ held)
    · obtain ⟨c, -, text⟩ := shapes
      rw [text] at held
      exact prose.not_holds (by simp [Text.markup]) (Text.holds_cons_iff.1 held).1

theorem linkTarget?_of_isPlain {depth : Nat} {ts : List Lexeme} (plain : ∀ t ∈ ts, t.IsPlain) :
    linkTarget? depth ts = none := by
  cases found : linkTarget? depth ts with
  | none => rfl
  | some target =>
    obtain ⟨suffix, kind⟩ := suffix_of_linkTarget? found
    exact absurd kind (plain _ (suffix.subset List.mem_cons_self)).linkTarget

end Lexeme

/-! ### Inline content -/

namespace Inline

mutual

/-- Content without widgets and expressions. -/
def IsPlain : Inline → Prop
  | text _ => True
  | strong children => AllPlain children
  | emphasis children => AllPlain children
  | strikethrough children => AllPlain children
  | code _ => True
  | link _ children => AllPlain children
  | image _ _ => True
  | softBreak => True
  | lineBreak => True
  | widget _ => False
  | expression _ _ => False

/-- Pieces of content without widgets and expressions. -/
def AllPlain : List Inline → Prop
  | [] => True
  | i :: is => IsPlain i ∧ AllPlain is

end

theorem allPlain_iff {is : List Inline} : AllPlain is ↔ ∀ i ∈ is, i.IsPlain := by
  induction is with
  | nil => simp [AllPlain]
  | cons i is ih => rw [AllPlain, ih, List.forall_mem_cons]

/-- Content is plain if what stands in it is. -/
theorem isPlain_isClosed : IsClosed IsPlain where
  text _ := trivial
  code _ := trivial
  image _ _ := trivial
  softBreak := trivial
  lineBreak := trivial
  strong _ inside := allPlain_iff.2 inside
  emphasis _ inside := allPlain_iff.2 inside
  strikethrough _ inside := allPlain_iff.2 inside
  link _ _ inside := allPlain_iff.2 inside

variable {r : Region} {t : Lexeme} {ts : List Lexeme}

/-- A plain token is read, whatever comes after it, and is neither a widget nor an expression. -/
theorem admits_of_isPlain (plain : t.IsPlain) (later : ∀ u ∈ ts, u.IsPlain) :
    Admits IsPlain (fun _ => False) r t ts where
  expression _ kind _ := absurd kind plain.brace
  widget _ kind _ _ := absurd kind plain.widgetOpen
  destination kind := absurd kind plain.linkTarget
  fails _ _ taken := by
    cases taken with
    | openImage _ found =>
      rw [Lexeme.linkTarget?_of_isPlain later] at found
      cases found
    | openBrace kind => exact plain.brace kind
    | closeBrace kind => exact plain.closeBrace kind
    | openWidget kind | badTag kind => exact plain.widgetOpen kind

/-- The inline content of prose is read, and it is plain. -/
theorem read_of_prose (prose : r.text.IsProse) :
    Outcome (fun _ => False) AllPlain (read r) := by
  have plain := (Lexeme.stand_readAll r.text).isPlain prose
  refine (read_outcome_of_admits isPlain_isClosed fun t us suffix => ?_).mono
    (fun _ failed => failed) fun _ inside => allPlain_iff.2 inside
  have among := List.forall_mem_cons.1 fun u mem => plain u (suffix.subset mem)
  exact admits_of_isPlain among.1 among.2

end Inline

/-! ### Blocks -/

mutual

/-- A block without widgets and expressions. -/
def Block.IsPlain : Block → Prop
  | .heading _ children _ => Inline.AllPlain children
  | .paragraph children _ => Inline.AllPlain children
  | .quote children _ => Block.AllPlain children
  | .list _ _ _ items _ => ListItem.AllPlain items
  | .code _ _ _ => True
  | .thematicBreak _ => True
  | .widget _ _ _ => False

/-- Blocks without widgets and expressions. -/
def Block.AllPlain : List Block → Prop
  | [] => True
  | b :: bs => b.IsPlain ∧ Block.AllPlain bs

/-- An item without widgets and expressions. -/
def ListItem.IsPlain : ListItem → Prop
  | .mk children _ => Block.AllPlain children

/-- Items without widgets and expressions. -/
def ListItem.AllPlain : List ListItem → Prop
  | [] => True
  | i :: is => i.IsPlain ∧ ListItem.AllPlain is

end

/-- Reading fails because containers are nested too deeply. -/
def Halt.TooDeep (h : Halt) : Prop :=
  ∃ pos, h = .mistake { pos, fault := .invalid "blocks are nested too deeply" }

namespace Block

variable {inner : Inner} {r content : Region} {l : Line} {ls : List Line}

theorem inlines_of_prose (prose : r.text.IsProse) :
    Outcome Halt.TooDeep Inline.AllPlain (inlines r) := by
  have outcome := Inline.read_of_prose prose
  unfold inlines
  split
  · rename_i read
    rw [read] at outcome
    exact outcome
  · rename_i failed
    rw [failed] at outcome
    exact outcome.elim

theorem head?_of_closingTagName? {line : Text} {name : String}
    (h : closingTagName? line = some name) : (Text.trimStart line).head? = some '<' := by
  unfold closingTagName? at h
  split at h
  · rename_i trimmed
    rw [trimmed]
    rfl
  · cases h

/-- A line without tags starts none. -/
theorem opening_of_angle {line : Text} (angle : '<' ∉ line) :
    opening line ≠ .widget ∧ ∀ name, opening line ≠ .closingTag name := by
  have fits := opening_fits line
  refine ⟨fun kind => ?_, fun name kind => ?_⟩ <;> rw [kind] at fits
  · exact angle (mem_of_isWidgetStart fits)
  · exact angle (List.dropWhile_subset _ (List.mem_of_head? (head?_of_closingTagName? fits)))

/-- The content of prose is read by `inner`, unless it is nested too deeply. -/
def ReadsProse (inner : Inner) : Prop :=
  ∀ r : Region, r.text.IsProse → Outcome Halt.TooDeep AllPlain (inner r)

/-- A block that is taken has no widgets and no expressions. -/
abbrev TakesPlain (x : Except Halt Taken) : Prop :=
  Outcome Halt.TooDeep (fun taken => taken.1.IsPlain) x

section Blocks

variable (prose : r.text.IsProse) (suffix : l :: ls <:+ r.lines)

include prose suffix

theorem titled_of_prose {mark : HeadingMark} (kind : HeadingMark.ofLine? l.text = some mark) :
    TakesPlain (titled r mark l) := by
  have mem : l ∈ r.lines := suffix.subset List.mem_cons_self
  obtain ⟨content, taken⟩ := slice_isOk (Line.isCut mem (HeadingMark.isCut_of_ofLine? kind))
  rw [titled, taken]
  exact (inlines_of_prose (isProse_of_slice prose taken)).bind fun _ plain => plain

theorem paragraphAt_of_prose : TakesPlain (paragraphAt r l ls) := by
  have cuts : ∀ p ∈ (l :: ls.takeWhile goesOn).map fun m => (m.start + indentation m.text, m.stop),
      Text.IsCut r.text p.1 p.2 := by
    intro p mem
    obtain ⟨m, taken, rfl⟩ := List.mem_map.1 mem
    have m_mem := suffix.subset (List.cons_subset_cons l (List.takeWhile_subset _) taken)
    exact Line.isCut_stop m_mem (isBoundary_of_le_indentation (Nat.le_refl _))
  obtain ⟨content, joined⟩ := gather_isOk cuts
  rw [paragraphAt_eq, joined]
  exact (inlines_of_prose (isProse_of_gather prose joined)).bind fun _ plain => plain

theorem quoted_of_prose (reads : ReadsProse inner) : TakesPlain (quoted inner r l ls) := by
  obtain ⟨content, joined⟩ := quoteContent_isOk suffix.subset
  have unfolded : quoted inner r l ls = (do
      let content ← quoteContent r l ls
      let last := ((l :: ls).takeWhile fun m => (quoteMark? m.text).isSome).getLast?.getD l
      return (.quote (← inner content) (r.span l.start last.stop), last.next)) := rfl
  rw [unfolded, joined]
  exact (reads content (isProse_of_gather prose joined)).bind fun _ plain => plain

theorem itemAt_of_prose {mark : ListMark} (kind : ListMark.ofLine? l.text = some mark)
    (reads : ReadsProse inner) :
    Outcome Halt.TooDeep (fun read => read.1.IsPlain) (itemAt inner r mark l ls) := by
  obtain ⟨content, joined⟩ := itemContent_isOk suffix.subset kind
  rw [itemAt_eq, joined]
  exact (reads content (isProse_of_gather prose joined)).bind fun _ plain => plain

end Blocks

theorem itemsFrom_of_prose (prose : r.text.IsProse) (suffix : ls <:+ r.lines)
    (reads : ReadsProse inner) (ordered : Bool) (stop resume : Nat) :
    Outcome Halt.TooDeep (fun items => ListItem.AllPlain items.items)
      (itemsFrom inner r ordered stop resume ls) := by
  induction ls generalizing stop resume with
  | nil => trivial
  | cons l ls ih =>
    have rest := ih ((List.suffix_cons l ls).trans suffix)
    rw [itemsFrom]
    split
    · exact rest _ _
    · split
      · trivial
      · rename_i mark found
        have kind := (Option.mem_filter_iff.1 found).1
        refine (itemAt_of_prose prose suffix kind reads).bind fun _ plain => ?_
        exact (rest _ _).bind fun _ more => ⟨plain, more⟩

/-- A block of prose is read, unless it is nested too deeply. -/
theorem blockAt_of_prose (prose : r.text.IsProse) (suffix : l :: ls <:+ r.lines)
    (reads : ReadsProse inner) : TakesPlain (blockAt inner r l ls) := by
  have mem : l ∈ r.lines := suffix.subset List.mem_cons_self
  obtain ⟨other, unclosed⟩ := opening_of_angle fun among =>
    prose.not_mem (by simp [Text.markup]) ((Line.holds mem).mem among)
  rw [blockAt_eq]
  cases kind : opening l.text with
  | fence fence => trivial
  | heading mark => exact titled_of_prose prose suffix (ofLine?_of_opening_heading kind)
  | thematicBreak => trivial
  | quote => exact quoted_of_prose prose suffix reads
  | list mark => exact (itemsFrom_of_prose prose suffix reads _ _ _).bind fun _ plain => plain
  | widget => exact absurd kind other
  | closingTag name => exact absurd kind (unclosed name)
  | paragraph => exact paragraphAt_of_prose prose suffix

theorem blocksFrom_of_prose (prose : r.text.IsProse) (suffix : ls <:+ r.lines)
    (reads : ReadsProse inner) (skip : List Declaration) (resume : Nat) :
    Outcome Halt.TooDeep AllPlain (blocksFrom inner r skip resume ls) := by
  induction ls generalizing resume with
  | nil => trivial
  | cons l ls ih =>
    have rest := ih ((List.suffix_cons l ls).trans suffix)
    rw [blocksFrom]
    split
    · exact rest _
    · split
      · exact rest _
      · split
        · exact rest _
        · refine (blockAt_of_prose prose suffix reads).bind fun _ plain => ?_
          exact (rest _).bind fun _ more => ⟨plain, more⟩

/-- Prose is read to blocks without widgets and expressions, unless it is nested too deeply. -/
theorem parse_of_prose (levels : Nat) (skip : List Declaration) (prose : r.text.IsProse) :
    Outcome Halt.TooDeep AllPlain (parse levels skip r) := by
  induction levels generalizing r skip with
  | zero => exact ⟨_, rfl⟩
  | succ levels ih =>
    exact blocksFrom_of_prose prose (List.suffix_refl _) (fun _ inside => ih [] inside) skip 0

end Block
end Folio
