import Folio.Proofs.Editor.Emphasis
import Folio.Proofs.Markup.LooseBackticks
import Folio.Proofs.Markup.WrittenWidgets

/-!
# Lines after a selection

Lines are put into a document of words after a selection. The lines before them are those up to the
selection; the lines after them are what is left of the line and the later lines. When the new lines
are one block, the document is read to that block between paragraphs.

* `Pick.map_pair_split_insert`: the lines of the new text;
* `Document.parse_inserted`: what it is read to.
-/

namespace Folio

/-! ### Lines that declare nothing -/

/-- Whether a line ends in a line feed and is no part of a declaration. -/
def isInsertable (q : Text × LineEnding) : Bool :=
  q.2 == .lf && !q.1.contains '\n' && q.1.getLast? != some '\r' && !Declaration.endsImport q.1 &&
    !q.1.contains '{'

section Insertable

variable {q : Text × LineEnding} {qs qs' : List (Text × LineEnding)}

theorem isInsertable_iff : isInsertable q = true ↔
    q.2 = .lf ∧ Line.IsWhole q.1 q.2 ∧ Declaration.endsImport q.1 = false ∧ '{' ∉ q.1 := by
  simp only [isInsertable, Bool.and_eq_true, beq_iff_eq, bne_iff_ne, Bool.not_eq_true',
    List.contains_eq_mem, decide_eq_false_iff_not]
  constructor
  · rintro ⟨⟨⟨⟨lf, eol⟩, cr⟩, imports⟩, brace⟩
    exact ⟨lf, ⟨eol, fun _ => cr⟩, imports, brace⟩
  · rintro ⟨lf, ⟨eol, cr⟩, imports, brace⟩
    exact ⟨⟨⟨⟨lf, eol⟩, cr lf⟩, imports⟩, brace⟩

theorem isInsertable_of_chars {t : Text} (chars : ∀ c ∈ t, Declaration.isDeclaring c = false)
    (eol : '\n' ∉ t) (cr : '\r' ∉ t) : isInsertable (t, .lf) = true := by
  refine isInsertable_iff.2 ⟨rfl, ⟨eol, fun _ last => cr (List.mem_of_getLast? last)⟩, ?_,
    fun mem => by cases chars _ mem⟩
  rw [← Bool.not_eq_true]
  intro ends
  rcases Declaration.quote_mem_of_endsImport ends with quote | quote <;> cases chars _ quote

theorem divided_append (insertable : ∀ q ∈ qs, isInsertable q = true) (divided : Line.Divided qs') :
    Line.Divided (qs ++ qs') := by
  induction qs with
  | nil => exact divided
  | cons q qs ih =>
    rw [List.forall_mem_cons, isInsertable_iff] at insertable
    obtain ⟨⟨lf, whole, -⟩, others⟩ := insertable
    refine ⟨whole, fun none => ?_, ih others⟩
    rw [lf] at none
    cases none

end Insertable

/-! ### The lines around -/

namespace Pick

variable {s : Text} {qs : List (Text × LineEnding)} (p : Pick s)

/-- What is left of the line after the selection, and the lines after it. -/
def remaining : List (Text × LineEnding) :=
  (if p.after = [] ∧ p.line.ending = .none then [] else [(p.after, p.line.ending)]) ++
    p.later.map Line.pair

theorem text_remaining : (p.remaining.flatMap fun q => q.1 ++ q.2.text) = p.back := by
  rw [remaining, List.flatMap_append, ← Line.join_eq_flatMap_pair, back, ← List.append_assoc]
  congr 1
  split
  · rename_i nothing
    rw [nothing.1, nothing.2]
    rfl
  · simp

theorem divided_remaining : Line.Divided p.remaining := by
  have whole := p.wholeLine
  rw [remaining]
  split
  · exact p.divided_later
  · rename_i something
    refine ⟨⟨fun mem => whole.eol ?_, fun lf last => ?_⟩, fun none => ?_, p.divided_later⟩
    · rw [p.text]
      exact List.mem_append_right _ (List.mem_append_right _ mem)
    · refine whole.ending lf ?_
      rw [p.text, List.getLast?_append, List.getLast?_append, last]
      rfl
    · refine ⟨fun empty => something ⟨empty, none⟩, ?_⟩
      show p.later.map Line.pair = []
      rw [p.later_eq_nil none]
      rfl

/-- The lines of the text in which lines are put after the earlier ones, in place of the line up to
the end of the selection. -/
theorem map_pair_split_insert (insertable : ∀ q ∈ qs, isInsertable q = true) :
    (Line.split (Line.join p.earlier ++ ((qs.flatMap fun q => q.1 ++ q.2.text) ++ p.back))).map
        Line.pair =
      p.earlier.map Line.pair ++ (qs ++ p.remaining) := by
  have divided : Line.Divided (qs ++ p.remaining) := divided_append insertable p.divided_remaining
  rw [remaining, ← List.append_assoc] at divided
  have text : Line.join p.earlier ++ ((qs.flatMap fun q => q.1 ++ q.2.text) ++ p.back) =
      Line.join p.earlier ++ (((qs ++ if p.after = [] ∧ p.line.ending = .none then []
        else [(p.after, p.line.ending)]).flatMap fun q => q.1 ++ q.2.text) ++ Line.join p.later) := by
    rw [← text_remaining, remaining, List.flatMap_append, List.flatMap_append,
      ← Line.join_eq_flatMap_pair, List.append_assoc]
  rw [text, Line.map_pair_split_replace p.lines divided, remaining, List.append_assoc qs]

/-- The texts of the lines up to the end of the selection. -/
def above : List Text := p.earlier.map Line.text ++ [p.before ++ p.inside]

/-- What is left of the line after the selection, without the space in front, and the texts of the
lines after it. -/
def below : List Text := body p.after :: p.later.map Line.text

theorem isTail_remaining (plain : s.IsPlainDocument) : ∀ t ∈ p.remaining.map Prod.fst, t.IsTail := by
  have picked := p.isPicked plain
  have later : ∀ t ∈ p.later.map Line.text, t.IsTail :=
    isTail_of_mem plain (by rw [p.lines]; simp)
  rw [remaining, List.map_append, ← Line.map_text_eq_map_pair]
  intro t mem
  rcases List.mem_append.1 mem with first | mem
  · split at first
    · cases first
    · obtain rfl := List.mem_singleton.1 first
      exact picked.tail_after
  · exact later t mem

/-- The lines after the new ones are read to the paragraphs that the rest of the document is. -/
theorem paragraphs_remaining (plain : s.IsPlainDocument) :
    paragraphs (((p.remaining.map Prod.fst).map wordRow).map Prod.snd) =
      paragraphs (p.below.map texts) := by
  have later : ((p.later.map Line.text).map wordRow).map Prod.snd = lineTexts p.later :=
    map_wordRow plain (by rw [p.lines]; simp)
  have texts_later : lineTexts p.later = (p.later.map Line.text).map texts := by
    rw [List.map_map]
    rfl
  rw [remaining, List.map_append, ← Line.map_text_eq_map_pair, List.map_append, List.map_append, later,
    below, List.map_cons, ← texts_later]
  split
  · rename_i nothing
    rw [nothing.1]
    exact (paragraphs_gap _).symm
  · rfl

end Pick

/-! ### The document -/

section Inserted

variable {s : Text} {pre qs : List (Text × LineEnding)} {block : Block}

theorem Declaration.scan_eq_nil_of_pairs (lines : (Line.split s).map Line.pair = qs)
    (each : ∀ q ∈ qs, endsImport q.1 = false ∧ '{' ∉ q.1) (dash : ∀ q ∈ qs.head?, '-' ∉ q.1) :
    scan s = [] := by
  subst lines
  rw [List.forall_mem_map] at each
  refine scan_eq_nil (fun l mem => (each l mem).1) (fun mem => ?_) fun l first => ?_
  · rw [← Line.join_split s] at mem
    obtain ⟨l, among, mem⟩ := List.mem_flatMap.1 mem
    rcases List.mem_append.1 mem with inside | ending
    · exact (each l among).2 inside
    · cases kind : l.ending <;> rw [kind] at ending <;> exact absurd ending (by decide)
  · refine not_dashes_of_not_mem (dash l.pair ?_)
    rw [List.head?_map, show (Line.split s).head? = some l from first]
    rfl

/-- A line of words is no part of a declaration. -/
theorem undeclaring_of_isTail {t : Text} (tail : t.IsTail) :
    Declaration.endsImport t = false ∧ '{' ∉ t ∧ '-' ∉ t := by
  have chars : ∀ c ∈ t, Declaration.isDeclaring c = false := fun c mem =>
    isDeclaring_of_isWordChar (tail.chars c mem)
  refine ⟨?_, fun brace => absurd (chars '{' brace) (by decide),
    fun dash => absurd (chars '-' dash) (by decide)⟩
  rw [← Bool.not_eq_true]
  intro ends
  rcases Declaration.quote_mem_of_endsImport ends with quote | quote <;> cases chars _ quote

theorem scan_inserted (plain : s.IsPlainDocument) (p : Pick s)
    (insertable : ∀ q ∈ qs, isInsertable q = true) (filled : qs ≠ [])
    (dash : ∀ q ∈ qs.head?, '-' ∉ q.1) :
    Declaration.scan
      (Line.join p.earlier ++ ((qs.flatMap fun q => q.1 ++ q.2.text) ++ p.back)) = [] := by
  have earlier : ∀ q ∈ p.earlier.map Line.pair, q.1.IsTail := List.forall_mem_map.2 fun l mem =>
    isTail_of_mem plain (by rw [p.lines]; simp) l.text (List.mem_map_of_mem mem)
  refine Declaration.scan_eq_nil_of_pairs (p.map_pair_split_insert insertable) (fun q mem => ?_)
    fun q first => ?_
  · rcases List.mem_append.1 mem with before | mem
    · exact ⟨(undeclaring_of_isTail (earlier q before)).1,
        (undeclaring_of_isTail (earlier q before)).2.1⟩
    · rcases List.mem_append.1 mem with inside | after
      · exact (isInsertable_iff.1 (insertable q inside)).2.2
      · have tail := p.isTail_remaining plain q.1 (List.mem_map_of_mem after)
        exact ⟨(undeclaring_of_isTail tail).1, (undeclaring_of_isTail tail).2.1⟩
  · cases lines : p.earlier.map Line.pair with
    | nil =>
      rw [lines, List.nil_append, List.head?_append_of_ne_nil _ filled] at first
      exact dash q first
    | cons q' more =>
      rw [lines] at first earlier
      cases first
      exact (undeclaring_of_isTail (earlier q List.mem_cons_self)).2.2

/-- **Lines that are one block**, put into a document of words, are that block between paragraphs.
Lines that belong to the paragraphs before may come first. -/
theorem Document.parse_inserted (formats : Formats) (plain : s.IsPlainDocument) (p : Pick s)
    (lead : List Row) (insertable : ∀ q ∈ pre ++ qs, isInsertable q = true)
    (dash : ∀ q ∈ (pre ++ qs).head?, '-' ∉ q.1)
    (lines : pre.map Prod.fst = lead.map Prod.fst)
    (rows : Rows ((p.earlier.map Line.text).map wordRow ++ lead))
    (snippet : ∀ us, IsSnippet qs us block) (filled : qs ≠ []) :
    (parse formats (Line.join p.earlier ++
        (((pre ++ qs).flatMap fun q => q.1 ++ q.2.text) ++ p.back))).map spanless =
      .ok (ofBlocks (paragraphs (lineTexts p.earlier ++ lead.map Prod.snd) ++
        block :: paragraphs (p.below.map texts))) := by
  have contents : ((p.earlier.map Line.text).map wordRow).map Prod.snd = lineTexts p.earlier :=
    map_wordRow plain (by rw [p.lines]; simp)
  have split := p.map_pair_split_insert insertable
  have regroup : p.earlier.map Line.pair ++ (pre ++ qs ++ p.remaining) =
      (p.earlier.map Line.pair ++ pre) ++ (qs ++ p.remaining) := by simp
  rw [regroup] at split
  have before : (p.earlier.map Line.pair ++ pre).map Prod.fst =
      ((p.earlier.map Line.text).map wordRow ++ lead).map Prod.fst := by
    rw [List.map_append, List.map_append, map_fst_wordRow, ← Line.map_text_eq_map_pair, lines]
  have read := parse_snippet formats split before (map_fst_wordRow _).symm rows
    (rows_of_words (p.isTail_remaining plain)) (snippet _) filled
    (scan_inserted plain p insertable (by simp [filled]) dash)
  rwa [List.map_append, contents, p.paragraphs_remaining plain] at read

end Inserted

end Folio
