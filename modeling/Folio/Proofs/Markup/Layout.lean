import Folio.Markup.Metadata
import Folio.Proofs.Markup.Scan
import Folio.Proofs.Text.Locations
import Folio.Proofs.Text.Octets

/-!
# Layout of the stripped text

Blanking out the declarations of a text keeps every byte where it is, so that a place outside the
declarations has the same line and column as before. Main statements:

* `Declaration.pairwise_scan`: declarations are apart and in order;
* `Declaration.length_metadata_scan`: at most one of them is metadata;
* `octets_strip`: the stripped text, byte for byte;
* `copyFrom_scan`: the stripped text, copied with a cursor;
* `Location.ofOffset_strip`: lines and columns in the stripped text;
* `layout_strip` puts them together.
-/

namespace Folio

/-! ### The declarations of a text -/

namespace Declaration

variable {source : Text} {metadata : Bool} {resume : Nat} {d e : Declaration} {l last : Line}
  {ls : List Line} {kind : DeclarationKind}

/-- A declaration ends before another one starts. -/
def Before (d e : Declaration) : Prop := d.span.stop < e.span.start

/-- What a scan finds from the line after a declaration on starts after the declaration. -/
theorem before_of_mem_scanFrom (last_mem : last ∈ Line.split source) (stop : d.span.stop = last.stop)
    (suffix : ls <:+ Line.split source) (mem : e ∈ scanFrom metadata last.next ls) :
    d.Before e := by
  obtain ⟨l, l_mem, reached, start, -⟩ := exists_start suffix mem
  have iff := Line.start_lt_next_iff (suffix.subset l_mem) last_mem
  rw [Before, stop, start]
  omega

theorem pairwise_scanFrom (suffix : ls <:+ Line.split source) :
    (scanFrom metadata resume ls).Pairwise Before := by
  induction ls generalizing metadata resume with
  | nil => exact .nil
  | cons l ls ih =>
    have suffix' : ls <:+ Line.split source := (List.suffix_cons l ls).trans suffix
    by_cases passed : l.start < resume ∨ Text.isBlank l.text = true
    · rw [scanFrom_of_passed passed]
      exact ih suffix'
    · rw [not_or, Nat.not_lt, Bool.not_eq_true] at passed
      cases found : declared? metadata l ls with
      | none =>
        rw [scanFrom_of_bare passed.1 passed.2 found]
        exact ih suffix'
      | some made =>
        rw [scanFrom_of_declared passed.1 passed.2 found]
        have last_mem := suffix.subset (of_declared? found).1
        exact .cons (fun e mem => before_of_mem_scanFrom last_mem rfl suffix' mem) (ih suffix')

/-- Declarations are apart and in order. -/
theorem pairwise_scan (source : Text) : (scan source).Pairwise Before := by
  unfold scan
  dsimp only
  split
  · rename_i d resume front
    obtain ⟨first, rest, close, lines, among, -, rfl, rfl⟩ := exists_of_frontMatter? front
    have close_mem : close ∈ Line.split source := lines ▸ List.mem_cons_of_mem first among
    exact .cons (fun e mem => before_of_mem_scanFrom close_mem rfl (List.suffix_refl _) mem)
      (pairwise_scanFrom (List.suffix_refl _))
  · exact pairwise_scanFrom (List.suffix_refl _)

/-- A declaration is an import, or metadata where that may come. -/
theorem kind_of_declared? (h : declared? metadata l ls = some (kind, last)) :
    kind = .importStatement ∨ metadata = true ∧ kind = .exportedMetadata := by
  unfold declared? at h
  split at h
  · cases h
  · split at h
    · cases h
      exact .inl rfl
    · split at h
      · rename_i exported
        obtain ⟨end_, -, made⟩ := Option.map_eq_some_iff.1 h
        cases made
        exact .inr ⟨(Bool.and_eq_true_iff.1 exported).1, rfl⟩
      · cases h

theorem length_metadata_cons {ds : List Declaration}
    (none : (ds.filter Metadata.isDeclaredBy).length ≤ 0) :
    ((d :: ds).filter Metadata.isDeclaredBy).length ≤ 1 := by
  rw [List.filter_cons]
  split
  · exact Nat.succ_le_succ none
  · exact Nat.le_trans none (Nat.zero_le _)

theorem length_metadata_scanFrom :
    ((scanFrom metadata resume ls).filter Metadata.isDeclaredBy).length ≤ metadata.toNat := by
  induction ls generalizing metadata resume with
  | nil => exact Nat.zero_le _
  | cons l ls ih =>
    by_cases passed : l.start < resume ∨ Text.isBlank l.text = true
    · rw [scanFrom_of_passed passed]
      exact ih
    · rw [not_or, Nat.not_lt, Bool.not_eq_true] at passed
      cases found : declared? metadata l ls with
      | none =>
        rw [scanFrom_of_bare passed.1 passed.2 found]
        exact Nat.le_trans ih (Nat.zero_le _)
      | some made =>
        rw [scanFrom_of_declared passed.1 passed.2 found]
        rcases kind_of_declared? found with kind | ⟨may, kind⟩
        · have rest := @ih metadata made.2.next
          rw [kind]
          simpa [Metadata.isDeclaredBy] using rest
        · rw [kind, may]
          exact length_metadata_cons ih

/-- At most one declaration is metadata. -/
theorem length_metadata_scan (source : Text) :
    ((scan source).filter Metadata.isDeclaredBy).length ≤ 1 := by
  unfold scan
  dsimp only
  split
  · exact length_metadata_cons length_metadata_scanFrom
  · exact length_metadata_scanFrom

/-- The ends of a declaration are boundaries of the text. -/
theorem isBoundary_of_mem_scan (mem : d ∈ scan source) :
    Text.isBoundary source d.span.start = true ∧ Text.isBoundary source d.span.stop = true := by
  obtain ⟨first, last, spans⟩ := exists_lines mem
  rw [spans.span]
  exact ⟨(Line.holds spans.first_mem).isBoundary, (Line.holds spans.last_mem).isBoundary_stop⟩

end Declaration

/-! ### Bytes of the stripped text -/

/-- Whether a byte lies in one of some spans. -/
def Span.isIn (spans : List Span) (i : Nat) : Bool := spans.any fun d => d.start ≤ i && i < d.stop

/-- A byte of a text after blanking out what lies in some spans. -/
def blankByte (spans : List Span) (i : Nat) (b : UInt8) : UInt8 :=
  if Span.isIn spans i && b != 10 && b != 13 then 32 else b

variable {spans : List Span} {at_ : Nat} {s : Text}

/-- An offset is not inside a character of a text that starts at an offset. -/
def Outside (at_ : Nat) (s : Text) (n : Nat) : Prop :=
  n ≤ at_ ∨ Text.isBoundary s (n - at_) = true

theorem outside_cons {c : Char} {n : Nat} (h : Outside at_ (c :: s) n) :
    n ≤ at_ ∨ at_ + c.utf8Size ≤ n ∧ Outside (at_ + c.utf8Size) s n := by
  rcases h with le | boundary
  · exact .inl le
  · obtain ⟨before, after, text_eq, size⟩ := Text.isBoundary_iff.1 boundary
    cases before with
    | nil =>
      rw [Text.bytes_nil] at size
      exact .inl (by omega)
    | cons d before =>
      obtain ⟨rfl, rfl⟩ := List.cons.inj text_eq
      rw [Text.bytes_cons] at size
      have pos := c.utf8Size_pos
      refine .inr ⟨by omega, .inr ?_⟩
      rw [show n - (at_ + c.utf8Size) = Text.bytes before by omega]
      exact Text.isBoundary_append before after

theorem octets_replicate_space (n : Nat) :
    Text.octets (List.replicate n ' ') = List.replicate n 32 := by
  induction n with
  | zero => rfl
  | succ n ih => rw [List.replicate_succ, Text.octets_cons, ih]; rfl

/-- The bytes of a character that lies in a span. -/
theorem octets_blankOut_singleton (c : Char) :
    (blankOut [c]).octets =
      (String.utf8EncodeChar c).map fun b => if b != 10 && b != 13 then 32 else b := by
  rcases blankOut_singleton c with ⟨rfl | rfl, eq⟩ | ⟨lf, cr, eq⟩
  · rfl
  · rfl
  · rw [eq, octets_replicate_space, ← String.length_utf8EncodeChar, eq_comm,
      List.map_eq_replicate_iff]
    intro b mem
    have other : ∀ d : Char, c ≠ d → d.toNat < 128 → b.toNat ≠ d.toNat := by
      intro d ne ascii same
      have := Text.toNat_of_mem_utf8EncodeChar mem (by omega)
      exact ne (Char.toNat_inj.1 (this.trans same))
    have not_lf : b ≠ 10 := fun is_lf => other '\n' lf (by decide) (is_lf ▸ rfl)
    have not_cr : b ≠ 13 := fun is_cr => other '\r' cr (by decide) (is_cr ▸ rfl)
    simp [not_lf, not_cr]

theorem octets_stripSpans (apart : ∀ d ∈ spans, Outside at_ s d.start ∧ Outside at_ s d.stop) :
    (stripSpans spans at_ s).octets = s.octets.mapIdx fun i b => blankByte spans (at_ + i) b := by
  induction s generalizing at_ with
  | nil => rfl
  | cons c s ih =>
    have rest : ∀ d ∈ spans,
        Outside (at_ + c.utf8Size) s d.start ∧ Outside (at_ + c.utf8Size) s d.stop := by
      intro d mem
      have later : ∀ n, Outside at_ (c :: s) n → Outside (at_ + c.utf8Size) s n := by
        intro n h
        rcases outside_cons h with le | ⟨-, later⟩
        · exact .inl (by omega)
        · exact later
      exact ⟨later _ (apart d mem).1, later _ (apart d mem).2⟩
    -- all bytes of a character lie in a span if the first one does
    have covered : ∀ i < c.utf8Size, Span.isIn spans (at_ + i) = Span.isIn spans at_ := by
      intro i lt
      rw [Bool.eq_iff_iff, Span.isIn, Span.isIn, List.any_eq_true, List.any_eq_true]
      refine exists_congr fun d => and_congr_right fun mem => ?_
      have start := outside_cons (apart d mem).1
      have stop := outside_cons (apart d mem).2
      simp only [Bool.and_eq_true, decide_eq_true_eq]
      omega
    rw [stripSpans, Text.octets_append, ih rest, Text.octets_cons, List.mapIdx_append,
      String.length_utf8EncodeChar]
    congr 1
    · have form : (if Span.isIn spans at_ then blankOut [c] else [c]).octets =
          (String.utf8EncodeChar c).map fun b =>
            if Span.isIn spans at_ && b != 10 && b != 13 then 32 else b := by
        cases Span.isIn spans at_ with
        | true => simpa using octets_blankOut_singleton c
        | false => simp
      refine form.trans (List.ext_getElem (by simp) fun i here there => ?_)
      rw [List.length_map, String.length_utf8EncodeChar] at here
      rw [List.getElem_map, List.getElem_mapIdx, blankByte, covered i here]
    · refine List.mapIdx_eq_mapIdx_iff.2 fun i lt => ?_
      rw [Nat.add_assoc, Nat.add_comm i]

/-- The stripped text, byte for byte. -/
theorem octets_strip (source : Text) :
    (strip source).octets =
      source.octets.mapIdx (blankByte ((Declaration.scan source).map (·.span))) := by
  have apart : ∀ d ∈ (Declaration.scan source).map (·.span),
      Outside 0 source d.start ∧ Outside 0 source d.stop := by
    intro _ mem
    obtain ⟨d, d_mem, rfl⟩ := List.mem_map.1 mem
    have ends := Declaration.isBoundary_of_mem_scan d_mem
    exact ⟨.inr ends.1, .inr ends.2⟩
  have form := octets_stripSpans apart
  simp only [Nat.zero_add] at form
  exact form

theorem bytes_strip (source : Text) : Text.bytes (strip source) = Text.bytes source :=
  bytes_stripSpans ..

/-! ### Copying with a cursor -/

/-- Copies a text from a cursor on: up to each of some spans as it is, and blanked out in the span. -/
def copyFrom (source : Text) (cursor : Nat) : List Span → Option Text
  | [] => source.cut? cursor (Text.bytes source)
  | d :: ds => do
    let kept ← source.cut? cursor d.start
    let removed ← source.cut? d.start d.stop
    return kept ++ blankOut removed ++ (← copyFrom source d.stop ds)

/-- A span has no effect on what comes after it. -/
theorem stripSpans_cons_of_le {d : Span} (past : d.stop ≤ at_) :
    stripSpans (d :: spans) at_ s = stripSpans spans at_ s := by
  induction s generalizing at_ with
  | nil => rfl
  | cons c s ih =>
    have outside : ¬ at_ < d.stop := Nat.not_lt_of_le past
    rw [stripSpans, stripSpans, ih (Nat.le_add_right_of_le past), List.any_cons]
    simp only [outside, decide_false, Bool.and_false, Bool.false_or]

/-- What is copied up to spans that come in order is what is in none of them. -/
theorem copyFrom_eq {source : Text} {cursor : Nat} (rest : source.IsRest cursor s)
    (cuts : ∀ d ∈ spans, cursor ≤ d.start ∧ source.IsCut d.start d.stop)
    (ordered : spans.Pairwise fun d e => d.stop ≤ e.start) :
    copyFrom source cursor spans = some (stripSpans spans cursor s) := by
  induction spans generalizing cursor s with
  | nil =>
    rw [stripSpans_of_apart (List.forall_mem_nil _), copyFrom, Text.cut?_eq_some_iff]
    obtain ⟨before, rfl, rfl⟩ := rest
    exact ⟨⟨[], before, by rw [List.append_nil], rfl⟩, by rw [Text.bytes_append]⟩
  | cons d ds ih =>
    obtain ⟨⟨le, cut⟩, cuts⟩ := List.forall_mem_cons.1 cuts
    obtain ⟨first, ordered⟩ := List.pairwise_cons.1 ordered
    -- the text up to the span, in the span and after it
    have upto : source.IsCut cursor d.start := ⟨le, rest.isBoundary, cut.start⟩
    obtain ⟨kept, ⟨more, rest'⟩, start⟩ := upto.exists_holds
    obtain ⟨removed, ⟨after, rest''⟩, stop⟩ := cut.exists_holds
    obtain rfl := rest.unique rest'
    have more_eq : more = removed ++ after := (start ▸ rest.append).unique rest''
    have apart : ∀ e ∈ d :: ds, cursor + Text.bytes kept ≤ e.start ∨ e.stop ≤ cursor := by
      refine List.forall_mem_cons.2 ⟨.inl (Nat.le_of_eq start), fun e mem => .inl ?_⟩
      rw [start]
      exact Nat.le_trans cut.ordered (first e mem)
    have whole := ih (stop ▸ rest''.append) (fun e mem => ⟨first e mem, (cuts e mem).2⟩) ordered
    have kept_eq : source.cut? cursor d.start = some kept :=
      Text.cut?_eq_some_iff.2 ⟨⟨_, rest⟩, start⟩
    have removed_eq : source.cut? d.start d.stop = some removed :=
      Text.cut?_eq_some_iff.2 ⟨⟨_, rest''⟩, stop⟩
    rw [copyFrom, kept_eq, removed_eq, whole, stripSpans_append, stripSpans_of_apart apart, start,
      more_eq, stripSpans_append,
      stripSpans_of_covered List.mem_cons_self (Nat.le_refl _) (Nat.le_of_eq stop), stop,
      stripSpans_cons_of_le (Nat.le_refl _)]
    simp

/-- **Copying.** The stripped text is what is copied with a cursor, up to each declaration and from
its end on. -/
theorem copyFrom_scan (source : Text) :
    copyFrom source 0 ((Declaration.scan source).map (·.span)) = some (strip source) := by
  refine copyFrom_eq (Text.IsRest.refl source) ?_ ?_
  · intro _ mem
    obtain ⟨d, d_mem, rfl⟩ := List.mem_map.1 mem
    obtain ⟨start, stop⟩ := Declaration.isBoundary_of_mem_scan d_mem
    obtain ⟨first, last, spans⟩ := Declaration.exists_lines d_mem
    refine ⟨Nat.zero_le _, ?_, start, stop⟩
    rw [spans.span]
    exact Nat.le_trans spans.le (Nat.le_add_right ..)
  · rw [List.pairwise_map]
    exact (Declaration.pairwise_scan source).imp fun lt => Nat.le_of_lt lt

/-! ### Lines and columns -/

namespace Line

variable {source : Text} {l : Line} {ls : List Line} {n : Nat}

/-- An offset is on a line: before its end, or at the end of a text that ends without a line feed. -/
def IsOn (l : Line) (n : Nat) : Prop := l.start ≤ n ∧ (n ≤ l.stop ∨ n < l.next)

instance (l : Line) (n : Nat) : Decidable (l.IsOn n) := by
  unfold IsOn
  infer_instance

/-- A beginning of some lines: whole lines with their endings, and a part of the line after them. -/
def Begins (ls : List Line) (p : Text) : Prop :=
  ∃ before after u, ls = before ++ after ∧ (∀ m ∈ before, m.ending ≠ .none) ∧
    p = join before ++ u ∧ (after = [] ∧ u = [] ∨
      ∃ l rest v, after = l :: rest ∧ l.raw = u ++ v ∧ l.IsOn (l.start + Text.bytes u))

theorem begins_of_join_eq {p q : Text} (suffix : ls <:+ split source) (eq : join ls = p ++ q) :
    Begins ls p := by
  induction ls generalizing p with
  | nil =>
    obtain ⟨rfl, -⟩ := List.append_eq_nil_iff.1 eq.symm
    exact ⟨[], [], [], rfl, nofun, rfl, .inl ⟨rfl, rfl⟩⟩
  | cons l ls ih =>
    -- the whole line, and a beginning of the lines after it
    have whole : ∀ t, p = l.raw ++ t → join ls = t ++ q → Begins (l :: ls) p := by
      rintro t rfl rest
      by_cases ends : l.ending = .none
      · obtain ⟨-, rfl⟩ := (whole_of_suffix suffix).2.1 ends
        obtain ⟨rfl, -⟩ := List.append_eq_nil_iff.1 rest.symm
        have next_eq : l.next = l.stop := by rw [next, ends]; rfl
        refine ⟨[], [l], l.raw, rfl, nofun, List.append_nil _,
          .inr ⟨l, [], [], rfl, (List.append_nil _).symm, Nat.le_add_right .., .inl ?_⟩⟩
        rw [bytes_raw, next_eq]
      · obtain ⟨before, after, u, rfl, ended, rfl, place⟩ :=
          ih ((List.suffix_cons l ls).trans suffix) rest
        refine ⟨l :: before, after, u, rfl, List.forall_mem_cons.2 ⟨ends, ended⟩, ?_, place⟩
        rw [join_cons, List.append_assoc]
    rw [join_cons] at eq
    rcases List.append_eq_append_iff.1 eq with ⟨t, p_eq, rest⟩ | ⟨t, raw_eq, rest⟩
    · exact whole t p_eq rest
    · by_cases past : t = []
      · rw [past, List.append_nil] at raw_eq
        rw [past, List.nil_append] at rest
        exact whole [] (by rw [raw_eq, List.append_nil]) rest.symm
      · refine ⟨[], l :: ls, p, rfl, nofun, rfl,
          .inr ⟨l, ls, t, rfl, raw_eq, Nat.le_add_right .., .inr ?_⟩⟩
        obtain ⟨c, t, rfl⟩ := List.exists_cons_of_ne_nil past
        have pos := c.utf8Size_pos
        rw [← bytes_raw, raw_eq, Text.bytes_append, Text.bytes_cons]
        omega

end Line

namespace Location

/-- After a line with its ending the next line begins. -/
theorem advance_raw {l : Line} (eol : '\n' ∉ l.text) (ends : l.ending ≠ .none)
    (at_ : Nat × Nat) : advance at_ l.raw = (at_.1 + 1, 1) := by
  rw [Line.raw, advance_append, advance_of_eol_not_mem eol]
  cases ending : l.ending with
  | none => contradiction
  | lf => rfl
  | crlf => rfl

theorem advance_join {ls : List Line} (eol : ∀ l ∈ ls, '\n' ∉ l.text)
    (ends : ∀ l ∈ ls, l.ending ≠ .none) (line : Nat) :
    advance (line, 1) (Line.join ls) = (line + ls.length, 1) := by
  induction ls generalizing line with
  | nil => rfl
  | cons l ls ih =>
    rw [List.forall_mem_cons] at eol ends
    rw [Line.join_cons, advance_append, advance_raw eol.1 ends.1, ih eol.2 ends.2,
      List.length_cons, Nat.add_assoc, Nat.add_comm 1]

/-- The location of a boundary, after some lines and a part of a line. -/
theorem ofOffset_lines {ls : List Line} (eol : ∀ l ∈ ls, '\n' ∉ l.text)
    (ends : ∀ l ∈ ls, l.ending ≠ .none) (u q : Text) :
    ofOffset (Line.join ls ++ u ++ q) (Text.bytes (Line.join ls ++ u)) =
      ⟨(advance (1 + ls.length, 1) u).1, (advance (1 + ls.length, 1) u).2,
        Text.bytes (Line.join ls ++ u)⟩ := by
  rw [ofOffset_append, advance_append, advance_join eol ends]

/-- Outside the lines of declarations, the stripped text has the lines and columns of the source. -/
theorem ofOffset_strip {source : Text} {n : Nat} (boundary : Text.isBoundary source n = true)
    (bare : ∀ l ∈ Line.split source, l.IsOn n → l.isCovered (Declaration.scan source) = false) :
    Text.isBoundary (strip source) n = true ∧
      ofOffset (strip source) n = ofOffset source n := by
  obtain ⟨p, q, text_eq, rfl⟩ := Text.isBoundary_iff.1 boundary
  have joined := Line.join_split source
  have lines' := split_strip source
  obtain ⟨before, after, u, lines, ended, rfl, place⟩ :=
    Line.begins_of_join_eq (List.suffix_refl _) (joined.trans text_eq)
  generalize Declaration.scan source = ds at bare lines'
  rw [lines, List.map_append] at lines'
  -- the text before the place is divided into as many lines in the stripped text
  have eol : ∀ l ∈ before, '\n' ∉ l.text :=
    fun l mem => Line.eol_not_mem (lines ▸ List.mem_append_left _ mem)
  have eol' : ∀ l ∈ before.map (Line.blanked ds), '\n' ∉ l.text :=
    fun l mem => Line.eol_not_mem (lines' ▸ List.mem_append_left _ mem)
  have ended' : ∀ l ∈ before.map (Line.blanked ds), l.ending ≠ .none := by
    intro l mem
    obtain ⟨m, among, rfl⟩ := List.mem_map.1 mem
    rw [Line.ending_blanked]
    exact ended m among
  have size : Text.bytes (Line.join (before.map (Line.blanked ds)) ++ u) =
      Text.bytes (Line.join before ++ u) := by
    rw [Text.bytes_append, Text.bytes_append, Line.bytes_join_blanked]
  obtain ⟨q', text_eq'⟩ : ∃ q', strip source =
      Line.join (before.map (Line.blanked ds)) ++ u ++ q' := by
    rw [← Line.join_split (strip source), lines', Line.join_append]
    rcases place with ⟨rfl, rfl⟩ | ⟨l, rest, v, rfl, raw_eq, on⟩
    · exact ⟨[], by simp [Line.join]⟩
    · rw [Line.start_of_split lines, ← Text.bytes_append] at on
      have clear := bare l (lines ▸ List.mem_append_right _ List.mem_cons_self) on
      refine ⟨v ++ Line.join (rest.map (Line.blanked ds)), ?_⟩
      rw [List.map_cons, Line.blanked_of_bare clear, Line.join_cons, raw_eq, List.append_assoc,
        List.append_assoc]
  constructor
  · rw [← size, text_eq']
    exact Text.isBoundary_append _ _
  · have place' := ofOffset_lines eol' ended' u q'
    rw [← text_eq', size, List.length_map] at place'
    rw [place', text_eq, ofOffset_lines eol ended]

end Location

/-- **Layout.** Declarations are apart and in order, from the start of a line to the end of the same
or a later line, and at most one of them is metadata. Stripping them makes every byte in them but
line endings a space and keeps all other bytes, so that the text has as many bytes and the same lines,
and places that are on no line of a declaration have the same line and column. -/
theorem layout_strip (raw : Text) :
    (Declaration.scan raw).Pairwise Declaration.Before ∧
      (∀ d ∈ Declaration.scan raw, ∃ first last, d.Spans raw first last) ∧
      ((Declaration.scan raw).filter Metadata.isDeclaredBy).length ≤ 1 ∧
      Text.bytes (strip raw) = Text.bytes raw ∧
      (strip raw).octets =
        raw.octets.mapIdx (blankByte ((Declaration.scan raw).map (·.span))) ∧
      (Line.split (strip raw)).map (fun l => (l.start, l.stop, l.ending)) =
        (Line.split raw).map (fun l => (l.start, l.stop, l.ending)) ∧
      ∀ n, Text.isBoundary raw n = true →
        (∀ l ∈ Line.split raw, l.IsOn n → l.isCovered (Declaration.scan raw) = false) →
        Text.isBoundary (strip raw) n = true ∧
          Location.ofOffset (strip raw) n = Location.ofOffset raw n := by
  refine ⟨Declaration.pairwise_scan raw, fun d mem => Declaration.exists_lines mem,
    Declaration.length_metadata_scan raw, bytes_strip raw, octets_strip raw, ?_,
    fun n boundary bare => Location.ofOffset_strip boundary bare⟩
  rw [split_strip, List.map_map]
  exact List.map_congr_left fun l _ => by simp

/-- After an import that is blanked out, a place is in the second line as before. -/
theorem layout_strip_import :
    let raw := "import 'é'\nb".toList
    Declaration.scan raw = [⟨.importStatement, ⟨0, 11⟩⟩] ∧
      strip raw = "           \nb".toList ∧ Location.ofOffset (strip raw) 12 = ⟨2, 1, 12⟩ := by
  intro raw
  have declared : Declaration.scan raw = [⟨.importStatement, ⟨0, 11⟩⟩] := by decide
  have place := ((layout_strip raw).2.2.2.2.2.2 12 (by decide) (by decide)).2
  exact ⟨declared, by decide, place.trans (by decide)⟩

end Folio
