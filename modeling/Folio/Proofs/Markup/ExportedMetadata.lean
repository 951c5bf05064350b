import Folio.Proofs.Markup.CarriageReturns
import Folio.Proofs.Markup.Literals

/-!
# The text of an exported constant

What a declaration of exported metadata covers, and so what stripping blanks out: the words
`export const meta`, a literal, and all that stands between them and after the literal on its last
line, whether it belongs to a statement or not.

* `Declaration.exists_isExport`: the text, and when it is a statement;
* `Declaration.not_isStatement_prose`: prose that is taken for metadata.
-/

namespace Folio

variable {source s t w between between' literal literal' tail tail' : Text} {d : Declaration} {c : Char}
  {l last : Line} {ls : List Line}

namespace Text

/-- The characters of a text that are no white space. -/
def visible (s : Text) : Text := s.filter (!isBlankChar ·)

theorem visible_append (s t : Text) : visible (s ++ t) = visible s ++ visible t := List.filter_append ..

theorem visible_of_isBlank (blank : isBlank s = true) : visible s = [] := by
  rw [visible, List.filter_eq_nil_iff]
  intro c mem
  simpa using List.all_eq_true.1 blank c mem

theorem words_ne_nil (visible : isBlankChar c = false) (s : Text) : words (c :: s) ≠ [] := by
  rw [words, if_neg (by simpa using visible)]
  split
  · exact List.cons_ne_nil _ _
  · split <;> exact List.cons_ne_nil _ _

/-- A word comes after white space, perhaps none, and goes on to white space or the end. -/
theorem exists_of_words {ws : List Text} (h : words s = w :: ws) :
    ∃ b t, s = b ++ (w ++ t) ∧ isBlank b = true ∧ words t = ws ∧ t.head?.all isBlankChar = true := by
  induction s generalizing w ws with
  | nil => cases h
  | cons c s ih =>
    rw [words] at h
    split at h
    · next blank =>
      obtain ⟨b, t, rfl, blanks, rest, ends⟩ := ih h
      exact ⟨c :: b, t, rfl, List.all_cons.trans (Bool.and_eq_true_iff.2 ⟨blank, blanks⟩), rest, ends⟩
    · split at h
      · next ends =>
        cases h
        exact ⟨[], s, rfl, rfl, rfl, ends⟩
      · next going =>
        cases s with
        | nil => exact absurd rfl going
        | cons d s =>
          have visible : isBlankChar d = false := by simpa using going
          split at h
          · next nothing => exact absurd nothing (words_ne_nil visible s)
          · next w' ws' more =>
            cases h
            obtain ⟨b, t, text, blanks, rest, ends⟩ := ih more
            cases b with
            | nil => exact ⟨[], t, by rw [text]; rfl, rfl, rest, ends⟩
            | cons x b =>
              obtain ⟨rfl, -⟩ := List.cons.inj text
              rw [isBlank, List.all_cons, visible] at blanks
              cases blanks

/-- A further word comes after some white space. -/
theorem exists_of_next_word {ws : List Text} (ends : s.head?.all isBlankChar = true)
    (h : words s = w :: ws) (visible : w.head?.any (!isBlankChar ·) = true) :
    ∃ b t, s = b ++ (w ++ t) ∧ isBlank b = true ∧ b ≠ [] ∧ words t = ws ∧
      t.head?.all isBlankChar = true := by
  obtain ⟨b, t, rfl, blanks, rest, ends'⟩ := exists_of_words h
  refine ⟨b, t, rfl, blanks, ?_, rest, ends'⟩
  rintro rfl
  cases w with
  | nil => cases visible
  | cons c w =>
    have blank : isBlankChar c = true := ends
    simp [blank] at visible

end Text

/-- What a span covers is blanked out. -/
theorem holds_stripSpans_of_covered {spans : List Span} {span : Span} {n : Nat} (mem : span ∈ spans)
    (start : span.start ≤ n) (stop : n + Text.bytes t ≤ span.stop) (held : source.Holds n t) :
    (stripSpans spans 0 source).Holds n (blankOut t) := by
  obtain ⟨after, before, rfl, size⟩ := held
  refine ⟨stripSpans spans (n + Text.bytes t) after, stripSpans spans 0 before, ?_,
    (bytes_stripSpans ..).trans size⟩
  rw [stripSpans_append, stripSpans_append, Nat.zero_add, size, stripSpans_of_covered mem start stop]

/-! ### What is taken for an export -/

/-- A text that begins with `export const meta`, and what comes then. -/
structure IsExportLead (between lead : Text) : Prop where
  words : ∃ b b' b'', lead = b ++ ("export".toList ++ (b' ++ ("const".toList ++ (b'' ++
      ("meta".toList ++ between))))) ∧ Text.isBlank b = true ∧
    (Text.isBlank b' = true ∧ b' ≠ []) ∧ (Text.isBlank b'' = true ∧ b'' ≠ [])

/-- A line that exports the constant `meta` begins so, and the last word ends or goes on with an
equals sign. -/
theorem exists_isExportLead (h : Declaration.isExport s = true) :
    ∃ w, IsExportLead w s ∧ w.head?.all (fun c => c == '=' || Text.isBlankChar c) = true := by
  unfold Declaration.isExport at h
  split at h
  · rename_i e c m ws words_eq
    simp only [Bool.and_eq_true, Bool.or_eq_true, beq_iff_eq, List.isPrefixOf_iff_prefix] at h
    obtain ⟨⟨rfl, rfl⟩, third⟩ := h
    obtain ⟨b, t, rfl, blank, rest, ends⟩ := Text.exists_of_words words_eq
    obtain ⟨b', t, rfl, blank', some', rest', ends'⟩ := Text.exists_of_next_word ends rest rfl
    have visible : m.head?.any (!Text.isBlankChar ·) = true := by
      rcases third with rfl | ⟨w, rfl⟩ <;> rfl
    obtain ⟨b'', t, rfl, blank'', some'', -, ends''⟩ :=
      Text.exists_of_next_word ends' rest' visible
    rcases third with rfl | ⟨w, rfl⟩
    · refine ⟨t, ⟨b, b', b'', rfl, blank, ⟨blank', some'⟩, ⟨blank'', some''⟩⟩, ?_⟩
      cases t with
      | nil => rfl
      | cons d t =>
        have after : Text.isBlankChar d = true := ends''
        simp [after]
    · exact ⟨'=' :: (w ++ t), ⟨b, b', b'', rfl, blank, ⟨blank', some'⟩, ⟨blank'', some''⟩⟩, rfl⟩
  · cases h

namespace IsExportLead

theorem visible_eq {lead : Text} (h : IsExportLead between lead) :
    Text.visible lead = "exportconstmeta".toList ++ Text.visible between := by
  obtain ⟨b, b', b'', rfl, blank, ⟨blank', -⟩, ⟨blank'', -⟩⟩ := h
  simp only [Text.visible_append, Text.visible_of_isBlank, blank, blank', blank'', List.nil_append]
  rfl

theorem append {lead : Text} (h : IsExportLead between lead) (w : Text) :
    IsExportLead (between ++ w) (lead ++ w) := by
  obtain ⟨b, b', b'', rfl, blanks⟩ := h
  exact ⟨b, b', b'', by simp only [List.append_assoc], blanks⟩

/-- Up to the first brace a text begins in the same way. -/
theorem takeWhile {lead : Text} (h : IsExportLead between lead) :
    IsExportLead (between.takeWhile (· != '{')) (lead.takeWhile (· != '{')) := by
  obtain ⟨b, b', b'', rfl, blank, ⟨blank', some'⟩, ⟨blank'', some''⟩⟩ := h
  have plain : ∀ {s : Text}, Text.isBlank s = true → ∀ c ∈ s, (c != '{') = true := by
    intro s blank c mem
    have is_blank := List.all_eq_true.1 blank c mem
    rw [bne_iff_ne]
    rintro rfl
    cases is_blank
  refine ⟨b, b', b'', ?_, blank, ⟨blank', some'⟩, ⟨blank'', some''⟩⟩
  have word : ∀ w ∈ ["export".toList, "const".toList, "meta".toList], ∀ c ∈ w, (c != '{') = true := by
    simp
  simp only [List.forall_mem_cons] at word
  rw [List.takeWhile_append_of_pos (plain blank), List.takeWhile_append_of_pos word.1,
    List.takeWhile_append_of_pos (plain blank'), List.takeWhile_append_of_pos word.2.1,
    List.takeWhile_append_of_pos (plain blank''), List.takeWhile_append_of_pos word.2.2.1]

/-- A brace comes after the words. -/
theorem mem_between {lead : Text} (h : IsExportLead between lead) (mem : '{' ∈ lead) : '{' ∈ between := by
  obtain ⟨b, b', b'', rfl, blank, ⟨blank', -⟩, ⟨blank'', -⟩⟩ := h
  have plain : ∀ {s : Text}, Text.isBlank s = true → '{' ∉ s :=
    fun blank inside => absurd (List.all_eq_true.1 blank _ inside) (by decide)
  simpa [plain blank, plain blank', plain blank''] using mem

end IsExportLead

/-- The parts of a text that is taken for an export: what stands between the words and the first
brace, the literal from there on, and what stands after it. -/
structure IsExport (between literal tail t : Text) : Prop where
  text : ∃ lead, IsExportLead between lead ∧ '{' ∉ lead ∧ t = lead ++ (literal ++ tail)
  literal : Expression.IsLiteral literal

/-- A statement that exports metadata, apart from white space: `export const meta`, an equals sign, a
literal, and perhaps a semicolon. -/
def IsStatement (t : Text) : Prop :=
  ∃ between literal tail, IsExport between literal tail t ∧ Text.visible between = ['='] ∧
    (Text.visible tail = [] ∨ Text.visible tail = [';'])

/-- The parts are the only ones. -/
theorem IsExport.unique (h : IsExport between literal tail t) (h' : IsExport between' literal' tail' t) :
    Text.visible between = Text.visible between' ∧ literal = literal' ∧ tail = tail' := by
  obtain ⟨⟨lead, begins, bare, text⟩, is_literal⟩ := h
  obtain ⟨⟨lead', begins', bare', text'⟩, is_literal'⟩ := h'
  have before : ∀ {lead literal : Text} (tail : Text), '{' ∉ lead → Expression.IsLiteral literal →
      (lead ++ (literal ++ tail)).takeWhile (· != '{') = lead := by
    rintro lead literal tail bare ⟨u, -, rfl⟩
    rw [List.takeWhile_append_of_pos fun c mem => by simpa using ne_of_mem_of_not_mem mem bare]
    simp
  obtain rfl : lead = lead' := by
    rw [← before tail bare is_literal, ← text, text', before tail' bare' is_literal']
  rw [text, List.append_cancel_left_eq] at text'
  have same_literal : literal = literal' :=
    is_literal.eq_of_isPrefix is_literal' ⟨tail, rfl⟩ ⟨tail', text'.symm⟩
  subst same_literal
  have same := begins.visible_eq.symm.trans begins'.visible_eq
  exact ⟨List.append_cancel_left same, rfl, List.append_cancel_left text'⟩

theorem IsExport.isStatement_iff (h : IsExport between literal tail t) :
    IsStatement t ↔ Text.visible between = ['='] ∧
      (Text.visible tail = [] ∨ Text.visible tail = [';']) := by
  constructor
  · rintro ⟨between', literal', tail', parts, equals, ends⟩
    obtain ⟨same, rfl, rfl⟩ := h.unique parts
    exact ⟨same.trans equals, ends⟩
  · exact fun ⟨equals, ends⟩ => ⟨between, literal, tail, h, equals, ends⟩

/-! ### Lines -/

/-- A brace in a line comes before its ending: what follows it on the line is a part of the line. -/
theorem Line.exists_holds_after (mem : l ∈ Line.split source) {n : Nat} (held : source.Holds n ['}'])
    (le : l.start ≤ n) (lt : n < l.next) :
    ∃ tail, '\n' ∉ tail ∧ source.Holds (n + 1) tail ∧ l.stop = n + 1 + Text.bytes tail := by
  obtain ⟨k, rfl⟩ := Nat.exists_eq_add_of_le le
  have one : '}'.utf8Size = 1 := rfl
  have within : k + Text.bytes ['}'] ≤ Text.bytes l.raw := by
    rw [← Line.bytes_raw] at lt
    rw [Text.bytes_cons, Text.bytes_nil, one]
    omega
  obtain ⟨after, before, raw, rfl⟩ := (Line.holds_raw mem).inside held within
  obtain ⟨tail, text⟩ : ∃ tail, l.text = before ++ '}' :: tail := by
    have ending : '}' ∉ l.ending.text := by cases l.ending <;> decide
    rcases List.append_eq_append_iff.1 raw with ⟨w, -, rest⟩ | ⟨w, text, rest⟩
    · exact absurd (rest ▸ by simp) ending
    · cases w with
      | nil =>
        rw [List.nil_append] at rest
        exact absurd (rest ▸ List.mem_cons_self) ending
      | cons c w =>
        obtain ⟨rfl, -⟩ := List.cons.inj rest
        exact ⟨w, text⟩
  have stands := Line.holds mem
  rw [text, Text.holds_append_iff, Text.holds_cons_iff, one] at stands
  refine ⟨tail, fun eol => Line.eol_not_mem mem (by rw [text]; simp [eol]), stands.2.2, ?_⟩
  rw [Line.stop, text, Text.bytes_append, Text.bytes_cons, one]
  omega

namespace Declaration

/-- What a scan finds is declared at the line that it starts at. -/
theorem exists_declared {metadata : Bool} {resume : Nat} (suffix : ls <:+ Line.split source)
    (mem : d ∈ scanFrom metadata resume ls) :
    ∃ m l ls' last, l :: ls' <:+ Line.split source ∧ declared? m l ls' = some (d.kind, last) ∧
      d.span = ⟨l.start, last.stop⟩ := by
  induction ls generalizing metadata resume with
  | nil => cases mem
  | cons l ls ih =>
    have suffix' : ls <:+ Line.split source := (List.suffix_cons l ls).trans suffix
    by_cases passed : l.start < resume ∨ Text.isBlank l.text = true
    · rw [scanFrom_of_passed passed] at mem
      exact ih suffix' mem
    · rw [not_or, Nat.not_lt, Bool.not_eq_true] at passed
      obtain ⟨reached, filled⟩ := passed
      cases found : declared? metadata l ls with
      | none =>
        rw [scanFrom_of_bare reached filled found] at mem
        exact ih suffix' mem
      | some made =>
        rw [scanFrom_of_declared reached filled found] at mem
        rcases List.mem_cons.1 mem with rfl | mem
        · exact ⟨metadata, l, ls, made.2, suffix, found, rfl⟩
        · exact ih suffix' mem

/-- Where metadata is exported, its line says so, and its last line has been found. -/
theorem of_declared?_exported {m : Bool} (found : declared? m l ls = some (.exportedMetadata, last)) :
    isExport l.text = true ∧ exportEnd? (l :: ls) = some last := by
  unfold declared? at found
  split at found
  · cases found
  · split at found
    · cases found
    · split at found
      · next exported =>
        obtain ⟨end_, ended, made⟩ := Option.map_eq_some_iff.1 found
        cases made
        exact ⟨(Bool.and_eq_true_iff.1 exported).2, ended⟩
      · cases found

/-- The lines of an exported constant. -/
theorem exists_export (mem : d ∈ scan source) (kind : d.kind = .exportedMetadata) :
    ∃ l ls last, l :: ls <:+ Line.split source ∧ isExport l.text = true ∧
      exportEnd? (l :: ls) = some last ∧ d.span = ⟨l.start, last.stop⟩ := by
  have inner : ∃ metadata resume, d ∈ scanFrom metadata resume (Line.split source) := by
    unfold scan at mem
    dsimp only at mem
    split at mem
    · next front =>
      rcases List.mem_cons.1 mem with rfl | mem
      · obtain ⟨first, rest, close, -, -, -, rfl, -⟩ := exists_of_frontMatter? front
        cases kind
      · exact ⟨_, _, mem⟩
    · exact ⟨_, _, mem⟩
  obtain ⟨metadata, resume, mem⟩ := inner
  obtain ⟨m, l, ls, last, suffix, found, span⟩ := exists_declared (List.suffix_refl _) mem
  rw [kind] at found
  obtain ⟨exported, ended⟩ := of_declared?_exported found
  exact ⟨l, ls, last, suffix, exported, ended, span⟩

/-- An exported constant has a literal from the first brace on, and goes on to the line where this
ends. -/
theorem exists_literal_of_exportEnd? (ended : exportEnd? (l :: ls) = some last) :
    ∃ literal, Expression.IsLiteral literal ∧ literal <+: braced (l :: ls) ∧
      lineAt? (l.start + unbraced (l :: ls) + Text.bytes literal - 1) (l :: ls) = some last := by
  rw [exportEnd?_cons] at ended
  cases scanned : Expression.scan .outside 0 (l.start + unbraced (l :: ls)) (braced (l :: ls)) with
  | error e =>
    rw [scanned] at ended
    cases ended
  | ok literal =>
    rw [scanned] at ended
    have first := List.head?_dropWhile_not (· != '{') (Line.join (l :: ls))
    rw [← braced] at first
    have read : Expression.read (l.start + unbraced (l :: ls)) (braced (l :: ls)) = .ok literal := by
      rw [Expression.read, scanned]
    cases from_brace : braced (l :: ls) with
    | nil =>
      rw [from_brace] at scanned
      cases scanned
    | cons c s =>
      rw [from_brace] at first read
      obtain rfl : c = '{' := by simpa using first
      obtain ⟨begins, is_literal⟩ := Expression.read_eq_ok_iff.1 read
      exact ⟨literal, is_literal, begins, ended⟩

/-- After the words of an export comes white space or an equals sign. -/
theorem head?_after_words (suffix : l :: ls <:+ Line.split source)
    (starts : w.head?.all (fun c => c == '=' || Text.isBlankChar c) = true) :
    (w ++ (l.ending.text ++ Line.join ls)).head?.all (fun c => c == '=' || Text.isBlankChar c) =
      true := by
  cases w with
  | cons c w => exact starts
  | nil =>
    cases ending : l.ending with
    | none =>
      rw [((Line.whole_of_suffix suffix).2.1 ending).2]
      rfl
    | lf => rfl
    | crlf => rfl

/-- What stands between the words of an export and the first brace. -/
theorem exists_between (suffix : l :: ls <:+ Line.split source) (exported : isExport l.text = true)
    (brace : '{' ∈ Line.join (l :: ls)) :
    ∃ between, IsExportLead between ((Line.join (l :: ls)).takeWhile (· != '{')) ∧
      ∃ c w, between = c :: w ∧ (c = '=' ∨ Text.isBlankChar c = true) := by
  obtain ⟨w, begins, starts⟩ := exists_isExportLead exported
  have text : Line.join (l :: ls) = l.text ++ (l.ending.text ++ Line.join ls) := by
    rw [Line.join_cons, Line.raw, List.append_assoc]
  have begins := begins.append (l.ending.text ++ Line.join ls)
  rw [← text] at begins
  refine ⟨_, begins.takeWhile, ?_⟩
  have starts := head?_after_words suffix starts
  obtain ⟨c, y, after⟩ := List.exists_cons_of_ne_nil (List.ne_nil_of_mem (begins.mem_between brace))
  rw [after] at starts ⊢
  have kind : c = '=' ∨ Text.isBlankChar c = true := by simpa using starts
  refine ⟨c, y.takeWhile (· != '{'), List.takeWhile_cons_of_pos ?_, kind⟩
  rw [bne_iff_ne]
  rintro rfl
  rcases kind with kind | kind <;> cases kind

/-- What stands after a literal on the line where it ends. -/
theorem exists_holds_after_literal {pos : Nat} {rest : Text} (suffix : l :: ls <:+ Line.split source)
    (is_literal : Expression.IsLiteral literal) (from_here : source.IsRest pos (literal ++ rest))
    (le : l.start ≤ pos) (found : lineAt? (pos + Text.bytes literal - 1) (l :: ls) = some last) :
    ∃ tail, '\n' ∉ tail ∧ source.Holds (pos + Text.bytes literal) tail ∧
      last.stop = pos + Text.bytes literal + Text.bytes tail := by
  obtain ⟨u, -, rfl⟩ := is_literal
  have closing : source.Holds (pos + Text.bytes ('{' :: u)) ['}'] := by
    have held := from_here.holds_of_begins ⟨rest, rfl⟩
    rw [← List.cons_append, Text.holds_append_iff] at held
    exact held.2
  have one : Text.bytes ['}'] = 1 := rfl
  have size : pos + Text.bytes ('{' :: (u ++ ['}'])) = pos + Text.bytes ('{' :: u) + 1 := by
    rw [← List.cons_append, Text.bytes_append, one, Nat.add_assoc]
  have within := Text.le_bytes_of_isBoundary closing.isBoundary_stop
  rw [one] at within
  rw [size, Nat.add_sub_cancel] at found
  obtain ⟨chunk, after, -, found', reached, lt⟩ := exists_lineAt? suffix
    (Nat.le_add_right_of_le le) within
  obtain rfl := Option.some.inj (found'.symm.trans found)
  rw [size]
  exact Line.exists_holds_after (suffix.subset (mem_of_lineAt? found)) closing reached lt

/-- The text of an exported constant, from the start of its first line to the end of its last. -/
theorem exists_isExport_of_exportEnd? (suffix : l :: ls <:+ Line.split source)
    (exported : isExport l.text = true) (ended : exportEnd? (l :: ls) = some last) :
    ∃ between literal tail t, IsExport between literal tail t ∧
      (∃ c w, between = c :: w ∧ (c = '=' ∨ Text.isBlankChar c = true)) ∧ '\n' ∉ tail ∧
      source.Holds l.start t ∧ last.stop = l.start + Text.bytes t := by
  obtain ⟨literal, is_literal, ⟨rest, from_brace⟩, found⟩ := exists_literal_of_exportEnd? ended
  have whole := isRest_braced suffix
  rw [← from_brace] at whole
  have brace : '{' ∈ Line.join (l :: ls) := by
    refine (List.dropWhile_suffix (· != '{')).subset ?_
    obtain ⟨u, -, rfl⟩ := id is_literal
    rw [← braced, ← from_brace]
    exact List.mem_cons_self
  obtain ⟨between, begins, starts⟩ := exists_between suffix exported brace
  obtain ⟨tail, one_line, held, stop⟩ :=
    exists_holds_after_literal suffix is_literal whole (Nat.le_add_right ..) found
  have bare : '{' ∉ (Line.join (l :: ls)).takeWhile (· != '{') :=
    fun mem => absurd (List.mem_takeWhile_imp mem) (by decide)
  have lead : source.Holds l.start ((Line.join (l :: ls)).takeWhile (· != '{')) := by
    have text := Line.isRest suffix
    rw [← List.append_assoc, ← Line.raw, ← Line.join_cons] at text
    exact text.holds_of_begins (List.takeWhile_prefix _)
  refine ⟨between, literal, tail, _, ⟨⟨_, begins, bare, rfl⟩, is_literal⟩, starts, one_line, ?_, ?_⟩
  · rw [Text.holds_append_iff, Text.holds_append_iff]
    exact ⟨lead, whole.holds_of_begins ⟨rest, rfl⟩, held⟩
  · rw [stop, Text.bytes_append, Text.bytes_append, unbraced]
    omega

/-- **What stripping blanks out as exported metadata**: a text from the words `export const meta` to
the end of the line on which a literal ends, which is a statement just if there is an equals sign
alone before the literal and nothing but a semicolon after it. -/
theorem exists_isExport (mem : d ∈ scan source) (kind : d.kind = .exportedMetadata) :
    ∃ between literal tail t, IsExport between literal tail t ∧
      (∃ c w, between = c :: w ∧ (c = '=' ∨ Text.isBlankChar c = true)) ∧ '\n' ∉ tail ∧
      Text.cut? source d.span.start d.span.stop = some t ∧
      Text.cut? (strip source) d.span.start d.span.stop = some (blankOut t) ∧
      (IsStatement t ↔ Text.visible between = ['='] ∧
        (Text.visible tail = [] ∨ Text.visible tail = [';'])) := by
  obtain ⟨l, ls, last, suffix, exported, ended, span⟩ := exists_export mem kind
  obtain ⟨between, literal, tail, t, parts, starts, one_line, held, stop⟩ :=
    exists_isExport_of_exportEnd? suffix exported ended
  rw [stop] at span
  have blanked : (strip source).Holds l.start (blankOut t) :=
    holds_stripSpans_of_covered (List.mem_map_of_mem mem) (by rw [span]) (by rw [span]) held
  rw [span]
  refine ⟨between, literal, tail, t, parts, starts, one_line, held.cut?_eq, ?_, parts.isStatement_iff⟩
  have size := blanked.cut?_eq
  rwa [bytes_blankOut] at size

/-- A statement over two lines, and what is read of its parts. -/
theorem exists_isExport_twoLines :
    let source : Text := "export const meta = \x7b\n  a: 1 \x7d ;\ntext\n".toList
    let d : Declaration := { kind := .exportedMetadata, span := ⟨0, 32⟩ }
    d ∈ scan source ∧ d.kind = .exportedMetadata ∧
      ∃ between literal tail t, IsExport between literal tail t ∧
        (∃ c w, between = c :: w ∧ (c = '=' ∨ Text.isBlankChar c = true)) ∧ '\n' ∉ tail ∧
        Text.cut? source d.span.start d.span.stop = some t ∧
        Text.cut? (strip source) d.span.start d.span.stop = some (blankOut t) ∧
        (IsStatement t ↔ Text.visible between = ['='] ∧
          (Text.visible tail = [] ∨ Text.visible tail = [';'])) := by
  intro source d
  have mem : d ∈ scan source := by decide
  exact ⟨mem, rfl, exists_isExport mem rfl⟩

/-- Prose that begins with these words and has a literal in it is blanked out. -/
theorem not_isStatement_prose :
    let t : Text := "export const meta tags \x7ba\x7d here".toList
    let source : Text := t ++ ['\n']
    scan source = [{ kind := .exportedMetadata, span := ⟨0, 31⟩ }] ∧
      Text.cut? source 0 31 = some t ∧ ¬IsStatement t ∧
      strip source = List.replicate 31 ' ' ++ ['\n'] := by
  intro t source
  have words : IsExportLead " tags ".toList "export const meta tags ".toList :=
    ⟨[], [' '], [' '], by decide, rfl, by decide, by decide⟩
  have is_literal : Expression.IsLiteral "\x7ba\x7d".toList :=
    ⟨['a'], .plain (by decide) (by decide) rfl .nil, by decide⟩
  have parts : IsExport " tags ".toList "\x7ba\x7d".toList " here".toList t :=
    ⟨⟨_, words, by decide, by decide⟩, is_literal⟩
  refine ⟨by decide, by decide, fun statement => ?_, by decide⟩
  exact absurd (parts.isStatement_iff.1 statement).1 (by decide)

end Declaration

end Folio
