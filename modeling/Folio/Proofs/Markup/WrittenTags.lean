import Folio.Proofs.Markup.TagEnds
import Folio.Proofs.Markup.Manuscript

/-!
# Tags as they are written

A tag that is written from a name and props is read back, whatever comes after it, and so is the
closing tag after a body without tags and code.

* `OpenTag.exists_read_write`: the tag that is read back;
* `ClosingTag.findFrom_write`: the closing tag after a body.
-/

namespace Folio

/-- A prop as it is written: a name with a quoted text, or a name alone. -/
abbrev PlainProp := Text × Option Text

namespace PlainProp

/-- The characters of a prop, after a space. -/
def write (p : PlainProp) : Text :=
  ' ' :: (p.1 ++ match p.2 with
    | some value => '=' :: '"' :: (value ++ ['"'])
    | none => [])

/-- The prop that is written, without its span. -/
def prop (p : PlainProp) : WidgetProp where
  name := String.ofList p.1
  value := match p.2 with
    | some value => .string (String.ofList value)
    | none => .flag
  span := ⟨0, 0⟩

/-- A name that can be read back, and a text in which no quote and no escape stands. -/
structure IsPlain (p : PlainProp) : Prop where
  starts : p.1.head?.any TagToken.isNameStart = true
  name : ∀ c ∈ p.1, isNameChar c = true
  value : ∀ v ∈ p.2, '"' ∉ v ∧ '\\' ∉ v

end PlainProp

/-- A widget's name. -/
structure IsTagName (name : Text) : Prop where
  starts : name.head?.any isUpper = true
  chars : ∀ c ∈ name, isNameChar c = true

namespace TagToken

variable {c : Char} {s w rest v : Text}

theorem read?_of_isNameStart (h : isNameStart c = true) :
    read? (c :: s) = some (.name (c :: s.takeWhile isNameChar)) := by
  unfold read?
  split
  · contradiction
  all_goals rename_i eq
  all_goals obtain ⟨rfl, rfl⟩ := List.cons.inj eq
  · cases h
  · cases h
  · cases h
  · cases h
  · cases h
  · rw [if_pos h]

theorem takeWhile_name (name : ∀ d ∈ w, isNameChar d = true)
    (ends : rest.head?.all (!isNameChar ·) = true) : (w ++ rest).takeWhile isNameChar = w := by
  rw [List.takeWhile_append_of_pos name]
  cases rest with
  | nil => simp
  | cons d rest =>
    have other : (!isNameChar d) = true := ends
    rw [List.takeWhile_cons_of_neg (by simpa using other), List.append_nil]

theorem quotedRest?_plain (plain : '"' ∉ v ∧ '\\' ∉ v) (rest : Text) :
    quotedRest? '"' (v ++ '"' :: rest) = some (v ++ ['"']) := by
  induction v with
  | nil => simp [quotedRest?]
  | cons c v ih =>
    simp only [List.mem_cons, not_or] at plain
    have other : (c == '"') = false := beq_eq_false_iff_ne.2 (Ne.symm plain.1.1)
    rw [List.cons_append, quotedRest?_cons (Ne.symm plain.2.1), other, if_neg Bool.false_ne_true,
      ih ⟨plain.1.2, plain.2.2⟩]
    rfl

/-- After a quote a quoted string is read, or nothing. -/
theorem read?_quote (s : Text) :
    read? ('"' :: s) = (quotedRest? '"' s).map fun rest => .quoted ('"' :: rest) := by
  have other : isNameStart '"' = false := rfl
  rw [read?]
  · rw [other]
    rfl
  all_goals simp

theorem unescape_plain (plain : '\\' ∉ v) : unescape v = v := by
  induction v with
  | nil => rfl
  | cons c v ih =>
    rw [List.mem_cons, not_or] at plain
    rw [unescape, ih plain.2]
    exact fun _ _ escape => absurd escape.symm plain.1

theorem unquote_plain (plain : '\\' ∉ v) : unquote ('"' :: (v ++ ['"'])) = v := by
  rw [unquote, List.drop_succ_cons, List.drop_zero, List.dropLast_concat, unescape_plain plain]

end TagToken

namespace OpenTag

variable {tag at_ resume resume' : Nat} {state next : State} {c : Char} {s w rest : Text}
  {name : String} {props : List WidgetProp} {p : PlainProp} {ps : List PlainProp}

/-! ### Token by token -/

theorem readFrom_resume (le : resume ≤ at_) (le' : resume' ≤ at_) :
    readFrom tag state resume at_ s = readFrom tag state resume' at_ s := by
  induction s generalizing at_ with
  | nil => rfl
  | cons c s ih =>
    rw [readFrom, readFrom, decide_eq_false (Nat.not_lt_of_le le),
      decide_eq_false (Nat.not_lt_of_le le')]
    split
    · exact ih (Nat.le_add_right_of_le le) (Nat.le_add_right_of_le le')
    · rfl

theorem readFrom_passed (le : at_ + Text.bytes w ≤ resume) :
    readFrom tag state resume at_ (w ++ rest) =
      readFrom tag state resume (at_ + Text.bytes w) rest := by
  induction w generalizing at_ with
  | nil => rfl
  | cons c w ih =>
    have size := c.utf8Size_pos
    rw [Text.bytes_cons] at le
    rw [List.cons_append, readFrom, if_pos (by simp; omega), ih (by omega), Text.bytes_cons,
      Nat.add_assoc]

/-- White space between tokens is passed over. -/
theorem readFrom_space (s : Text) :
    readFrom tag state at_ at_ (' ' :: s) = readFrom tag state (at_ + 1) (at_ + 1) s := by
  rw [readFrom, if_pos (by simp [TagToken.isSkipped])]
  exact readFrom_resume (Nat.le_succ at_) (Nat.le_refl _)

/-- A token after which reading goes on. -/
theorem readFrom_token (visible : TagToken.isSkipped c = false)
    (more : step state at_ c (w ++ rest) = .ok (.more next (at_ + Text.bytes (c :: w)))) :
    readFrom tag state at_ at_ (c :: (w ++ rest)) =
      readFrom tag next (at_ + Text.bytes (c :: w)) (at_ + Text.bytes (c :: w)) rest := by
  rw [readFrom, visible, decide_eq_false (Nat.lt_irrefl at_), if_neg (by simp), more, Text.bytes_cons,
    ← Nat.add_assoc]
  exact readFrom_passed (Nat.le_refl _)

/-! ### Props -/

/-- Reading has come to where a prop or the end of the tag is due, or to the end of the name of a prop
without a value. -/
inductive Due (name : String) : List WidgetProp → State → Prop
  | ready (props : List WidgetProp) : Due name props (.ready name props)
  | named (props : List WidgetProp) (prop : String) (span : Span) :
      Due name ({ name := prop, value := .flag, span } :: props) (.named name props prop span)

theorem Due.step_eq (due : Due name props state) (other : TagToken.read? (c :: s) ≠ some .equals) :
    step state at_ c s = readyStep name props at_ c (TagToken.read? (c :: s)) := by
  cases due with
  | ready => rfl
  | named =>
    unfold step
    dsimp only
    split
    · contradiction
    · rfl

/-- The name of a prop is read. -/
theorem readFrom_name (due : Due name props state) (starts : TagToken.isNameStart c = true)
    (chars : ∀ d ∈ w, isNameChar d = true) (ends : rest.head?.all (!isNameChar ·) = true) :
    readFrom tag state at_ at_ (c :: (w ++ rest)) =
      readFrom tag (.named name props (String.ofList (c :: w)) ⟨at_, at_ + Text.bytes (c :: w)⟩)
        (at_ + Text.bytes (c :: w)) (at_ + Text.bytes (c :: w)) rest := by
  have token : TagToken.read? (c :: (w ++ rest)) = some (.name (c :: w)) := by
    rw [TagToken.read?_of_isNameStart starts, TagToken.takeWhile_name chars ends]
  refine readFrom_token (isSkipped_of_isNameChar (TagToken.isNameChar_of_isNameStart starts)) ?_
  rw [due.step_eq (by rw [token]; nofun), token]
  rfl

/-- The equals sign after the name of a prop is read. -/
theorem readFrom_equals {prop : String} {span : Span} (s : Text) :
    readFrom tag (.named name props prop span) at_ at_ ('=' :: s) =
      readFrom tag (.valued name props prop span.start) (at_ + 1) (at_ + 1) s := by
  have more : step (.named name props prop span) at_ '=' ([] ++ s) =
      .ok (.more (.valued name props prop span.start) (at_ + Text.bytes ['='])) := rfl
  exact readFrom_token rfl more

/-- A quoted string is read as the value of a prop, with its escapes resolved. -/
theorem readFrom_quoted {prop : String} {start : Nat} (rest : Text)
    (quoted : TagToken.quotedRest? '"' (v ++ rest) = some v) :
    readFrom tag (.valued name props prop start) at_ at_ ('"' :: (v ++ rest)) =
      readFrom tag
        (.ready name ({ name := prop, value := .string (String.ofList (TagToken.unquote ('"' :: v))),
                        span := ⟨start, at_ + Text.bytes ('"' :: v)⟩ } :: props))
        (at_ + Text.bytes ('"' :: v)) (at_ + Text.bytes ('"' :: v)) rest := by
  have token : TagToken.read? ('"' :: (v ++ rest)) = some (.quoted ('"' :: v)) := by
    rw [TagToken.read?_quote, quoted, Option.map_some]
  refine readFrom_token rfl ?_
  show valueStep name props prop start at_ '"' _ _ = _
  rw [token, valueStep]

/-- The value of a prop is read, after its name. -/
theorem readFrom_value {prop : String} {span : Span} (plain : '"' ∉ v ∧ '\\' ∉ v) (rest : Text) :
    readFrom tag (.named name props prop span) at_ at_ ('=' :: '"' :: (v ++ '"' :: rest)) =
      readFrom tag
        (.ready name ({ name := prop, value := .string (String.ofList v),
                        span := ⟨span.start, at_ + 1 + Text.bytes ('"' :: (v ++ ['"']))⟩ } :: props))
        (at_ + 1 + Text.bytes ('"' :: (v ++ ['"']))) (at_ + 1 + Text.bytes ('"' :: (v ++ ['"'])))
        rest := by
  have split : v ++ '"' :: rest = (v ++ ['"']) ++ rest := by simp
  have quoted := TagToken.quotedRest?_plain plain rest
  rw [split] at quoted ⊢
  rw [readFrom_equals, readFrom_quoted rest quoted, TagToken.unquote_plain plain.2]

/-- A prop is read back, with the span from its name to its end. -/
theorem exists_readFrom_write (tag at_ : Nat) (due : Due name props state) (plain : p.IsPlain)
    (ends : rest.head?.all (!isNameChar ·) = true) :
    ∃ next, Due name ({ p.prop with span := ⟨at_ + 1, at_ + Text.bytes p.write⟩ } :: props) next ∧
      readFrom tag state at_ at_ (p.write ++ rest) =
        readFrom tag next (at_ + Text.bytes p.write) (at_ + Text.bytes p.write) rest := by
  obtain ⟨prop, value⟩ := p
  obtain ⟨starts, chars, plain⟩ := plain
  cases prop with
  | nil => cases starts
  | cons c w =>
    rw [List.forall_mem_cons] at chars
    cases value with
    | none =>
      have text : PlainProp.write (c :: w, none) = ' ' :: c :: w := by simp [PlainProp.write]
      have size : at_ + Text.bytes (' ' :: c :: w) = at_ + 1 + Text.bytes (c :: w) := by
        rw [Text.bytes_cons, ← Nat.add_assoc]
        rfl
      rw [text, size]
      refine ⟨_, .named props (String.ofList (c :: w)) _, ?_⟩
      exact (readFrom_space _).trans (readFrom_name due starts chars.2 ends)
    | some v =>
      have text : PlainProp.write (c :: w, some v) = ' ' :: c :: (w ++ '=' :: '"' :: (v ++ ['"'])) := by
        simp [PlainProp.write]
      have size : at_ + Text.bytes (' ' :: c :: (w ++ '=' :: '"' :: (v ++ ['"']))) =
          at_ + 1 + Text.bytes (c :: w) + 1 + Text.bytes ('"' :: (v ++ ['"'])) := by
        have space : ' '.utf8Size = 1 := rfl
        have equals : '='.utf8Size = 1 := rfl
        simp only [Text.bytes_cons, Text.bytes_append, space, equals]
        omega
      have parts : ' ' :: c :: (w ++ '=' :: '"' :: (v ++ ['"'])) ++ rest =
          ' ' :: c :: (w ++ '=' :: '"' :: (v ++ '"' :: rest)) := by simp
      rw [text, size, parts]
      refine ⟨_, .ready _, ?_⟩
      rw [readFrom_space, readFrom_name due starts chars.2 rfl, readFrom_value (plain v rfl) rest]
      rfl

/-- A prop without its span. -/
def unspanned (p : WidgetProp) : WidgetProp := { p with span := ⟨0, 0⟩ }

/-- Props are read back. The latest prop comes first while reading. -/
theorem exists_readFrom_props (tag at_ : Nat) (due : Due name props state) (plain : ∀ p ∈ ps, p.IsPlain)
    (ends : rest.head?.all (!isNameChar ·) = true) :
    ∃ (next : State) (more : List WidgetProp), Due name (more.reverse ++ props) next ∧
      more.map unspanned = ps.map PlainProp.prop ∧
      readFrom tag state at_ at_ (ps.flatMap PlainProp.write ++ rest) =
        readFrom tag next (at_ + Text.bytes (ps.flatMap PlainProp.write))
          (at_ + Text.bytes (ps.flatMap PlainProp.write)) rest := by
  induction ps generalizing at_ state props with
  | nil => exact ⟨state, [], due, rfl, rfl⟩
  | cons p ps ih =>
    rw [List.forall_mem_cons] at plain
    have ends' : (ps.flatMap PlainProp.write ++ rest).head?.all (!isNameChar ·) = true := by
      cases ps with
      | nil => exact ends
      | cons q ps => rfl
    obtain ⟨mid, due', first⟩ := exists_readFrom_write tag at_ due plain.1 ends'
    obtain ⟨next, more, due'', contents, others⟩ :=
      ih (at_ + Text.bytes p.write) due' plain.2
    refine ⟨next, { p.prop with span := ⟨at_ + 1, at_ + Text.bytes p.write⟩ } :: more, ?_, ?_, ?_⟩
    · rwa [List.reverse_cons, List.append_assoc]
    · rw [List.map_cons, List.map_cons, contents]
      rfl
    · rw [List.flatMap_cons, List.append_assoc, first, others, Text.bytes_append, Nat.add_assoc]

/-- How a tag ends. -/
def ending (selfClosing : Bool) : Text := if selfClosing then [' ', '/', '>'] else ['>']

theorem readFrom_ending (due : Due name props state) (selfClosing : Bool) (rest : Text) :
    readFrom tag state at_ at_ (ending selfClosing ++ rest) =
      .ok { name, props := props.reverse, selfClosing,
            stop := at_ + Text.bytes (ending selfClosing) } := by
  cases selfClosing with
  | false =>
    have done : step state at_ '>' rest =
        .ok (.done { name, props := props.reverse, selfClosing := false, stop := at_ + 1 }) :=
      due.step_eq (by simp [TagToken.read?])
    show readFrom tag state at_ at_ ('>' :: rest) = _
    rw [readFrom, if_neg (by simp [TagToken.isSkipped]), done]
    rfl
  | true =>
    have done : step state (at_ + 1) '/' ('>' :: rest) =
        .ok (.done { name, props := props.reverse, selfClosing := true, stop := at_ + 1 + 2 }) :=
      due.step_eq (by simp [TagToken.read?])
    show readFrom tag state at_ at_ (' ' :: '/' :: '>' :: rest) = _
    rw [readFrom_space, readFrom, if_neg (by simp [TagToken.isSkipped]), done]
    rfl

/-- A tag as it is written. -/
def write (name : Text) (ps : List PlainProp) (selfClosing : Bool) : Text :=
  '<' :: (name ++ (ps.flatMap PlainProp.write ++ ending selfClosing))

/-- The name of a widget is read. -/
theorem read_name (at_ : Nat) {name : Text} (named : IsTagName name)
    (ends : rest.head?.all (!isNameChar ·) = true) :
    read at_ ('<' :: (name ++ rest)) =
      readFrom at_ (.ready (String.ofList name) []) (at_ + Text.bytes ('<' :: name))
        (at_ + Text.bytes ('<' :: name)) rest := by
  obtain ⟨starts, chars⟩ := named
  cases name with
  | nil => cases starts
  | cons c w =>
    rw [List.forall_mem_cons] at chars
    have angle : '<'.utf8Size = 1 := rfl
    rw [List.cons_append, read_of_isUpper starts, readFrom_opened at_ starts,
      TagToken.takeWhile_name chars.2 ends, readFrom_passed (by rw [Text.bytes_cons]; omega),
      Nat.add_assoc (at_ + 1), ← Text.bytes_cons, Text.bytes_cons '<', angle, ← Nat.add_assoc]

/-- **A tag that is written is read back**, whatever comes after it. -/
theorem exists_read_write (at_ : Nat) {name : Text} (named : IsTagName name) (plain : ∀ p ∈ ps, p.IsPlain)
    (selfClosing : Bool) (rest : Text) :
    ∃ props : List WidgetProp, props.map unspanned = ps.map PlainProp.prop ∧
      read at_ (write name ps selfClosing ++ rest) =
        .ok { name := String.ofList name, props, selfClosing,
              stop := at_ + Text.bytes (write name ps selfClosing) } := by
  have other : (ending selfClosing ++ rest).head?.all (!isNameChar ·) = true := by
    cases selfClosing <;> rfl
  have other' : (ps.flatMap PlainProp.write ++ (ending selfClosing ++ rest)).head?.all
      (!isNameChar ·) = true := by
    cases ps with
    | nil => exact other
    | cons p ps => rfl
  have text : write name ps selfClosing ++ rest =
      '<' :: (name ++ (ps.flatMap PlainProp.write ++ (ending selfClosing ++ rest))) := by
    simp [write]
  have size : at_ + Text.bytes (write name ps selfClosing) =
      at_ + Text.bytes ('<' :: name) + Text.bytes (ps.flatMap PlainProp.write) +
        Text.bytes (ending selfClosing) := by
    simp only [write, Text.bytes_cons, Text.bytes_append]
    omega
  have ready : Due (String.ofList name) [] (.ready (String.ofList name) []) := .ready []
  obtain ⟨next, more, due, contents, props⟩ :=
    exists_readFrom_props at_ (at_ + Text.bytes ('<' :: name)) ready plain other
  refine ⟨more, contents, ?_⟩
  rw [text, read_name at_ named other', props, readFrom_ending due, size, List.append_nil,
    List.reverse_reverse]

end OpenTag

/-! ### Closing tags -/

namespace ClosingTag

variable {name w rest : Text} {at_ : Nat} {c : Char}

/-- A closing tag as it is written. -/
def write (name : Text) : Text := '<' :: '/' :: (name ++ ['>'])

/-- A body without tags, code and fences. -/
def IsBare (w : Text) : Prop := '<' ∉ w ∧ '\x60' ∉ w ∧ '~' ∉ w

instance (w : Text) : Decidable (IsBare w) := inferInstanceAs (Decidable (_ ∧ _ ∧ _))

theorem IsBare.of_cons (bare : IsBare (c :: w)) : IsBare w := by
  simp only [IsBare, List.mem_cons, not_or] at bare ⊢
  exact ⟨bare.1.2, bare.2.1.2, bare.2.2.2⟩

theorem pastFence?_bare (bare : IsBare w) : pastFence? at_ (w ++ '<' :: rest) = none := by
  have first : ∀ c ∈ (Text.trimStart ((w ++ '<' :: rest).takeWhile (· != '\n'))).head?,
      c ≠ '\x60' ∧ c ≠ '~' := by
    induction w with
    | nil =>
      rintro c ⟨⟩
      decide
    | cons d w ih =>
      have code : d ≠ '\x60' := fun eq => bare.2.1 (eq ▸ List.mem_cons_self)
      have fence : d ≠ '~' := fun eq => bare.2.2 (eq ▸ List.mem_cons_self)
      by_cases eol : d = '\n'
      · subst eol
        nofun
      · rw [List.cons_append, List.takeWhile_cons_of_pos (by simpa using eol), Text.trimStart]
        by_cases blank : Text.isBlankChar d = true
        · rw [List.dropWhile_cons_of_pos blank]
          exact ih bare.of_cons
        · rw [List.dropWhile_cons_of_neg blank]
          rintro c ⟨⟩
          exact ⟨code, fence⟩
  unfold pastFence?
  dsimp only
  cases opened : Fence.open? ((w ++ '<' :: rest).takeWhile (· != '\n')) with
  | none => rfl
  | some fence =>
    rcases Fence.head?_of_open? opened with marker | marker
    · exact absurd rfl (first _ marker).1
    · exact absurd rfl (first _ marker).2

theorem after?_of_ne (other : c ≠ '<') (lead s : Text) : after? ('<' :: lead) (c :: s) = none := by
  have differs : ('<' == c) = false := beq_eq_false_iff_ne.2 (Ne.symm other)
  rw [after?, List.isPrefixOf, differs]
  rfl

theorem size?_of_ne (other : c ≠ '<') (s : Text) : size? name (c :: s) = none := by
  rw [size?, after?_of_ne other]
  rfl

theorem reopening?_of_ne (other : c ≠ '<') (s : Text) : reopening? name at_ (c :: s) = none := by
  rw [reopening?, after?_of_ne other]
  rfl

theorem size?_write (name rest : Text) :
    size? name (write name ++ rest) = some (Text.bytes (write name)) := by
  have parts : write name ++ rest = ('<' :: '/' :: name) ++ '>' :: rest := by simp [write]
  have lead : after? ('<' :: '/' :: name) (write name ++ rest) = some ('>' :: rest) := by
    rw [parts, after?, List.drop_left, if_pos]
    rw [Bool.and_eq_true, List.isPrefixOf_iff_prefix]
    exact ⟨List.prefix_append _ _, rfl⟩
  have size : Text.bytes (write name) = Text.bytes ('<' :: '/' :: name) + 0 + 1 := by
    rw [write, ← List.cons_append, ← List.cons_append, Text.bytes_append]
    rfl
  rw [size?, lead, size]
  rfl

/-- **The closing tag after a body without tags, code and fences is found**, whatever comes after. -/
theorem findFrom_write (at_ : Nat) (bare : IsBare w) (name : Text) (lineStart : Bool) (rest : Text) :
    findFrom name 0 lineStart at_ at_ (w ++ (write name ++ rest)) =
      some { start := at_ + Text.bytes w, stop := at_ + Text.bytes w + Text.bytes (write name) } := by
  induction w generalizing at_ lineStart with
  | nil =>
    have unfenced : pastFence? at_ (write name ++ rest) = none := pastFence?_bare bare
    have found := size?_write name rest
    rw [write, List.cons_append] at unfenced found ⊢
    rw [List.nil_append, findFrom, if_neg (Nat.lt_irrefl at_), unfenced, ite_self, found]
    rfl
  | cons c w ih =>
    have unfenced : pastFence? at_ (c :: (w ++ (write name ++ rest))) = none := pastFence?_bare bare
    have angle : c ≠ '<' := fun eq => bare.1 (eq ▸ List.mem_cons_self)
    have code : c ≠ '\x60' := fun eq => bare.2.1 (eq ▸ List.mem_cons_self)
    have next : ∀ lineStart, findFrom name 0 lineStart (at_ + c.utf8Size) (at_ + c.utf8Size)
        (w ++ (write name ++ rest)) =
        some { start := at_ + Text.bytes (c :: w)
               stop := at_ + Text.bytes (c :: w) + Text.bytes (write name) } := by
      intro lineStart
      rw [ih (at_ + c.utf8Size) bare.of_cons, Text.bytes_cons, ← Nat.add_assoc]
    rw [List.cons_append, findFrom, if_neg (Nat.lt_irrefl at_), unfenced, ite_self,
      size?_of_ne angle, reopening?_of_ne angle]
    dsimp only
    rw [next, next, if_neg (show ¬ (c == '\x60') = true by simpa using code), ite_self]

end ClosingTag
end Folio
