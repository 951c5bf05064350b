import Folio.Proofs.Markup.Lines
import Folio.Proofs.Markup.Marks
import Folio.Proofs.Markup.Tags

/-!
# Spans and errors of tags

A tag, each of its props and a braced expression end with a character of one byte. So their spans
run exactly from the place of their start to that of their end (`Region.Faithful.span_of_closes`).
Main statements:

* `OpenTag.read_outcome`: where a tag, its name and its props stand, and where an error in it is
  found;
* `ClosingTag.closes_of_find?`: where the closing tag of a body stands.
-/

namespace Folio

/-- A range of a text starts at a boundary and ends with a visible character of one byte. -/
structure Text.Closes (s : Text) (start stop : Nat) : Prop where
  boundary : s.isBoundary start = true
  last : ∃ n c, start ≤ n ∧ s.Holds n [c] ∧ c.utf8Size = 1 ∧ TagToken.isSkipped c = false ∧ n + 1 = stop

namespace Text

variable {s w : Text} {pos start stop : Nat} {c : Char}

namespace Closes

theorem lt (h : s.Closes start stop) : start < stop := by
  obtain ⟨n, c, le, -, -, -, stop_eq⟩ := h.last
  omega

theorem isCut (h : s.Closes start stop) : s.IsCut start stop := by
  refine ⟨Nat.le_of_lt h.lt, h.boundary, ?_⟩
  obtain ⟨n, c, -, held, size, -, stop_eq⟩ := h.last
  have boundary := held.isBoundary_stop
  rwa [bytes_cons, bytes_nil, size, Nat.add_zero, stop_eq] at boundary

theorem isPast (h : s.Closes start stop) : s.IsPast stop := by
  obtain ⟨n, c, -, held, size, visible, stop_eq⟩ := h.last
  exact ⟨n, c, held, visible, size.symm ▸ stop_eq⟩

/-- A range may start earlier. -/
theorem extend (h : s.Closes pos stop) (boundary : s.isBoundary start = true) (le : start ≤ pos) :
    s.Closes start stop := by
  obtain ⟨n, c, le', last⟩ := h.last
  exact ⟨boundary, n, c, Nat.le_trans le le', last⟩

end Closes

/-- A text that ends with a character of one byte. -/
theorem Holds.closes (h : s.Holds pos (w ++ [c])) (size : c.utf8Size = 1)
    (visible : TagToken.isSkipped c = false) : s.Closes pos (pos + bytes (w ++ [c])) := by
  obtain ⟨first, last⟩ := holds_append_iff.1 h
  refine ⟨first.isBoundary, pos + bytes w, c, Nat.le_add_right .., last, size, visible, ?_⟩
  rw [bytes_append, bytes_cons, bytes_nil, size, Nat.add_assoc]

end Text

/-- A range that ends with a character of one byte is mapped to the source end by end. -/
theorem Region.Faithful.span_of_closes {source : Text} {r : Region} {start stop : Nat}
    (h : Faithful source r) (closes : r.text.Closes start stop) :
    r.span start stop = ⟨r.toSource start, r.toSource stop⟩ := by
  obtain ⟨n, c, le, held, size, visible, rfl⟩ := closes.last
  have eol : '\n' ∉ [c] := by simpa using (Text.ne_eol_of_isSkipped visible).symm
  obtain ⟨-, next⟩ := h.holds held eol
  have eq := h.span_eq closes.boundary held le
  rw [Text.bytes_cons, Text.bytes_nil, size] at next
  rw [size] at eq
  rw [eq, next]

/-- The range in the source of a range that ends with a character of one byte. -/
theorem Region.Faithful.closes {source : Text} {r : Region} {start stop : Nat}
    (h : Faithful source r) (closes : r.text.Closes start stop) :
    source.Closes (r.toSource start) (r.toSource stop) := by
  obtain ⟨n, c, le, held, size, visible, rfl⟩ := closes.last
  have eol : '\n' ∉ [c] := by simpa using (Text.ne_eol_of_isSkipped visible).symm
  obtain ⟨stands, next⟩ := h.holds held eol
  rw [Text.bytes_cons, Text.bytes_nil, size] at next
  have le' := h.toSource_le ⟨le, closes.boundary, held.isBoundary⟩
  exact ⟨h.isBoundary_toSource closes.boundary, _, c, le', stands, size, visible, next.symm⟩

/-! ### Names -/

theorem toNat_of_isNameChar {c : Char} (h : isNameChar c = true) :
    45 ≤ c.toNat ∧ c.toNat ≤ 122 := by
  unfold isNameChar Char.isAlphanum Char.isAlpha Char.isUpper Char.isLower Char.isDigit at h
  simp only [Bool.or_eq_true, Bool.and_eq_true, decide_eq_true_eq, beq_iff_eq, ge_iff_le,
    UInt32.le_iff_toNat_le] at h
  rcases h with ((((((⟨lo, hi⟩ | ⟨lo, hi⟩) | ⟨lo, hi⟩) | rfl) | rfl) | rfl) | rfl)
  · exact ⟨Nat.le_trans (by decide) lo, Nat.le_trans hi (by decide)⟩
  · exact ⟨Nat.le_trans (by decide) lo, Nat.le_trans hi (by decide)⟩
  · exact ⟨Nat.le_trans (by decide) lo, Nat.le_trans hi (by decide)⟩
  all_goals decide

theorem utf8Size_of_isNameChar {c : Char} (h : isNameChar c = true) : c.utf8Size = 1 := by
  rw [Char.utf8Size_eq_one_iff, UInt32.le_iff_toNat_le]
  exact Nat.le_trans (toNat_of_isNameChar h).2 (by decide)

theorem isSkipped_of_isNameChar {c : Char} (h : isNameChar c = true) :
    TagToken.isSkipped c = false := by
  have ge := (toNat_of_isNameChar h).1
  rw [← Bool.not_eq_true]
  intro skipped
  simp only [TagToken.isSkipped, Bool.or_eq_true, beq_iff_eq] at skipped
  rcases skipped with ((rfl | rfl) | rfl) | rfl <;> exact absurd ge (by decide)

theorem isBlankChar_of_isNameChar {c : Char} (h : isNameChar c = true) : Text.isBlankChar c = false :=
  have ⟨low, high⟩ := toNat_of_isNameChar h
  Text.isBlankChar_of_toNat (Nat.le_trans (by decide) low) (Nat.le_trans high (by decide))

theorem eol_not_mem_name {w : Text} (h : ∀ c ∈ w, isNameChar c = true) : '\n' ∉ w := by
  intro mem
  exact absurd (h _ mem) (by decide)

/-! ### Tokens -/

namespace TagToken

variable {c quote : Char} {s rest name : Text}

theorem isNameChar_of_isNameStart (h : isNameStart c = true) : isNameChar c = true := by
  simp only [isNameStart, Bool.or_eq_true] at h
  rcases h with alpha | underscore
  · simp [isNameChar, Char.isAlphanum, alpha]
  · simp [isNameChar, underscore]

theorem isNameStart_of_isUpper (h : isUpper c = true) : isNameStart c = true := by
  have upper : c.isUpper = true := by
    unfold Char.isUpper
    simpa [isUpper, Char.le_def] using h
  rw [isNameStart, show c.isAlpha = (c.isUpper || c.isLower) from rfl, upper]
  rfl

/-- A string ends with its quote. -/
theorem quotedRest?_eq_append (h : quotedRest? quote s = some rest) :
    ∃ body, rest = body ++ [quote] := by
  fun_induction quotedRest? quote s generalizing rest with
  | case1 => cases h
  | case2 c s eol => cases h
  | case3 c s eol ih =>
    obtain ⟨rest, more, rfl⟩ := Option.map_eq_some_iff.1 h
    obtain ⟨body, rfl⟩ := ih more
    exact ⟨'\\' :: c :: body, rfl⟩
  | case4 c s _ closes =>
    cases h
    rw [beq_iff_eq] at closes
    exact ⟨[], by rw [closes]; rfl⟩
  | case5 c s => cases h
  | case6 c s _ _ _ ih =>
    obtain ⟨rest, more, rfl⟩ := Option.map_eq_some_iff.1 h
    obtain ⟨body, rfl⟩ := ih more
    exact ⟨c :: body, rfl⟩

/-- A name is made of name characters, a quoted string ends with its quote, and a brace is one. -/
def Fits : TagToken → Prop
  | .name name => name ≠ [] ∧ ∀ c ∈ name, isNameChar c = true
  | .quoted literal => ∃ quote body, literal = quote :: body ++ [quote] ∧ (quote = '"' ∨ quote = '\'')
  | _ => True

theorem fits_of_read? {t : TagToken} (h : read? s = some t) : t.Fits := by
  unfold read? at h
  split at h
  · cases h
  · split at h <;> cases h <;> trivial
  · cases h
    trivial
  · cases h
    trivial
  · cases h
    trivial
  · split at h
    · cases h
      trivial
    · cases h
  · rename_i c s _ _ _ _ _
    split at h
    · rename_i starts
      cases h
      refine ⟨List.cons_ne_nil _ _, List.forall_mem_cons.2 ⟨isNameChar_of_isNameStart starts, ?_⟩⟩
      exact fun d mem => List.all_eq_true.1 List.all_takeWhile d mem
    · split at h
      · rename_i quote
        obtain ⟨rest, quoted, rfl⟩ := Option.map_eq_some_iff.1 h
        obtain ⟨body, rfl⟩ := quotedRest?_eq_append quoted
        refine ⟨c, body, rfl, ?_⟩
        simpa using quote
      · cases h

theorem read?_of_isUpper (h : isUpper c = true) :
    read? (c :: s) = some (.name (c :: s.takeWhile isNameChar)) := by
  have starts := isNameStart_of_isUpper h
  unfold read?
  split
  · contradiction
  all_goals rename_i eq
  all_goals obtain ⟨rfl, rfl⟩ := List.cons.inj eq
  · cases h
  · cases h
  · cases h
  · cases h
  · cases h
  · rw [if_pos starts]

end TagToken

/-! ### Opening tags -/

/-- A prop lies in a range of a text. -/
structure WidgetProp.Fits (s : Text) (start stop : Nat) (p : WidgetProp) : Prop where
  start : start ≤ p.span.start
  visible : s.IsVisible p.span.start
  closes : s.Closes p.span.start p.span.stop
  stop : p.span.stop ≤ stop

theorem WidgetProp.Fits.mono {s : Text} {start stop stop' : Nat} {p : WidgetProp}
    (h : p.Fits s start stop) (le : stop ≤ stop') : p.Fits s start stop' :=
  ⟨h.start, h.visible, h.closes, Nat.le_trans h.stop le⟩

namespace OpenTag

variable {s t : Text} {tag resume at_ : Nat} {c : Char} {name : String} {props : List WidgetProp}

/-- A tag starts with `<` and its name and ends with `>`, and its props lie between. -/
structure Fits (s : Text) (at_ : Nat) (t : OpenTag) : Prop where
  named : s.Holds at_ ('<' :: t.name.toList)
  name : ∀ c ∈ t.name.toList, isNameChar c = true
  props : ∀ p ∈ t.props, p.Fits s at_ t.stop
  closes : s.Closes at_ t.stop

/-- What is known of a tag that is read up to an offset. -/
structure Begun (s : Text) (tag resume : Nat) (name : String) (props : List WidgetProp) : Prop where
  named : s.Holds tag ('<' :: name.toList)
  name : ∀ c ∈ name.toList, isNameChar c = true
  props : ∀ p ∈ props, p.Fits s tag resume
  lt : tag < resume

namespace Begun

variable (h : Begun s tag resume name props)

include h

theorem mono {resume' : Nat} (le : resume ≤ resume') : Begun s tag resume' name props where
  named := h.named
  name := h.name
  props := fun p mem => (h.props p mem).mono le
  lt := Nat.lt_of_lt_of_le h.lt le

theorem add {p : WidgetProp} (fits : p.Fits s tag resume) :
    Begun s tag resume name (p :: props) where
  named := h.named
  name := h.name
  props := List.forall_mem_cons.2 ⟨fits, h.props⟩
  lt := h.lt

theorem done {selfClosing : Bool} (stands : s.Holds resume ['>']) :
    Fits s tag { name, props := props.reverse, selfClosing, stop := resume + 1 } where
  named := h.named
  name := h.name
  props := fun p mem => (h.props p (List.mem_reverse.1 mem)).mono (Nat.le_succ resume)
  closes := (stands.closes (w := []) rfl rfl).extend h.named.isBoundary (Nat.le_of_lt h.lt)

theorem unclosed : SyntaxError.Points s { pos := tag, fault := .unclosedWidget name } :=
  SyntaxError.points_of_holds rfl h.named (eol_not_mem_name h.name) rfl

end Begun

/-- What is known of a tag in a state after its name. -/
def State.Fits (s : Text) (tag resume : Nat) : State → Prop
  | .opened => False
  | .ready name props => Begun s tag resume name props
  | .named name props _ span =>
    Begun s tag resume name props ∧ tag ≤ span.start ∧ s.IsVisible span.start ∧
      s.Closes span.start span.stop ∧ span.stop ≤ resume
  | .valued name props _ start =>
    Begun s tag resume name props ∧ tag ≤ start ∧ s.IsVisible start ∧ start ≤ resume

/-- What is known after a token. -/
def Step.Fits (s : Text) (tag : Nat) : Step → Prop
  | .more state resume => state.Fits s tag resume
  | .done t => t.Fits s tag

theorem unterminated (held : s.Holds at_ [c]) (quote : (c == '"' || c == '\'') = true) :
    SyntaxError.Points s { pos := at_, fault := .unterminatedString } := by
  have is_quote : Expression.isQuote c = true := by
    rw [Expression.isQuote, quote, Bool.true_or]
  exact SyntaxError.points_of_holds ⟨c, is_quote, rfl⟩ held List.not_mem_nil
    (Expression.isSkipped_of_isQuote is_quote)

theorem unexpected {expected found : String} (held : s.Holds at_ [c])
    (visible : TagToken.isSkipped c = false) :
    SyntaxError.Points s { pos := at_, fault := .unexpectedToken expected found } :=
  SyntaxError.points_of_isVisible rfl (held.isVisible visible)

theorem readyStep_outcome (begun : Begun s tag at_ name props) (rest : s.IsRest at_ (c :: t))
    (visible : TagToken.isSkipped c = false) :
    Outcome (SyntaxError.Points s) (Step.Fits s tag)
      (readyStep name props at_ c (TagToken.read? (c :: t))) := by
  have stands : s.Holds at_ [c] := rest.holds_of_begins ⟨t, rfl⟩
  unfold readyStep
  split
  · rename_i token
    have held := rest.holds_of_begins (TagToken.isPrefix_of_read? token)
    exact (begun.mono (Nat.le_succ at_)).done (Text.holds_cons_iff.1 held).2
  · rename_i token
    exact begun.done (rest.holds_of_begins (TagToken.isPrefix_of_read? token))
  · rename_i prop token
    obtain ⟨nonempty, chars⟩ := TagToken.fits_of_read? token
    have held : s.Holds at_ prop := rest.holds_of_begins (TagToken.isPrefix_of_read? token)
    obtain ⟨init, last, rfl⟩ : ∃ init last, prop = init ++ [last] :=
      ⟨_, _, (List.dropLast_concat_getLast nonempty).symm⟩
    have last_char := chars last (List.mem_append_right _ (List.mem_singleton_self last))
    have closes := held.closes (utf8Size_of_isNameChar last_char)
      (isSkipped_of_isNameChar last_char)
    exact ⟨begun.mono (Nat.le_add_right ..), Nat.le_of_lt begun.lt, stands.isVisible visible, closes,
      Nat.le_refl _⟩
  · exact unexpected stands visible
  · split
    · rename_i quote
      exact unterminated stands quote
    · exact unexpected stands visible

theorem valueStep_outcome {prop : String} {start : Nat} (begun : Begun s tag at_ name props)
    (le : tag ≤ start) (opens : s.IsVisible start) (le' : start ≤ at_)
    (rest : s.IsRest at_ (c :: t)) (visible : TagToken.isSkipped c = false) :
    Outcome (SyntaxError.Points s) (Step.Fits s tag)
      (valueStep name props prop start at_ c t (TagToken.read? (c :: t))) := by
  have stands : s.Holds at_ [c] := rest.holds_of_begins ⟨t, rfl⟩
  -- a value that ends with a character of one byte ends the prop
  have given : ∀ value w d, s.Holds at_ (w ++ [d]) → d.utf8Size = 1 → TagToken.isSkipped d = false →
      State.Fits s tag (at_ + Text.bytes (w ++ [d])) (.ready name
        ({ name := prop, value, span := ⟨start, at_ + Text.bytes (w ++ [d])⟩ } :: props)) := by
    intro value w d held size eol
    have closes := (held.closes size eol).extend opens.isBoundary le'
    exact (begun.mono (Nat.le_add_right ..)).add ⟨le, opens, closes, Nat.le_refl _⟩
  unfold valueStep
  dsimp only
  split
  · rename_i literal token
    obtain ⟨quote, body, rfl, is_quote⟩ := TagToken.fits_of_read? token
    have held := rest.holds_of_begins (TagToken.isPrefix_of_read? token)
    rcases is_quote with rfl | rfl
    · exact given _ ('"' :: body) '"' held rfl rfl
    · exact given _ ('\'' :: body) '\'' held rfl rfl
  · rename_i token
    obtain ⟨rfl, -⟩ := List.cons_prefix_cons.1 (TagToken.isPrefix_of_read? token)
    have outcome := Expression.read_outcome rest
    cases read : Expression.read at_ ('{' :: t) with
    | error e =>
      rw [read] at outcome
      exact outcome
    | ok e =>
      rw [read] at outcome
      obtain ⟨begins, body, rfl⟩ := outcome
      exact given _ body '}' (rest.holds_of_begins begins) rfl rfl
  · split
    · rename_i quote
      exact unterminated stands quote
    · exact unexpected stands visible
  · exact unexpected stands visible

theorem step_outcome {state : State} (fits : state.Fits s tag resume) (le : resume ≤ at_)
    (rest : s.IsRest at_ (c :: t)) (visible : TagToken.isSkipped c = false) :
    Outcome (SyntaxError.Points s) (Step.Fits s tag) (step state at_ c t) := by
  cases state with
  | opened => exact fits.elim
  | ready name props => exact readyStep_outcome (fits.mono le) rest visible
  | named name props prop span =>
    obtain ⟨begun, start, opens, closes, stop⟩ := fits
    unfold step
    dsimp only
    split
    · have bound : span.start ≤ resume := Nat.le_trans (Nat.le_of_lt closes.lt) stop
      exact ⟨begun.mono (Nat.le_succ_of_le le), start, opens,
        Nat.le_succ_of_le (Nat.le_trans bound le)⟩
    · -- the name was a prop of its own
      exact readyStep_outcome ((begun.add ⟨start, opens, closes, stop⟩).mono le) rest visible
  | valued name props prop start =>
    obtain ⟨begun, le_start, opens, start_le⟩ := fits
    exact valueStep_outcome (begun.mono le) le_start opens (Nat.le_trans start_le le) rest visible

theorem unfinished_points {state : State} (fits : state.Fits s tag resume) (at_ : Nat) :
    (unfinished tag at_ state).Points s := by
  cases state with
  | opened => exact fits.elim
  | ready name props => exact fits.unclosed
  | named name props prop span => exact fits.1.unclosed
  | valued name props prop start => exact fits.1.unclosed

theorem readFrom_outcome {state : State} (fits : state.Fits s tag resume)
    (rest : s.IsRest at_ t) :
    Outcome (SyntaxError.Points s) (Fits s tag) (readFrom tag state resume at_ t) := by
  induction t generalizing state resume at_ with
  | nil => exact unfinished_points fits at_
  | cons c t ih =>
    rw [readFrom]
    split
    · exact ih fits rest.cons
    · rename_i starts
      rw [Bool.or_eq_true, not_or, decide_eq_true_eq, Bool.not_eq_true] at starts
      have outcome := step_outcome fits (Nat.le_of_not_lt starts.1) rest starts.2
      cases taken : step state at_ c t with
      | error e =>
        rw [taken] at outcome
        exact outcome
      | ok next =>
        rw [taken] at outcome
        cases next with
        | done t' => exact outcome
        | more state' resume' => exact ih outcome rest.cons

theorem readFrom_opened (tag : Nat) (upper : isUpper c = true) :
    readFrom tag .opened (at_ + 1) at_ ('<' :: c :: t) =
      readFrom tag (.ready (String.ofList (c :: t.takeWhile isNameChar)) [])
        (at_ + 1 + Text.bytes (c :: t.takeWhile isNameChar)) (at_ + 1 + c.utf8Size) t := by
  have starts := TagToken.isNameStart_of_isUpper upper
  have visible := isSkipped_of_isNameChar (TagToken.isNameChar_of_isNameStart starts)
  have size : '<'.utf8Size = 1 := rfl
  have passed : (decide (at_ < at_ + 1) || TagToken.isSkipped '<') = true := by simp
  have reached : ¬ (decide (at_ + 1 < at_ + 1) || TagToken.isSkipped c) = true := by
    simp [visible]
  rw [readFrom, if_pos passed, size, readFrom, if_neg reached, step, TagToken.read?_of_isUpper upper]

/-- A tag that begins with `<` and an upper-case letter is read from there. -/
theorem read_of_isUpper (upper : isUpper c = true) :
    read at_ ('<' :: c :: t) = readFrom at_ .opened (at_ + 1) at_ ('<' :: c :: t) := by
  have slash : (c == '/') = false := by
    rw [beq_eq_false_iff_ne]
    rintro rfl
    cases upper
  simp [read, TagToken.isSkipped, TagToken.read?, slash]

/-- A tag that begins with `<` and an upper-case letter is read up to its end, or an error in it is
found. -/
theorem read_outcome (rest : s.IsRest at_ ('<' :: c :: t)) (upper : isUpper c = true) :
    Outcome (SyntaxError.Points s) (Fits s at_) (read at_ ('<' :: c :: t)) := by
  have starts := TagToken.isNameStart_of_isUpper upper
  have name : ∀ d ∈ c :: t.takeWhile isNameChar, isNameChar d = true :=
    List.forall_mem_cons.2 ⟨TagToken.isNameChar_of_isNameStart starts,
      fun d mem => List.all_eq_true.1 List.all_takeWhile d mem⟩
  have begins : '<' :: c :: t.takeWhile isNameChar <+: '<' :: c :: t :=
    ⟨t.dropWhile isNameChar, by simp⟩
  rw [read_of_isUpper upper, readFrom_opened at_ upper]
  refine readFrom_outcome ?_ rest.cons.cons
  exact {
    named := by simpa using rest.holds_of_begins begins
    name := by simpa using name
    props := fun p mem => absurd mem List.not_mem_nil
    lt := by omega }

end OpenTag

/-! ### Closing tags -/

namespace ClosingTag

variable {s t name : Text} {at_ : Nat}

theorem exists_of_size? {n : Nat} (h : size? name t = some n) :
    ∃ w, w ++ ['>'] <+: t ∧ Text.bytes (w ++ ['>']) = n := by
  unfold size? at h
  obtain ⟨rest, lead, sized⟩ := Option.bind_eq_some_iff.1 h
  unfold after? at lead
  split at lead
  · rename_i begins
    rw [Bool.and_eq_true, List.isPrefixOf_iff_prefix] at begins
    obtain ⟨⟨after, rfl⟩, -⟩ := begins
    rw [List.drop_left] at lead
    cases lead
    dsimp only at sized
    split at sized
    · rename_i angle
      cases sized
      obtain ⟨after, drop_eq⟩ := TagToken.starts_of_head? angle
      refine ⟨'<' :: '/' :: name ++ rest.takeWhile Text.isBlankChar, ⟨after, ?_⟩, ?_⟩
      · rw [List.append_assoc, List.append_assoc, drop_eq, Text.drop_length_takeWhile,
          List.takeWhile_append_dropWhile]
      · simp only [Text.bytes_append, Text.bytes_cons, Text.bytes_nil]
        rfl
    · cases sized
  · cases lead

theorem closes_of_findFrom {depth : Nat} {lineStart : Bool} {resume : Nat} {close : ClosingTag}
    (rest : s.IsRest at_ t) (h : findFrom name depth lineStart resume at_ t = some close) :
    at_ ≤ close.start ∧ s.Closes close.start close.stop := by
  have later : ∀ (c : Char) (at_ : Nat),
      at_ + c.utf8Size ≤ close.start ∧ s.Closes close.start close.stop →
        at_ ≤ close.start ∧ s.Closes close.start close.stop :=
    fun c at_ ⟨le, closes⟩ => ⟨Nat.le_of_add_right_le le, closes⟩
  fun_induction findFrom name depth lineStart resume at_ t with
  | case1 => cases h
  | case6 _ _ at_ c t _ _ _ _ n size =>
    cases h
    obtain ⟨w, begins, rfl⟩ := exists_of_size? size
    exact ⟨Nat.le_refl _, (rest.holds_of_begins begins).closes rfl rfl⟩
  -- all other ways go on with the next character
  | case2 _ _ _ at_ c _ _ _ ih => exact later c at_ (ih rest.cons h)
  | case3 _ _ _ at_ c _ _ _ _ fence ih => exact later c at_ (ih rest.cons h)
  | case4 _ _ _ at_ c _ _ _ _ eol ih => exact later c at_ (ih rest.cons h)
  | case5 _ _ _ at_ c _ _ _ _ _ code ih => exact later c at_ (ih rest.cons h)
  | case7 _ _ at_ c _ _ _ _ _ _ _ inner _ ih => exact later c at_ (ih rest.cons h)
  | case8 _ _ _ at_ c _ _ _ _ _ _ _ reopened _ ih => exact later c at_ (ih rest.cons h)
  | case9 _ _ _ at_ c _ _ _ _ _ _ _ _ ih => exact later c at_ (ih rest.cons h)

/-- The closing tag of a body comes after the start of the body and ends with `>`. -/
theorem closes_of_find? {lineStart : Bool} {close : ClosingTag} (rest : s.IsRest at_ t)
    (h : find? name lineStart at_ t = some close) :
    at_ ≤ close.start ∧ s.Closes close.start close.stop :=
  closes_of_findFrom rest h

end ClosingTag
end Folio
