import Folio.Proofs.Markup.Alike
import Folio.Proofs.Markup.TagSpans
import Folio.Proofs.Text.Divide

/-!
# A line feed after tags

No tag and no expression is completed by a line feed: with one more at the end of a text, the same
tags and expressions are found in it. Main statements:

* `OpenTag.read_append_eol`: an opening tag at the start of a text;
* `ClosingTag.find?_append_eol`: the closing tag of a widget.
-/

namespace Folio

/-! ### Parts of texts -/

namespace Text

theorem takeWhile_append_eol {v : Text} {p : Char → Bool} (stops : p '\n' = false) (s : Text) :
    (s ++ '\n' :: v).takeWhile p = s.takeWhile p := by
  induction s with
  | nil => exact List.takeWhile_cons_of_neg (Bool.eq_false_iff.1 stops)
  | cons c s ih => rw [List.cons_append, List.takeWhile_cons, List.takeWhile_cons, ih]

theorem takeWhile_ne_eol {s : Text} (eol : '\n' ∉ s) : s.takeWhile (· != '\n') = s := by
  induction s with
  | nil => rfl
  | cons c s ih =>
    rw [List.mem_cons, not_or] at eol
    have other : (c != '\n') = true := bne_iff_ne.2 (Ne.symm eol.1)
    rw [List.takeWhile_cons, if_pos other, ih eol.2]

theorem isPrefixOf_append_eol {v w : Text} (eol : '\n' ∉ w) (s : Text) :
    w.isPrefixOf (s ++ '\n' :: v) = w.isPrefixOf s := by
  induction w generalizing s with
  | nil => rfl
  | cons c w ih =>
    rw [List.mem_cons, not_or] at eol
    cases s with
    | nil =>
      show (c == '\n' && w.isPrefixOf v) = false
      rw [beq_eq_false_iff_ne.2 (Ne.symm eol.1), Bool.false_and]
    | cons d s => rw [List.cons_append, List.isPrefixOf, List.isPrefixOf, ih eol.2]

theorem head?_append_eol {v : Text} {p : Char → Bool} (stops : p '\n' = false) (s : Text) :
    (s ++ '\n' :: v).head?.any p = s.head?.any p := by
  cases s with
  | nil => exact stops
  | cons c s => rfl

/-- A pattern without line feeds that is not empty is found at the same place. -/
theorem find?_append_eol {w : Text} (eol : '\n' ∉ w) (nonempty : w ≠ []) (s : Text) :
    find? w (s ++ ['\n']) = find? w s := by
  induction s with
  | nil =>
    have absent : w.isPrefixOf ([] ++ ['\n']) = false := by
      rw [isPrefixOf_append_eol eol]
      cases w with
      | nil => contradiction
      | cons c w => rfl
    have nothing : find? w [] = none := by
      rw [find?, if_neg (by simp [nonempty])]
    show (if w.isPrefixOf ([] ++ ['\n']) then some 0 else (find? w []).map (· + 1)) = find? w []
    rw [absent, nothing]
    rfl
  | cons c s ih =>
    rw [List.cons_append, find?, find?, ih, ← List.cons_append, isPrefixOf_append_eol eol]

theorem le_length_of_find? {w s : Text} {n : Nat} (h : find? w s = some n) : n ≤ s.length := by
  induction s generalizing n with
  | nil =>
    unfold find? at h
    split at h
    · cases h
      exact Nat.le_refl _
    · cases h
  | cons c s ih =>
    unfold find? at h
    split at h
    · cases h
      exact Nat.zero_le _
    · obtain ⟨m, found, rfl⟩ := Option.map_eq_some_iff.1 h
      exact Nat.succ_le_succ (ih found)

/-- Characters that are passed over up to some other character are the same when the text goes on. -/
theorem passed_append {p : Char → Bool} {s t : Text} {c : Char} (rest : s.dropWhile p = c :: t)
    (w : Text) :
    (s ++ w).takeWhile p = s.takeWhile p ∧ (s ++ w).dropWhile p = c :: (t ++ w) := by
  have short : ¬ (s.takeWhile p).length = s.length := by
    have parts := congrArg List.length (List.takeWhile_append_dropWhile (p := p) (l := s))
    rw [rest, List.length_append, List.length_cons] at parts
    omega
  constructor
  · rw [List.takeWhile_append, if_neg short]
  · rw [List.dropWhile_append, rest]
    rfl

/-- What comes after characters at the start of a text that are passed over, line feeds among
them. -/
theorem dropWhile_append_eol {p : Char → Bool} (passed : p '\n' = true) (s : Text) :
    s.dropWhile p = [] ∧ (s ++ ['\n']).dropWhile p = [] ∨
      ∃ c t, s.dropWhile p = c :: t ∧ (s ++ ['\n']).dropWhile p = c :: (t ++ ['\n']) ∧
        (s ++ ['\n']).takeWhile p = s.takeWhile p := by
  cases rest : s.dropWhile p with
  | nil => exact .inl ⟨rfl, by simp [List.dropWhile_append, rest, passed]⟩
  | cons c t =>
    obtain ⟨same, after⟩ := passed_append rest ['\n']
    exact .inr ⟨c, t, rfl, after, same⟩

end Text

/-! ### Expressions and opening tags -/

namespace Expression

/-- A line feed balances no brace. -/
theorem exists_scan_eol (mode : Mode) (depth : Int) (at_ : Nat) :
    ∃ e, scan mode depth at_ ['\n'] = .error e := by
  cases mode with
  | outside => exact ⟨_, rfl⟩
  | inside quote start =>
    by_cases is_quote : ('\n' == quote) = true
    · exact ⟨.unclosed, by simp [scan, is_quote, Except.map]⟩
    · exact ⟨.unterminated start, by simp [scan, is_quote, Except.map]⟩
  | escaped quote start => exact ⟨_, rfl⟩

theorem scan_append_eol (mode : Mode) (depth : Int) (at_ : Nat) (s : Text) :
    Alike Eq (scan mode depth at_ (s ++ ['\n'])) (scan mode depth at_ s) := by
  induction s generalizing mode depth at_ with
  | nil =>
    obtain ⟨e, failed⟩ := exists_scan_eol mode depth at_
    rw [List.nil_append, failed]
    cases mode <;> trivial
  | cons c s ih =>
    have more : ∀ mode depth at_, Alike Eq ((scan mode depth at_ (s ++ ['\n'])).map (c :: ·))
        ((scan mode depth at_ s).map (c :: ·)) :=
      fun mode depth at_ => (ih mode depth at_).map fun _ _ => congrArg (c :: ·)
    rw [List.cons_append]
    cases mode with
    | outside =>
      rw [scan, scan]
      split
      · exact more ..
      · split
        · split
          · rfl
          · exact more ..
        · split <;> exact more ..
    | inside quote start =>
      rw [scan, scan]
      split
      · exact more ..
      · split <;> exact more ..
    | escaped quote start => exact more ..

theorem read_append_eol (at_ : Nat) (s : Text) :
    Alike Eq (read at_ (s ++ ['\n'])) (read at_ s) := by
  unfold read
  obtain ⟨e, e', failed, failed'⟩ | ⟨w, _, found, found', rfl⟩ :=
    (scan_append_eol .outside 0 at_ s).cases
  · rw [failed, failed']
    cases e <;> cases e' <;> trivial
  · rw [found, found']
    rfl

end Expression

namespace TagToken

theorem quotedRest?_cons {quote c : Char} (plain : c ≠ '\\') (s : Text) :
    quotedRest? quote (c :: s) =
      if c == quote then some [c] else (quotedRest? quote s).map (c :: ·) := by
  rw [quotedRest?]
  · rw [beq_eq_false_iff_ne.2 plain, if_neg Bool.false_ne_true]
  · exact fun _ _ escape => absurd escape plain

/-- A quoted string ends before a line feed, or not at all. -/
theorem quotedRest?_append_eol {quote : Char} (eol : quote ≠ '\n') (escape : quote ≠ '\\')
    (s : Text) : quotedRest? quote (s ++ ['\n']) = quotedRest? quote s := by
  fun_induction quotedRest? quote s with
  | case1 => simp [quotedRest?, eol.symm]
  | case2 c s is_eol =>
    rw [List.cons_append, List.cons_append, quotedRest?, if_pos is_eol]
  | case3 c s other ih =>
    rw [List.cons_append, List.cons_append, quotedRest?, if_neg other, ih]
  | case4 c s _ is_quote =>
    rw [List.cons_append, quotedRest?_cons, if_pos is_quote]
    rintro rfl
    exact escape (beq_iff_eq.1 is_quote).symm
  | case5 c s escaped _ is_escape =>
    obtain rfl := beq_iff_eq.1 is_escape
    cases s with
    | nil => rfl
    | cons d s => exact (escaped d s rfl rfl).elim
  | case6 c s _ other plain ih =>
    rw [List.cons_append, quotedRest?_cons, if_neg other, ih]
    exact fun is_escape => plain (beq_iff_eq.2 is_escape)

theorem read?_append_eol (c : Char) (s : Text) :
    read? (c :: (s ++ ['\n'])) = read? (c :: s) := by
  have ahead : ∀ d : Char, d ≠ '\n' → ((s ++ ['\n']).head? == some d) = (s.head? == some d) := by
    intro d other
    cases s with
    | nil => simp [other.symm]
    | cons e s => rfl
  by_cases open_ : c = '<'
  · subst open_
    rw [read?, read?, ahead '/' (by decide)]
  by_cases slash : c = '/'
  · subst slash
    rw [read?, read?, ahead '>' (by decide)]
  by_cases single : c = '>' ∨ c = '=' ∨ c = '{'
  · rcases single with rfl | rfl | rfl <;> rfl
  · rw [not_or, not_or] at single
    have quoted : (c == '"' || c == '\'') = true →
        quotedRest? c (s ++ ['\n']) = quotedRest? c s := by
      intro is_quote
      rw [Bool.or_eq_true, beq_iff_eq, beq_iff_eq] at is_quote
      rcases is_quote with rfl | rfl <;> exact quotedRest?_append_eol (by decide) (by decide) s
    have text : ∀ s, read? (c :: s) =
        if isNameStart c then some (.name (c :: s.takeWhile isNameChar))
        else if c == '"' || c == '\'' then (quotedRest? c s).map fun rest => .quoted (c :: rest)
        else none := by
      intro s
      rw [read?] <;> simp [open_, slash, single]
    rw [text, text, Text.takeWhile_append_eol (by decide)]
    split
    · rfl
    · split
      · rename_i is_quote
        rw [quoted is_quote]
      · rfl

end TagToken

namespace OpenTag

theorem valueStep_append_eol {name : String} {props : List WidgetProp} {prop : String}
    {start at_ : Nat} {c : Char} {s : Text} {token : Option TagToken} :
    Alike Eq (valueStep name props prop start at_ c (s ++ ['\n']) token)
      (valueStep name props prop start at_ c s token) := by
  unfold valueStep
  dsimp only
  split
  · rfl
  · have expression := Expression.read_append_eol at_ (c :: s)
    rw [List.cons_append] at expression
    obtain ⟨e, e', failed, failed'⟩ | ⟨w, _, found, found', rfl⟩ := expression.cases
    · rw [failed, failed']
      trivial
    · rw [found, found']
      rfl
  · exact .refl (fun _ => rfl) _
  · trivial

theorem step_append_eol (state : State) (at_ : Nat) (c : Char) (s : Text) :
    Alike Eq (step state at_ c (s ++ ['\n'])) (step state at_ c s) := by
  unfold step
  rw [TagToken.read?_append_eol]
  cases state with
  | valued name props prop start => exact valueStep_append_eol
  | _ => exact .refl (fun _ => rfl) _

theorem readFrom_append_eol (tag : Nat) (state : State) (resume at_ : Nat) (s : Text) :
    Alike Eq (readFrom tag state resume at_ (s ++ ['\n'])) (readFrom tag state resume at_ s) := by
  induction s generalizing state resume at_ with
  | nil =>
    have failed : readFrom tag state resume at_ ['\n'] =
        .error (unfinished tag (at_ + '\n'.utf8Size) state) := by
      rw [readFrom, if_pos (by simp [TagToken.isSkipped])]
      rfl
    rw [List.nil_append, failed]
    trivial
  | cons c s ih =>
    rw [List.cons_append, readFrom, readFrom]
    split
    · exact ih ..
    · obtain ⟨e, e', failed, failed'⟩ | ⟨next, _, done, done', rfl⟩ :=
        (step_append_eol state at_ c s).cases
      · rw [failed, failed']
        trivial
      · rw [done, done']
        cases next with
        | more state resume => exact ih ..
        | done t => rfl

/-- With a line feed at the end of a text, the same opening tag is read at its start. -/
theorem read_append_eol (at_ : Nat) (s : Text) :
    Alike Eq (read at_ (s ++ ['\n'])) (read at_ s) := by
  unfold read
  dsimp only
  rw [Text.drop_length_takeWhile, Text.drop_length_takeWhile]
  obtain ⟨rest, rest'⟩ | ⟨c, t, rest, rest', blanks⟩ :=
    Text.dropWhile_append_eol (p := TagToken.isSkipped) rfl s
  · rw [rest, rest']
    trivial
  · rw [rest, rest', TagToken.read?_append_eol, blanks]
    split
    · exact readFrom_append_eol ..
    · trivial

end OpenTag

/-! ### Closing tags -/

/-- Reading goes on at the same offset, or with nothing that is left before the offset `stop`. -/
def Resumes (stop n n' : Nat) : Prop := n = n' ∨ stop ≤ n ∧ stop ≤ n'

/-- The size of a fenced block is the same, or the block takes all lines. -/
theorem Fence.extent_ended (f : Fence) {ls : List (Text × LineEnding)} (divided : Line.Divided ls) :
    f.extent (Line.ended ls) = f.extent ls ∨
      Text.bytes (ls.flatMap fun l => l.1 ++ l.2.text) ≤ f.extent ls ∧
        Text.bytes (ls.flatMap fun l => l.1 ++ l.2.text) ≤ f.extent (Line.ended ls) := by
  induction ls with
  | nil => exact .inr ⟨Nat.zero_le _, Nat.zero_le _⟩
  | cons l ls ih =>
    obtain ⟨t, e⟩ := l
    obtain ⟨-, last, divided⟩ := divided
    by_cases none : e = .none
    · obtain ⟨-, rfl⟩ := last none
      subst none
      refine .inr ⟨?_, ?_⟩ <;> simp [Line.ended, extent]
    · rw [Line.ended_cons none, extent, extent, List.flatMap_cons, Text.bytes_append,
        Text.bytes_append]
      dsimp only
      split
      · exact .inl rfl
      · rcases ih divided with same | ⟨le, le'⟩
        · exact .inl (by rw [same])
        · exact .inr ⟨by omega, by omega⟩

namespace ClosingTag

variable {name : Text} {at_ : Nat} {c : Char} {s : Text}

theorem after?_append_eol {lead v : Text} (eol : '\n' ∉ lead) (s : Text) :
    after? lead (s ++ '\n' :: v) = (after? lead s).map (· ++ '\n' :: v) := by
  unfold after?
  rw [Text.isPrefixOf_append_eol eol]
  by_cases begins : lead.isPrefixOf s = true
  · obtain ⟨t, rfl⟩ := List.isPrefixOf_iff_prefix.1 begins
    rw [List.append_assoc, List.drop_left, List.drop_left, Text.head?_append_eol (by decide)]
    split <;> rfl
  · rw [Bool.not_eq_true] at begins
    rw [begins, Bool.false_and, Bool.false_and]
    rfl

theorem size?_append_eol (eol : '\n' ∉ name) (s : Text) :
    size? name (s ++ ['\n']) = size? name s := by
  have lead : '\n' ∉ '<' :: '/' :: name := by simp [eol]
  unfold size?
  dsimp only
  rw [after?_append_eol lead]
  cases after? ('<' :: '/' :: name) s with
  | none => rfl
  | some rest =>
    dsimp [bind, Option.bind]
    rw [Text.drop_length_takeWhile, Text.drop_length_takeWhile]
    obtain ⟨after, after'⟩ | ⟨c, t, after, after', blanks⟩ :=
      Text.dropWhile_append_eol (p := Text.isBlankChar) rfl rest
    · rw [after, after']
      rfl
    · rw [after, after', blanks]
      rfl

theorem reopening?_append_eol (eol : '\n' ∉ name) (at_ : Nat) (s : Text) :
    reopening? name at_ (s ++ ['\n']) = reopening? name at_ s := by
  have lead : '\n' ∉ '<' :: name := by simp [eol]
  unfold reopening?
  rw [after?_append_eol lead, (OpenTag.read_append_eol at_ s).toOption_eq]
  cases after? ('<' :: name) s <;> rfl

theorem pastCode_append_eol (at_ : Nat) (s : Text) :
    pastCode at_ ('\x60' :: (s ++ ['\n'])) = pastCode at_ ('\x60' :: s) := by
  have run : ('\x60' :: (s ++ ['\n'])).takeWhile (· == '\x60') =
      ('\x60' :: s).takeWhile (· == '\x60') :=
    Text.takeWhile_append_eol (by decide) ('\x60' :: s)
  have eol : '\n' ∉ ('\x60' :: s).takeWhile (· == '\x60') := by
    intro mem
    have ticks := List.all_eq_true.1 (List.all_takeWhile (p := (· == '\x60'))) '\n' mem
    cases ticks
  have nonempty : ('\x60' :: s).takeWhile (· == '\x60') ≠ [] := by
    rw [List.takeWhile_cons_of_pos rfl]
    exact List.cons_ne_nil _ _
  have le := (List.takeWhile_prefix (p := (· == '\x60')) (l := '\x60' :: s)).length_le
  unfold pastCode
  rw [run]
  generalize ('\x60' :: s).takeWhile (· == '\x60') = w at *
  dsimp only
  rw [← List.cons_append, List.drop_append_of_le_length le, Text.find?_append_eol eol nonempty]
  cases found : Text.find? w (('\x60' :: s).drop w.length) with
  | none => rfl
  | some n =>
    dsimp only
    rw [List.take_append_of_le_length (Text.le_length_of_find? found)]

theorem pastFence?_append_eol (cr : '\r' ∉ s) (at_ : Nat) :
    pastFence? at_ (s ++ ['\n']) = none ∧ pastFence? at_ s = none ∨
      ∃ n n', pastFence? at_ (s ++ ['\n']) = some n ∧ pastFence? at_ s = some n' ∧
        Resumes (at_ + Text.bytes s) n n' := by
  have line : (s ++ ['\n']).takeWhile (· != '\n') = s.takeWhile (· != '\n') :=
    Text.takeWhile_append_eol (by decide) s
  have whole := List.takeWhile_append_dropWhile (p := (· != '\n')) (l := s)
  unfold pastFence?
  dsimp only
  rw [line]
  cases Fence.open? (s.takeWhile (· != '\n')) with
  | none => exact .inl ⟨rfl, rfl⟩
  | some fence =>
    refine .inr ⟨_, _, rfl, rfl, ?_⟩
    generalize s.takeWhile (· != '\n') = w at *
    unfold Fence.skip
    cases rest : s.dropWhile (· != '\n') with
    | nil =>
      rw [rest, List.append_nil] at whole
      subst whole
      left
      rw [List.drop_eq_nil_of_le (by simp), List.drop_eq_nil_of_le (by simp)]
    | cons c t =>
      -- the lines after the opening one are those of a text with a line feed more
      obtain rfl : c = '\n' := by
        have stops := List.head?_dropWhile_not (· != '\n') s
        rw [rest] at stops
        simpa using stops
      rw [rest] at whole
      subst whole
      have after : ∀ u : Text, (w ++ '\n' :: u).drop (w.length + 1) = u := by
        intro u
        rw [← List.drop_drop, List.drop_left]
        rfl
      have cr' : '\r' ∉ t := fun mem => cr (List.mem_append_right _ (List.mem_cons_of_mem _ mem))
      rw [List.append_assoc, List.cons_append, after, after, Line.divide_append_eol cr',
        Text.bytes_append, Text.bytes_cons]
      rcases fence.extent_ended (Line.divided_divide t) with same | ⟨le, le'⟩
      · exact .inl (by rw [same])
      · rw [Line.join_divide] at le le'
        have size : '\n'.utf8Size = 1 := rfl
        exact .inr ⟨by omega, by omega⟩

theorem findFrom_eol (depth : Nat) (lineStart : Bool) (resume : Nat) :
    findFrom name depth lineStart resume at_ ['\n'] = none := by
  cases lineStart <;> simp [findFrom, pastFence?, Fence.open?, unindent?, indentation]

theorem findFrom_append_eol (eol : '\n' ∉ name) (cr : '\r' ∉ s) {depth : Nat} {lineStart : Bool}
    {resume resume' : Nat} (resumes : Resumes (at_ + Text.bytes s) resume resume') :
    findFrom name depth lineStart resume at_ (s ++ ['\n']) =
      findFrom name depth lineStart resume' at_ s := by
  induction s generalizing at_ depth lineStart resume resume' with
  | nil => exact findFrom_eol ..
  | cons c s ih =>
    have pos := c.utf8Size_pos
    have fenced := pastFence?_append_eol cr at_
    have size := size?_append_eol eol (c :: s)
    have reopening := reopening?_append_eol eol at_ (c :: s)
    rw [Text.bytes_cons, ← Nat.add_assoc] at resumes fenced
    rw [List.mem_cons, not_or] at cr
    rw [List.cons_append] at size reopening fenced
    rw [List.cons_append, findFrom, findFrom]
    rcases resumes with rfl | ⟨le, le'⟩
    · split
      · exact ih cr.2 (.inl rfl)
      · have fenced : (if lineStart then pastFence? at_ (c :: (s ++ ['\n'])) else none) = none ∧
            (if lineStart then pastFence? at_ (c :: s) else none) = none ∨
              ∃ n n', (if lineStart then pastFence? at_ (c :: (s ++ ['\n'])) else none) = some n ∧
                (if lineStart then pastFence? at_ (c :: s) else none) = some n' ∧
                  Resumes (at_ + c.utf8Size + Text.bytes s) n n' := by
          cases lineStart with
          | false => exact .inl ⟨rfl, rfl⟩
          | true => exact fenced
        obtain ⟨none, none'⟩ | ⟨n, n', past, past', resumes⟩ := fenced
        · rw [none, none']
          dsimp only
          split
          · exact ih cr.2 (.inl rfl)
          · split
            · rename_i tick
              obtain rfl := beq_iff_eq.1 tick
              rw [pastCode_append_eol]
              exact ih cr.2 (.inl rfl)
            · rw [size, reopening]
              split
              · split
                · rfl
                · exact ih cr.2 (.inl rfl)
              · exact ih cr.2 (.inl rfl)
              · exact ih cr.2 (.inl rfl)
        · rw [past, past']
          exact ih cr.2 resumes
    · rw [if_pos (by omega), if_pos (by omega)]
      exact ih cr.2 (.inr ⟨le, le'⟩)

/-- With a line feed at the end of a text, the same closing tag is found in it. -/
theorem find?_append_eol (eol : '\n' ∉ name) (cr : '\r' ∉ s) (lineStart : Bool) :
    find? name lineStart at_ (s ++ ['\n']) = find? name lineStart at_ s :=
  findFrom_append_eol eol cr (.inl rfl)

end ClosingTag

end Folio
