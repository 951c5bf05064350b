import Folio.Markup.Inline

/-!
# What taking a token does

A token that ends no frame is read as text, or it opens a frame, or it makes content, for which it may
need the tokens after it. `Inline.Taken` lists what can come of it, errors included, and
`Inline.exists_taken` says that there is nothing else. What holds of all inline content follows from
one case for each of these.
-/

namespace Folio

/-- The token that ends a label is among the tokens that it is looked for in. -/
theorem Lexeme.suffix_of_linkTarget? {depth : Nat} {t : Lexeme} {ts rest : List Lexeme}
    (h : linkTarget? depth ts = some (t, rest)) : t :: rest <:+ ts ∧ t.token = .linkTarget := by
  fun_induction linkTarget? depth ts with
  | case1 => cases h
  | case4 => cases h
  | case6 t' ts target =>
    cases h
    exact ⟨List.suffix_refl _, target⟩
  | case2 _ _ _ _ ih => exact ⟨(ih h).1.trans (List.suffix_cons _ _), (ih h).2⟩
  | case3 _ _ _ _ ih => exact ⟨(ih h).1.trans (List.suffix_cons _ _), (ih h).2⟩
  | case5 _ _ _ _ ih => exact ⟨(ih h).1.trans (List.suffix_cons _ _), (ih h).2⟩
  | case7 _ _ _ _ ih => exact ⟨(ih h).1.trans (List.suffix_cons _ _), (ih h).2⟩
  | case8 _ _ _ _ _ _ _ _ _ ih => exact ⟨(ih h).1.trans (List.suffix_cons _ _), (ih h).2⟩

namespace Inline

/-- The first token that is not passed over. -/
theorem eq_of_drop_length_takeWhile {f : Lexeme → Bool} {close : Lexeme} {ts after : List Lexeme}
    (h : ts.drop (ts.takeWhile f).length = close :: after) :
    ts = ts.takeWhile f ++ close :: after ∧ f close = false := by
  induction ts with
  | nil => cases h
  | cons t ts ih =>
    by_cases passed : f t = true
    · rw [List.takeWhile_cons_of_pos passed] at h ⊢
      obtain ⟨eq, stops⟩ := ih h
      exact ⟨congrArg (t :: ·) eq, stops⟩
    · rw [List.takeWhile_cons_of_neg passed] at h ⊢
      cases h
      exact ⟨rfl, Bool.eq_false_iff.2 passed⟩

/-- What taking a token leads to. -/
inductive Taken (r : Region) (st : State) (t : Lexeme) (ts : List Lexeme) :
    Except SyntaxError (State × Nat) → Prop
  | text (bare : t.token ≠ .widgetOpen)
      (plain : t.token = .escape → t.literal.all isPunctuation = true) :
      Taken r st t ts (.ok (st.addText t.literal, t.stop))
  | escaped (kind : t.token = .escape) (other : t.literal.all isPunctuation = false) :
      Taken r st t ts (.ok (st.addText t.text, t.stop))
  | opened {stop : Stop} (kind : Stop.ofToken? t.token = some stop)
      (later : (ts.any fun u => stop.isToken u.token && u.canClose) = true) :
      Taken r st t ts (.ok (st.push stop t.literal, t.stop))
  | label {target : Lexeme} {rest : List Lexeme} (kind : t.token = .bracket)
      (found : Lexeme.linkTarget? 0 ts = some (target, rest)) :
      Taken r st t ts (.ok (st.push .linkText t.literal, t.stop))
  | code {n : Nat} {inside after : List Lexeme} {close : Lexeme} (kind : t.token = .backticks n)
      (eq : ts = inside ++ close :: after) (closes : close.token = .backticks n) :
      Taken r st t ts (.ok (st.add (.code (codeText (Lexeme.join inside))), close.stop))
  | image {target : Lexeme} {alt rest : List Lexeme} {src : String} {resume : Nat}
      (kind : t.token = .imageOpen) (found : Lexeme.linkTarget? 0 ts = some (target, rest))
      (eq : ts = alt ++ target :: rest) (placed : destination r target rest = .ok (src, resume)) :
      Taken r st t ts (.ok (st.add (.image src (String.ofList (Lexeme.join alt))), resume))
  | openImage {target : Lexeme} {rest : List Lexeme} {e : SyntaxError} (kind : t.token = .imageOpen)
      (found : Lexeme.linkTarget? 0 ts = some (target, rest))
      (failed : destination r target rest = .error e) : Taken r st t ts (.error e)
  | expression {e : Text} (kind : t.token = .brace)
      (read : Expression.read t.start (Lexeme.join (t :: ts)) = .ok e) :
      Taken r st t ts (.ok (st.add (.expression (Expression.source e)
        (r.span t.start (t.start + Text.bytes e))), t.start + Text.bytes e))
  | openBrace {e : SyntaxError} (kind : t.token = .brace)
      (failed : Expression.read t.start (Lexeme.join (t :: ts)) = .error e) :
      Taken r st t ts (.error (e.relocate r.toSource))
  | closeBrace (kind : t.token = .closeBrace) :
      Taken r st t ts (.error { pos := r.toSource t.start, fault := .unmatchedDelimiter '}' })
  | widget {tag : OpenTag} (kind : t.token = .widgetOpen)
      (read : OpenTag.read t.start (Lexeme.join (t :: ts)) = .ok tag)
      (closed : tag.selfClosing = true) :
      Taken r st t ts (.ok (st.add (.widget (.mk (tagIn r tag t.start tag.stop) true [])), tag.stop))
  | openWidget {tag : OpenTag} (kind : t.token = .widgetOpen)
      (read : OpenTag.read t.start (Lexeme.join (t :: ts)) = .ok tag)
      (closed : tag.selfClosing = false) :
      Taken r st t ts (.error {
        pos := r.toSource t.start
        fault := .invalid s!"inline widget <{tag.name}> must be self-closing" })
  | badTag {e : SyntaxError} (kind : t.token = .widgetOpen)
      (failed : OpenTag.read t.start (Lexeme.join (t :: ts)) = .error e) :
      Taken r st t ts (.error (e.relocate r.toSource))
  | lineBreak (kind : t.token = .hardBreak ∨ t.token = .newline) :
      Taken r st t ts (.ok ({ st with out := .lineBreak :: st.out.trimEnd }, t.stop))
  | softBreak (kind : t.token = .newline) :
      Taken r st t ts (.ok ({ st with out := .softBreak :: st.out.trimEnd }, t.stop))

/-- A token without effect is read as text. -/
theorem Taken.of_plain {r : Region} {st : State} {t : Lexeme} {ts : List Lexeme}
    (bare : t.token ≠ .widgetOpen) (unescaped : t.token ≠ .escape) :
    Taken r st t ts (.ok (st.addText t.literal, t.stop)) :=
  .text bare fun kind => absurd kind unescaped

theorem exists_taken (r : Region) (st : State) (t : Lexeme) (ts : List Lexeme) :
    ∃ x, take r st t ts = x ∧ Taken r st t ts x := by
  refine ⟨_, rfl, ?_⟩
  cases kind : t.token with
  | doubleStar | doubleUnderscore | star | underscore | doubleTilde =>
    simp only [take, kind, Stop.ofToken?]
    split
    · rename_i opens
      rw [Bool.and_eq_true] at opens
      exact .opened (by rw [kind]; rfl) opens.2
    · exact .of_plain (by simp [kind]) (by simp [kind])
  | backticks n =>
    simp only [take, kind]
    split
    · rename_i close after found
      obtain ⟨eq, closes⟩ := eq_of_drop_length_takeWhile found
      exact .code kind eq (by simpa using closes)
    · exact .of_plain (by simp [kind]) (by simp [kind])
  | imageOpen =>
    simp only [take, kind]
    split
    · rename_i target rest found
      obtain ⟨⟨alt, eq⟩, -⟩ := Lexeme.suffix_of_linkTarget? found
      have alt_eq : ts.take (ts.length - (rest.length + 1)) = alt := by
        rw [← eq, List.length_append, List.length_cons, Nat.add_sub_cancel, List.take_left]
      rw [alt_eq]
      cases placed : destination r target rest with
      | error e => exact .openImage kind found placed
      | ok place => exact .image kind found eq.symm placed
    · exact .of_plain (by simp [kind]) (by simp [kind])
  | bracket =>
    simp only [take, kind]
    split
    · exact .label kind ‹_›
    · exact .of_plain (by simp [kind]) (by simp [kind])
  | brace =>
    simp only [take, kind]
    split
    · exact .openBrace kind ‹_›
    · exact .expression kind ‹_›
  | closeBrace =>
    simp only [take, kind]
    exact .closeBrace kind
  | widgetOpen =>
    simp only [take, kind]
    split
    · exact .badTag kind ‹_›
    · split
      · exact .widget kind ‹_› ‹_›
      · exact .openWidget kind ‹_› (Bool.eq_false_iff.2 ‹_›)
  | hardBreak =>
    simp only [take, kind]
    exact .lineBreak (.inl kind)
  | newline =>
    simp only [take, kind]
    split
    · exact .lineBreak (.inr kind)
    · exact .softBreak kind
  | escape =>
    simp only [take, kind]
    split
    · exact .text (by simp [kind]) fun _ => ‹_›
    · exact .escaped kind (Bool.eq_false_iff.2 ‹_›)
  | text | punct | closeBracket | closeParen | linkTarget =>
    have literal : t.literal = t.text := by rw [Lexeme.literal, kind]
    simp only [take, kind]
    rw [← literal]
    exact .of_plain (by simp [kind]) (by simp [kind])

end Inline
end Folio
