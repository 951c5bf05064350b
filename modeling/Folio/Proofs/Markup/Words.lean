import Folio.Proofs.Markup.Manuscript

/-!
# Documents of words

The plainest documents: every line is empty or made of words of ASCII letters with single spaces
between. Such lines are rows of plain text, and so are their beginnings and ends.
-/

namespace Folio

open Inline (Sentence)
open Style (IsPhrase)

/-- A text as content, which is none if the text is empty. -/
def texts (t : Text) : List Inline := if t = [] then [] else [.text (String.ofList t)]

theorem texts_eq_plain {t : Text} (filled : t ≠ []) : texts t = Inline.plain t := if_neg filled

namespace Text

variable {t : Text} {c : Char}

/-- Letters and the space. -/
def isWordChar (c : Char) : Bool := c.isAlpha || c == ' '

/-- A line of words: it is empty, or it is made of words of letters with single spaces between. -/
def IsWords (line : Text) : Prop :=
  line = [] ∨ ∀ w ∈ line.splitOn ' ', w ≠ [] ∧ ∀ c ∈ w, c.isAlpha = true

instance (line : Text) : Decidable line.IsWords :=
  decidable_of_iff (line.isEmpty ∨ (line.splitOn ' ').all (fun w => !w.isEmpty && w.all Char.isAlpha))
    (by simp [IsWords])

/-- A document of words. -/
def IsPlainDocument (s : Text) : Prop := ∀ l ∈ Line.split s, l.text.IsWords

instance (s : Text) : Decidable s.IsPlainDocument :=
  decidable_of_iff ((Line.split s).all fun l => decide l.text.IsWords) (by simp [IsPlainDocument])

theorem isAlpha_iff :
    c.isAlpha = true ↔ (65 ≤ c.toNat ∧ c.toNat ≤ 90) ∨ (97 ≤ c.toNat ∧ c.toNat ≤ 122) := by
  have ranges : c.isAlpha = (decide (c.val ≥ 65 ∧ c.val ≤ 90) ||
      (decide (c.val ≥ 97) && decide (c.val ≤ 122))) := rfl
  simp only [ranges, ge_iff_le, Bool.or_eq_true, Bool.and_eq_true, decide_eq_true_eq, UInt32.le_iff_toNat_le,
    Char.toNat]
  rfl

theorem isBlankChar_of_isAlpha (letter : c.isAlpha = true) : isBlankChar c = false := by
  rw [isAlpha_iff] at letter
  exact isBlankChar_of_toNat (by omega) (by omega)

/-- A character of a kind is none of some that are not of it. -/
theorem contains_eq_false {p : Char → Bool} {cs : List Char} (holds : p c = true) (none : cs.any p = false) :
    cs.contains c = false := by
  rw [← Bool.not_eq_true, List.contains_iff_mem]
  exact fun mem => List.any_eq_false.1 none c mem holds

theorem isSpecial_eq_false {p : Char → Bool} (holds : p c = true)
    (none : "*_~\x60![]()<\x7b\x7d\\\r\n".toList.any p = false) : Token.isSpecial c = false := by
  have other := contains_eq_false holds none
  rw [← Bool.not_eq_true] at other ⊢
  exact fun special => other (by simpa [Token.isSpecial, or_assoc] using special)

theorem isSpecial_of_isWordChar (h : isWordChar c = true) : Token.isSpecial c = false :=
  isSpecial_eq_false h (by decide)

theorem isSpecial_of_isAlphanum (h : c.isAlphanum = true) : Token.isSpecial c = false :=
  isSpecial_eq_false h (by decide)

theorem isBlankChar_of_isAlphanum (h : c.isAlphanum = true) : isBlankChar c = false := by
  rw [Char.isAlphanum, Bool.or_eq_true] at h
  exact h.elim isBlankChar_of_isAlpha isBlankChar_of_isDigit

theorem isLetter_of_isAlphanum (h : c.isAlphanum = true) : isLetter c = true := by
  have ascii : c.toNat < 0x80 := by
    have kinds := h
    rw [Char.isAlphanum, Bool.or_eq_true] at kinds
    rcases kinds with letter | digit
    · rw [isAlpha_iff] at letter
      omega
    · have bounds : 48 ≤ c.toNat ∧ c.toNat ≤ 57 := Char.isDigit_iff_toNat.1 digit
      omega
  rw [isLetter, if_pos ascii, h]

theorem isOpener_of_isAlpha (letter : c.isAlpha = true) : isOpener c = false := by
  rw [← Bool.not_eq_true]
  intro opener
  simp only [isOpener, Bool.or_eq_true, List.contains_eq_mem, List.mem_cons, List.not_mem_nil,
    or_false, decide_eq_true_eq] at opener
  rcases opener with digit | rfl | rfl | rfl | rfl | rfl | rfl | rfl | rfl | rfl
  · have bounds : 48 ≤ c.toNat ∧ c.toNat ≤ 57 := Char.isDigit_iff_toNat.1 digit
    rw [isAlpha_iff] at letter
    omega
  all_goals exact absurd letter (by decide)

namespace IsWords

theorem isWordChar (h : t.IsWords) : ∀ c ∈ t, isWordChar c = true := by
  rcases h with rfl | words
  · nofun
  · intro c mem
    have joined : [' '].intercalate (t.splitOn ' ') = t := List.intercalate_splitOn ' '
    rw [← joined] at mem
    obtain rfl | ⟨w, among, mem⟩ := eq_or_exists_of_mem_intercalate mem
    · rfl
    · rw [Text.isWordChar, (words w among).2 c mem]
      rfl

/-- A line of words starts with a letter. -/
theorem starts (h : t.IsWords) : t.head?.all Char.isAlpha = true := by
  rcases h with rfl | words
  · rfl
  · cases pieces : t.splitOn ' ' with
    | nil => exact absurd pieces (List.splitOn_ne_nil _ _)
    | cons w ws =>
      obtain ⟨filled, letters⟩ := words w (by rw [pieces]; exact List.mem_cons_self)
      obtain ⟨c, w, rfl⟩ := List.exists_cons_of_ne_nil filled
      have joined : [' '].intercalate (t.splitOn ' ') = t := List.intercalate_splitOn ' '
      rw [pieces, ← List.nil_append (_ :: ws), intercalate_append_cons] at joined
      rw [← joined]
      exact letters c List.mem_cons_self

/-- A line of words ends with a letter. -/
theorem stops (h : t.IsWords) : t.getLast?.all Char.isAlpha = true := by
  rcases h with rfl | words
  · rfl
  · cases pieces : t.splitOn ' ' using List.reverseRecOn with
    | nil => exact absurd pieces (List.splitOn_ne_nil _ _)
    | append_singleton ws w =>
      obtain ⟨filled, letters⟩ := words w (by rw [pieces]; simp)
      have joined : [' '].intercalate (t.splitOn ' ') = t := List.intercalate_splitOn ' '
      rw [pieces, intercalate_append_cons, List.flatMap_nil, List.append_nil] at joined
      have last : t.getLast? = some (w.getLast filled) := by
        rw [← joined, List.getLast?_append, List.getLast?_eq_some_getLast filled, Option.some_or]
      rw [last]
      exact letters _ (List.getLast_mem filled)

end IsWords

/-- A line with which a line of words may end: it holds letters and spaces, with a letter at the end,
but may start with spaces. -/
structure IsTail (t : Text) : Prop where
  chars : ∀ c ∈ t, isWordChar c = true
  stops : t.getLast?.all Char.isAlpha = true

theorem IsWords.isTail (h : t.IsWords) : t.IsTail := ⟨h.isWordChar, h.stops⟩

theorem IsTail.of_suffix {u : Text} (h : t.IsTail) (suffix : u <:+ t) : u.IsTail where
  chars := fun c mem => h.chars c (suffix.subset mem)
  stops := by
    obtain ⟨v, rfl⟩ := suffix
    have stops := h.stops
    rw [List.getLast?_append] at stops
    cases last : u.getLast? with
    | none => rfl
    | some c => rwa [last, Option.some_or] at stops

theorem isIndent_of_visible (visible : isBlankChar c = false) : isIndent c = false := by
  rw [← Bool.not_eq_true]
  intro indent
  have blank := isBlankChar_of_isIndent indent
  rw [visible] at blank
  cases blank

theorem isIndent_of_isAlpha (letter : c.isAlpha = true) : isIndent c = false :=
  isIndent_of_visible (isBlankChar_of_isAlpha letter)

end Text

/-! ### Rows of words -/

/-- A line of words with what is read from it. -/
def wordRow (t : Text) : Row := (t, texts (body t))

section WordRow

open Text (IsTail isWordChar isBlankChar isIndent_of_isAlpha isBlankChar_of_isAlpha)

variable {t : Text}

theorem any_visible {o : Option Char} (letter : o.any Char.isAlpha = true) :
    o.any (!isBlankChar ·) = true := by
  cases o with
  | none => cases letter
  | some c => rw [Option.any_some, isBlankChar_of_isAlpha letter]; rfl

theorem body_of_visible (starts : t.head?.any (!isBlankChar ·) = true) : body t = t := by
  cases t with
  | nil => rfl
  | cons c t =>
    have visible : (!isBlankChar c) = true := starts
    refine List.dropWhile_cons_of_neg fun indent => ?_
    rw [isBlankChar_of_isIndent indent] at visible
    cases visible

theorem body_of_starts (starts : t.head?.all Char.isAlpha = true) : body t = t := by
  cases t with
  | nil => rfl
  | cons c t => exact body_of_visible (any_visible (show (some c).any Char.isAlpha = true from starts))

/-- A filled line of words without its indentation starts and ends with a letter. -/
theorem exists_ends_of_isTail (tail : t.IsTail) (filled : t ≠ []) :
    (∃ c rest, body t = c :: rest ∧ c.isAlpha = true) ∧
      (body t).getLast?.any Char.isAlpha = true := by
  have parts : t.takeWhile isIndent ++ body t = t := List.takeWhile_append_dropWhile
  obtain ⟨last, last_eq⟩ : ∃ c, t.getLast? = some c := ⟨_, List.getLast?_eq_some_getLast filled⟩
  have letter : last.isAlpha = true := by
    have stops := tail.stops
    rwa [last_eq] at stops
  cases rest : body t with
  | nil =>
    rw [rest, List.append_nil] at parts
    have indent : isIndent last = true := by
      refine List.all_eq_true.1 (List.all_takeWhile (l := t)) last ?_
      rw [parts]
      exact List.mem_of_getLast? last_eq
    rw [isIndent_of_isAlpha letter] at indent
    cases indent
  | cons c u =>
    have c_mem : c ∈ t := (List.dropWhile_suffix _).subset (show c ∈ body t by rw [rest]; simp)
    have visible : isIndent c = false := by
      have stop := List.head?_dropWhile_not isIndent t
      rwa [show (t.dropWhile isIndent).head? = some c from congrArg List.head? rest] at stop
    refine ⟨⟨c, u, rfl, ?_⟩, ?_⟩
    · have word := tail.chars c c_mem
      rw [isWordChar, Bool.or_eq_true, beq_iff_eq] at word
      refine word.resolve_right ?_
      rintro rfl
      cases visible
    · rw [← parts, rest, List.getLast?_append] at last_eq
      cases last' : (c :: u).getLast? with
      | none => exact absurd (List.getLast?_eq_none_iff.1 last') (List.cons_ne_nil c u)
      | some d =>
        rw [last', Option.some_or] at last_eq
        obtain rfl := Option.some.inj last_eq
        exact letter

theorem isPhrase_body (tail : t.IsTail) (filled : t ≠ []) : IsPhrase (body t) := by
  obtain ⟨⟨c, rest, starts, letter⟩, stops⟩ := exists_ends_of_isTail tail filled
  refine ⟨fun d mem => ?_, ?_, any_visible stops⟩
  · exact Text.isSpecial_of_isWordChar (tail.chars d ((List.dropWhile_suffix _).subset mem))
  · rw [starts]
    exact any_visible (show (some c).any Char.isAlpha = true from letter)

theorem isQuiet_of_isTail (tail : t.IsTail) (filled : t ≠ []) : IsQuiet t := by
  obtain ⟨⟨c, rest, starts, letter⟩, -⟩ := exists_ends_of_isTail tail filled
  refine isQuiet_of_head? (c := c) ?_ (Text.isOpener_of_isAlpha letter)
  have parts : t.takeWhile isIndent ++ body t = t := List.takeWhile_append_dropWhile
  rw [← parts, Text.trimStart, List.dropWhile_append_of_pos, starts, List.dropWhile_cons_of_neg]
  · rfl
  · rw [isBlankChar_of_isAlpha letter]
    exact Bool.false_ne_true
  · exact fun d mem => isBlankChar_of_isIndent (List.all_eq_true.1 List.all_takeWhile d mem)

theorem isGap_or_isLine_wordRow (tail : t.IsTail) : (wordRow t).IsGap ∨ (wordRow t).IsLine := by
  by_cases empty : t = []
  · subst empty
    exact .inl ⟨rfl, rfl⟩
  · have phrase := isPhrase_body tail empty
    have content : (wordRow t).2 = Inline.plain (body t) := texts_eq_plain phrase.ne_nil
    refine .inr ⟨isQuiet_of_isTail tail empty, ?_, ?_⟩
    · rw [content]
      exact Inline.sentence_of_phrase phrase
    · rw [content]
      rfl

theorem isPlain_wordRow (tail : t.IsTail) : (wordRow t).IsPlain := by
  intro content
  have filled : t ≠ [] := by
    rintro rfl
    exact content rfl
  have phrase := isPhrase_body tail filled
  exact ⟨phrase, texts_eq_plain phrase.ne_nil⟩

/-- Lines of words around a row. -/
theorem rows_around {ts ts' : List Text} {p : Row} (tails : ∀ t ∈ ts, t.IsTail)
    (tails' : ∀ t ∈ ts', t.IsTail) (row : p.IsGap ∨ p.IsLine) :
    Rows (ts.map wordRow ++ p :: ts'.map wordRow) where
  each := by
    simp only [List.forall_mem_append, List.forall_mem_cons, List.forall_mem_map]
    exact ⟨fun t mem => isGap_or_isLine_wordRow (tails t mem), row,
      fun t mem => isGap_or_isLine_wordRow (tails' t mem)⟩
  single := by
    have plain : ∀ p ∈ ts.map wordRow, p.IsPlain := List.forall_mem_map.2 fun t mem =>
      isPlain_wordRow (tails t mem)
    have plain' : ∀ p ∈ ts'.map wordRow, p.IsPlain := List.forall_mem_map.2 fun t mem =>
      isPlain_wordRow (tails' t mem)
    rw [List.pairwise_append, List.pairwise_cons]
    refine ⟨?_, ⟨fun q mem => .inr (plain' q mem), ?_⟩, fun q mem _ _ => .inl (plain q mem)⟩
    · exact List.pairwise_of_forall_mem_list fun q mem _ _ => .inl (plain q mem)
    · exact List.pairwise_of_forall_mem_list fun q mem _ _ => .inl (plain' q mem)

/-- Lines of words are rows. -/
theorem rows_of_words {ts : List Text} (tails : ∀ t ∈ ts, t.IsTail) : Rows (ts.map wordRow) :=
  .of_isPlain (List.forall_mem_map.2 fun t mem => isGap_or_isLine_wordRow (tails t mem))
    (List.forall_mem_map.2 fun t mem => isPlain_wordRow (tails t mem))

end WordRow

end Folio
