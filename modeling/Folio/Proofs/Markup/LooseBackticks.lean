import Folio.Proofs.Markup.Emphasized
import Folio.Proofs.Markup.Snippets

/-!
# Backticks that nothing closes

Three backticks at the end of a line of words are no fence, and no code when no line after them in the
paragraph holds a backtick. They are read as text.
-/

namespace Folio

open Inline (Leads Sentence State Reversed IsAfter)
open Style (IsPhrase)

theorem Lexeme.text_subset {resume at_ : Nat} {before : Option Char} {s : Text} {t : Lexeme}
    (mem : t ∈ readFrom resume before at_ s) : t.text ⊆ s := by
  induction s generalizing resume before at_ with
  | nil => cases mem
  | cons c s ih =>
    rw [readFrom] at mem
    split at mem
    · exact List.subset_cons_of_subset c (ih mem)
    · rcases List.mem_cons.1 mem with rfl | mem
      · exact List.cons_subset_cons c (List.take_subset _ s)
      · exact List.subset_cons_of_subset c (ih mem)

theorem Lexeme.text_ne_nil {resume at_ : Nat} {before : Option Char} {s : Text} {t : Lexeme}
    (mem : t ∈ readFrom resume before at_ s) : t.text ≠ [] := by
  induction s generalizing resume before at_ with
  | nil => cases mem
  | cons c s ih =>
    rw [readFrom] at mem
    split at mem
    · exact ih mem
    · rcases List.mem_cons.1 mem with rfl | mem
      · exact List.cons_ne_nil _ _
      · exact ih mem

/-- A text without backticks holds no token of them. -/
theorem Lexeme.token_ne_backticks {resume at_ n : Nat} {before : Option Char} {s : Text} {t : Lexeme}
    (absent : '\x60' ∉ s) (mem : t ∈ readFrom resume before at_ s) : t.token ≠ .backticks n := by
  intro kind
  have spelled := spelled_of_mem_readFrom mem
  rw [kind] at spelled
  obtain ⟨c, among⟩ := List.exists_mem_of_ne_nil _ (text_ne_nil mem)
  obtain rfl := spelled c among
  exact absent (text_subset mem among)

section Loose

variable {r : Region} {st : State} {before : Option Char} {b rest : Text}

/-- Backticks before a text without backticks are text. -/
theorem leads_backticks (frames : st.frames = []) (absent : '\x60' ∉ rest) :
    Leads r st before backticks rest (st.addText backticks) (some '\x60') := by
  intro at_
  have run : rest.takeWhile (· == '\x60') = [] := by
    cases rest with
    | nil => rfl
    | cons c rest =>
      refine List.takeWhile_cons_of_neg ?_
      rw [beq_iff_eq]
      rintro rfl
      exact absent List.mem_cons_self
  have read : Token.read '\x60' (['\x60', '\x60'] ++ rest) = (.backticks 3, 2) := by
    simp [Token.read, run]
  have others : ∀ ts : List Lexeme, (∀ t ∈ ts, t.token ≠ .backticks 3) →
      ts.drop (ts.takeWhile (·.token != .backticks 3)).length = [] := by
    intro ts none
    rw [List.takeWhile_eq_self_iff.2 fun t mem => by simpa using none t mem, List.drop_length]
  refine Inline.run_cons read ?_
  rw [Inline.next_eq_take (by rw [frames]; nofun), Inline.take]
  dsimp only
  rw [others _ fun t mem => Lexeme.token_ne_backticks absent mem]
  rfl

theorem getLast?_backticks : (b ++ backticks).getLast? = some '\x60' := by
  rw [List.getLast?_append]
  rfl

theorem sentence_backticks (starts : b.head?.any Char.isAlpha = true)
    (chars : ∀ c ∈ b, Text.isWordChar c = true) :
    Sentence (b ++ backticks) (Inline.plain (b ++ backticks)) where
  ne_nil := List.cons_ne_nil _ _
  fresh := by
    obtain ⟨c, first, letter⟩ := (Option.any_eq_true _ _).1 starts
    have first' : (b ++ backticks).head? = some c := by rw [List.head?_append, first, Option.some_or]
    exact Style.isFresh_of_first first' (Text.isBlankChar_of_isAlpha letter) []
  tight := Style.isTight_of_last getLast?_backticks rfl
  leads := by
    intro r out before ts phrases closed
    have filled : b ++ backticks ≠ [] := List.append_ne_nil_of_right_ne_nil b (by decide)
    have absent : '\x60' ∉ ts.flatMap ('\n' :: ·) := by
      intro mem
      obtain ⟨t, among, mem⟩ := List.mem_flatMap.1 mem
      rcases List.mem_cons.1 mem with eol | mem
      · cases eol
      · exact absurd ((phrases t among).plain _ mem) (by decide)
    obtain ⟨last, first⟩ : ∃ last, Leads r { frames := [], out } before b
        (backticks ++ ts.flatMap ('\n' :: ·)) _ last :=
      Style.exists_leads_text (fun c mem => Text.isSpecial_of_isWordChar (chars c mem)) rfl
    refine ⟨_, _, first.trans (leads_backticks rfl absent), ?_, ?_⟩
    · show Reversed.IsTight ((Reversed.addText out b).addText backticks)
      rw [Style.addText_addText, closed.addText_eq filled]
      exact Style.isTight_of_last getLast?_backticks rfl out
    · show (Reversed.addText out b).addText backticks = _
      rw [Style.addText_addText, closed.addText_eq filled]
      rfl

theorem isLine_backticks (starts : b.head?.any Char.isAlpha = true)
    (chars : ∀ c ∈ b, Text.isWordChar c = true) :
    Row.IsLine (b ++ backticks, Inline.plain (b ++ backticks)) := by
  obtain ⟨c, first, letter⟩ := (Option.any_eq_true _ _).1 starts
  obtain ⟨more, rfl⟩ := List.head?_eq_some_iff.1 first
  have visible : Text.isBlankChar c = false := Text.isBlankChar_of_isAlpha letter
  have flush : body (c :: more ++ backticks) = c :: more ++ backticks :=
    body_of_visible (any_visible (show (some c).any Char.isAlpha = true from letter))
  refine ⟨isQuiet_of_head? (c := c) ?_ (Text.isOpener_of_isAlpha letter), ?_, rfl⟩
  · rw [Text.trimStart, List.cons_append, List.dropWhile_cons_of_neg (by simp [visible])]
    rfl
  · show Sentence (body (c :: more ++ backticks)) _
    rw [flush]
    exact sentence_backticks starts chars

end Loose

end Folio
