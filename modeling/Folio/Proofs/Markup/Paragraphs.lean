import Folio.Proofs.Markup.Reading
import Folio.Proofs.Markup.Styles

/-!
# Reading paragraphs line by line

The content of a paragraph is the content of its lines with soft breaks between, as long as every
line is plain text but for one. Main statements:

* `Inline.Sentence`: a line and its content;
* `Inline.read_lines`: lines of plain text around a sentence.
-/

namespace Folio

/-- Pieces with a separator between, as the pieces around one of them. -/
theorem intercalate_append_cons {α : Type} (sep : α) (before : List (List α)) (x : List α)
    (after : List (List α)) :
    [sep].intercalate (before ++ x :: after) =
      before.flatMap (· ++ [sep]) ++ (x ++ after.flatMap (sep :: ·)) := by
  induction before with
  | nil =>
    induction after generalizing x with
    | nil => simp
    | cons y after ih =>
      simp only [List.nil_append] at ih ⊢
      rw [List.intercalate_cons_cons, ih]
      simp
  | cons y before ih =>
    obtain ⟨z, zs, eq⟩ : ∃ z zs, before ++ x :: after = z :: zs := by
      cases before <;> exact ⟨_, _, rfl⟩
    rw [List.cons_append, eq, List.intercalate_cons_cons, ← eq, ih]
    simp

namespace Inline

open Style (IsPhrase)

variable {r : Region} {st : State} {before last : Option Char} {t rest : Text} {ts : List Text}
  {c : List Inline} {out : Reversed}

/-- Content that plain text is not added to. -/
def Reversed.IsClosed (out : Reversed) : Prop := ∀ value rest, out ≠ .text value :: rest

theorem Reversed.IsClosed.addText_eq (closed : out.IsClosed) (filled : t ≠ []) :
    out.addText t = .text (String.ofList t) :: out := by
  unfold addText
  rw [if_neg (by simpa using filled)]
  split
  · exact absurd rfl (closed _ _)
  · rfl

/-- A text as content. -/
def plain (t : Text) : List Inline := [.text (String.ofList t)]

theorem visible_iff {o : Option Char} :
    o.any (!Text.isBlankChar ·) = true ↔ ∃ c, o = some c ∧ Text.isBlankChar c = false := by
  simp [Option.any_eq_true]

theorem isTight_of_phrase (phrase : IsPhrase t) (out : Reversed) :
    Reversed.IsTight (.text (String.ofList t) :: out) := by
  rintro value rest ⟨⟩
  obtain ⟨c, last, visible⟩ := visible_iff.1 phrase.stops
  refine ⟨c, by rw [String.toList_ofList, last], ?_⟩
  by_contra indent
  rw [Bool.not_eq_false] at indent
  rw [isBlankChar_of_isIndent indent] at visible
  cases visible

/-- Content that does not start with white space. -/
def IsFresh (content : List Inline) : Prop :=
  ∀ value rest, content = .text value :: rest →
    ∃ c, value.toList.head? = some c ∧ Text.isBlankChar c = false

theorem isFresh_of_phrase (phrase : IsPhrase t) (content : List Inline) :
    IsFresh (.text (String.ofList t) :: content) := by
  rintro value rest ⟨⟩
  obtain ⟨c, first, visible⟩ := visible_iff.1 phrase.starts
  exact ⟨c, by rw [String.toList_ofList, first], visible⟩

theorem IsFresh.append (fresh : IsFresh c) (ne : c ≠ []) (more : List Inline) :
    IsFresh (c ++ more) := by
  obtain ⟨i, is, rfl⟩ := List.exists_cons_of_ne_nil ne
  intro value rest eq
  obtain ⟨rfl, -⟩ := List.cons.inj eq
  exact fresh value is rfl

theorem IsFresh.trimStart_eq {content : List Inline} (fresh : IsFresh content) :
    trimStart content = content := by
  unfold trimStart
  split
  · rename_i value rest
    obtain ⟨c, first, visible⟩ := fresh value rest rfl
    obtain ⟨more, value_eq⟩ := List.head?_eq_some_iff.1 first
    have kept : Text.trimStart value.toList = value.toList := by
      rw [Text.trimStart, value_eq,
        List.dropWhile_cons_of_neg (by rw [visible]; exact Bool.false_ne_true)]
    have filled : value.toList.isEmpty = false := by rw [value_eq]; rfl
    dsimp only
    rw [kept, filled, String.ofList_toList]
    rfl
  · rfl

/-! ### Lines -/

/-- What may follow a line in its paragraph. -/
def IsAfter (rest : Text) : Prop := rest = [] ∨ rest.head? = some '\n'

theorem IsAfter.special (h : IsAfter rest) : rest.head?.all Token.isSpecial = true := by
  obtain rfl | next := h
  · rfl
  · rw [next]
    rfl

theorem isAfter_flatMap (ts : List Text) : IsAfter (ts.flatMap ('\n' :: ·)) := by
  cases ts with
  | nil => exact .inl rfl
  | cons t ts => exact .inr rfl

/-- A line of plain text. -/
theorem leads_phrase (phrase : IsPhrase t) (after : IsAfter rest) (closed : st.out.IsClosed) :
    Leads r st before t rest { st with out := (plain t).reverse ++ st.out } t.getLast? := by
  have read : Leads r st before t rest (st.addText t) t.getLast? :=
    leads_text phrase.ne_nil phrase.plain after.special
  rw [State.addText, closed.addText_eq phrase.ne_nil] at read
  exact read

/-- Lines of plain text after another one. -/
theorem exists_leads_after (phrases : ∀ t ∈ ts, IsPhrase t) (after : IsAfter rest)
    (tight : st.out.IsTight) :
    ∃ last, Leads r st before (ts.flatMap ('\n' :: ·)) rest
      { st with out := (ts.flatMap fun t => .softBreak :: plain t).reverse ++ st.out } last := by
  induction ts generalizing st before with
  | nil => exact ⟨before, fun _ => rfl⟩
  | cons t ts ih =>
    rw [List.forall_mem_cons] at phrases
    have follows : IsAfter (ts.flatMap ('\n' :: ·) ++ rest) := by
      cases ts with
      | nil => exact after
      | cons u ts => exact .inr rfl
    have ended : Leads r st before ['\n'] (t ++ ts.flatMap ('\n' :: ·) ++ rest)
        { st with out := .softBreak :: st.out } (some '\n') := leads_eol tight
    have read : Leads r { st with out := .softBreak :: st.out } (some '\n') t
        (ts.flatMap ('\n' :: ·) ++ rest)
        { st with out := (plain t).reverse ++ .softBreak :: st.out } t.getLast? :=
      leads_phrase phrases.1 follows fun _ _ => nofun
    have tight' : Reversed.IsTight ((plain t).reverse ++ .softBreak :: st.out) :=
      isTight_of_phrase phrases.1 _
    obtain ⟨last, more⟩ : ∃ last, Leads r { st with out := (plain t).reverse ++ .softBreak :: st.out }
        t.getLast? (ts.flatMap ('\n' :: ·)) rest _ last := ih phrases.2 tight'
    refine ⟨last, ?_⟩
    simpa [plain] using ended.trans (read.trans more)

/-- Lines of plain text before another one. -/
theorem exists_leads_before (phrases : ∀ t ∈ ts, IsPhrase t) (closed : st.out.IsClosed) :
    ∃ last, Leads r st before (ts.flatMap (· ++ ['\n'])) rest
      { st with out := (ts.flatMap fun t => plain t ++ [.softBreak]).reverse ++ st.out } last := by
  induction ts generalizing st before with
  | nil => exact ⟨before, fun _ => rfl⟩
  | cons t ts ih =>
    rw [List.forall_mem_cons] at phrases
    have read : Leads r st before t ('\n' :: ts.flatMap (· ++ ['\n']) ++ rest)
        { st with out := (plain t).reverse ++ st.out } t.getLast? :=
      leads_phrase phrases.1 (.inr rfl) closed
    have ended : Leads r { st with out := (plain t).reverse ++ st.out } t.getLast? ['\n']
        (ts.flatMap (· ++ ['\n']) ++ rest)
        { st with out := .softBreak :: ((plain t).reverse ++ st.out) } (some '\n') :=
      leads_eol (isTight_of_phrase phrases.1 _)
    have closed' : Reversed.IsClosed (.softBreak :: ((plain t).reverse ++ st.out)) :=
      fun _ _ => nofun
    obtain ⟨last, more⟩ : ∃ last,
        Leads r { st with out := .softBreak :: ((plain t).reverse ++ st.out) } (some '\n')
          (ts.flatMap (· ++ ['\n'])) rest _ last := ih phrases.2 closed'
    refine ⟨last, ?_⟩
    simpa [plain] using read.trans (ended.trans more)

/-- A line and its content, whatever plain text surrounds it in its paragraph. -/
structure Sentence (t : Text) (c : List Inline) : Prop where
  ne_nil : c ≠ []
  fresh : IsFresh c
  tight : ∀ out : Reversed, Reversed.IsTight (c.reverse ++ out)
  leads : ∀ (r : Region) (out : Reversed) (before : Option Char) (ts : List Text),
    (∀ t ∈ ts, IsPhrase t) → out.IsClosed →
      ∃ st last, Leads r { frames := [], out } before t (ts.flatMap ('\n' :: ·)) st last ∧
        st.out.IsTight ∧ State.unwind st.out st.frames = c.reverse ++ out

theorem sentence_of_phrase (phrase : IsPhrase t) : Sentence t (plain t) where
  ne_nil := List.cons_ne_nil _ _
  fresh := isFresh_of_phrase phrase []
  tight out := isTight_of_phrase phrase out
  leads _ out _ ts _ closed :=
    ⟨_, _, leads_phrase phrase (isAfter_flatMap ts) closed, isTight_of_phrase phrase out, rfl⟩

/-- **Lines of plain text around a sentence** make up a paragraph with soft breaks between. -/
theorem read_lines {ts' : List Text} (sentence : Sentence t c) (phrases : ∀ t ∈ ts, IsPhrase t)
    (phrases' : ∀ t ∈ ts', IsPhrase t) (text : r.text = ['\n'].intercalate (ts ++ t :: ts')) :
    read r = .ok ([.softBreak].intercalate (ts.map plain ++ c :: ts'.map plain)) := by
  let start : State := { frames := [], out := [] }
  let earlier : Reversed := (ts.flatMap fun t => plain t ++ [.softBreak]).reverse
  have closed : earlier.IsClosed := by
    intro value rest
    cases ts using List.reverseRecOn with
    | nil => nofun
    | append_singleton ts u =>
      simp only [earlier, List.flatMap_append, List.reverse_append]
      nofun
  obtain ⟨last, first⟩ : ∃ last, Leads r start none (ts.flatMap (· ++ ['\n']))
      (t ++ ts'.flatMap ('\n' :: ·)) { frames := [], out := earlier ++ [] } last :=
    exists_leads_before phrases fun _ _ => nofun
  rw [List.append_nil] at first
  obtain ⟨st, last', line, tight, unwound⟩ := sentence.leads r earlier last ts' phrases' closed
  obtain ⟨last'', later⟩ : ∃ last, Leads r st last' (ts'.flatMap ('\n' :: ·)) []
      { st with out := (ts'.flatMap fun t => .softBreak :: plain t).reverse ++ st.out } last :=
    exists_leads_after phrases' (.inl rfl) tight
  let content : List Inline := [.softBreak].intercalate (ts.map plain ++ c :: ts'.map plain)
  have content_eq : (ts'.flatMap fun t => .softBreak :: plain t).reverse ++
      (c.reverse ++ earlier) = content.reverse := by
    simp [content, intercalate_append_cons, earlier, List.flatMap_map]
  have done : run r start none 0 r.text = .ok content.reverse := by
    rw [text, intercalate_append_cons, first, line, ← List.append_nil (ts'.flatMap _), later, run_nil,
      State.unwind_append, unwound, content_eq]
  have ends : Reversed.IsTight content.reverse := by
    rw [← content_eq]
    cases ts' using List.reverseRecOn with
    | nil => exact sentence.tight earlier
    | append_singleton ts' u =>
      rw [List.flatMap_append, List.reverse_append, List.append_assoc]
      exact isTight_of_phrase (phrases' u (by simp)) _
  have starts : IsFresh content := by
    simp only [content, intercalate_append_cons]
    cases ts with
    | nil => exact sentence.fresh.append sentence.ne_nil _
    | cons u ts => exact isFresh_of_phrase (phrases u List.mem_cons_self) _
  rw [read_eq_run, done, Except.map, ends.trimEnd_eq, List.reverse_reverse, starts.trimStart_eq]

end Inline
end Folio
