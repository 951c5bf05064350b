import Folio.Proofs.Markup.Words

/-!
# Lines with emphasis

What a line of words says when a part of it is put between marks.

* `Style.sentence_wrapped`: marks one inside the other, of which neighbours differ in their
  characters, are read to content of one kind inside the other;
* `Style.sentence_stars` and `Style.sentence_tildes`: stars directly inside stars are read
  differently, and lose one kind of emphasis;
* `Style.isLine_framed` brings these together for every sequence of marks without repetition.
-/

namespace Folio

open Inline (Sentence State Leads Reversed IsAfter IsFresh)
open Text (isWordChar isBlankChar)

namespace Style

/-- A line of words as a part that starts and ends with a letter, and what comes before and after. -/
structure IsPicked (b s a : Text) : Prop where
  words : (b ++ (s ++ a)).IsWords
  starts : s.head?.any Char.isAlpha = true
  stops : s.getLast?.any Char.isAlpha = true

variable {x : Style} {r : Region} {st : State} {before last : Option Char} {b s a t rest : Text}
  {xs : List Style} {ts : List Text} {out : Reversed} {c : List Inline}

namespace IsPicked

variable (h : IsPicked b s a)

include h

theorem chars_before : ∀ c ∈ b, isWordChar c = true := fun c mem =>
  h.words.isWordChar c (List.mem_append_left _ mem)

theorem chars : ∀ c ∈ s, isWordChar c = true := fun c mem =>
  h.words.isWordChar c (List.mem_append_right _ (List.mem_append_left _ mem))

theorem phrase : IsPhrase s :=
  ⟨fun c mem => Text.isSpecial_of_isWordChar (h.chars c mem), any_visible h.starts,
    any_visible h.stops⟩

theorem plain_before : ∀ c ∈ b, Token.isSpecial c = false := fun c mem =>
  Text.isSpecial_of_isWordChar (h.chars_before c mem)

theorem tail_after : a.IsTail :=
  h.words.isTail.of_suffix ((List.suffix_append s a).trans (List.suffix_append b _))

theorem plain_after : ∀ c ∈ a, Token.isSpecial c = false := fun c mem =>
  Text.isSpecial_of_isWordChar (h.tail_after.chars c mem)

theorem head?_before : b.head?.all Char.isAlpha = true := by
  have starts := h.words.starts
  cases b with
  | nil => rfl
  | cons c b => exact starts

end IsPicked

/-! ### No mark closes in plain text -/

theorem closes_lines {at_ : Nat} (phrases : ∀ t ∈ ts, IsPhrase t) :
    x.closes before at_ (ts.flatMap ('\n' :: ·)) = false := by
  induction ts generalizing before at_ with
  | nil => rfl
  | cons t ts ih =>
    rw [List.forall_mem_cons] at phrases
    rw [List.flatMap_cons, List.cons_append, closes_eol,
      closes_text phrases.1.ne_nil phrases.1.plain (Inline.isAfter_flatMap ts).special]
    exact ih phrases.2

theorem closes_after {at_ : Nat} (plain : ∀ c ∈ a, Token.isSpecial c = false)
    (phrases : ∀ t ∈ ts, IsPhrase t) :
    x.closes before at_ (a ++ ts.flatMap ('\n' :: ·)) = false := by
  by_cases empty : a = []
  · rw [empty, List.nil_append]
    exact closes_lines phrases
  · rw [closes_text empty plain (Inline.isAfter_flatMap ts).special]
    exact closes_lines phrases

theorem head?_ne_star (plain : ∀ c ∈ a, Token.isSpecial c = false) (ts : List Text) :
    (a ++ ts.flatMap ('\n' :: ·)).head? ≠ some '*' := by
  intro star
  cases a with
  | nil =>
    cases ts with
    | nil => cases star
    | cons t ts => cases star
  | cons c a =>
    cases star
    exact absurd (plain '*' List.mem_cons_self) (by decide)

/-! ### Plain text before and after marks -/

theorem addText_addText (out : Reversed) (u v : Text) :
    (out.addText u).addText v = out.addText (u ++ v) := by
  by_cases empty : u = []
  · subst empty
    rfl
  · have filled : (u ++ v).isEmpty = false := by simp [empty]
    have filled' : u.isEmpty = false := by simp [empty]
    unfold Reversed.addText
    rw [filled, filled']
    cases out with
    | nil => cases v <;> simp
    | cons i out => cases v <;> cases i <;> simp [String.append_assoc]

theorem addText_eq_texts (closed : out.IsClosed) (t : Text) :
    out.addText t = (texts t).reverse ++ out := by
  by_cases empty : t = []
  · subst empty
    rfl
  · rw [closed.addText_eq empty, texts, if_neg empty]
    rfl

theorem exists_leads_text (plain : ∀ c ∈ t, Token.isSpecial c = false)
    (next : rest.head?.all Token.isSpecial = true) :
    ∃ last, Leads r st before t rest (st.addText t) last := by
  by_cases empty : t = []
  · subst empty
    exact ⟨before, fun _ => rfl⟩
  · exact ⟨t.getLast?, Inline.leads_text empty plain next⟩

theorem isTight_of_last {value : Text} {d : Char} (last : value.getLast? = some d)
    (visible : isIndent d = false) (out : Reversed) :
    Reversed.IsTight (.text (String.ofList value) :: out) := by
  rintro text rest ⟨⟩
  exact ⟨d, by rw [String.toList_ofList, last], visible⟩

theorem isFresh_of_first {value : Text} {d : Char} (first : value.head? = some d)
    (visible : isBlankChar d = false) (more : List Inline) :
    IsFresh (.text (String.ofList value) :: more) := by
  rintro text rest ⟨⟩
  exact ⟨d, by rw [String.toList_ofList, first], visible⟩

theorem isTight_texts (stops : a.getLast?.all Char.isAlpha = true) (closed : out.IsClosed) :
    Reversed.IsTight ((texts a).reverse ++ out) := by
  by_cases empty : a = []
  · subst empty
    exact fun value rest eq => absurd eq (closed value rest)
  · rw [texts, if_neg empty]
    have last := List.getLast?_eq_some_getLast empty
    rw [last] at stops
    exact isTight_of_last last (Text.isIndent_of_isAlpha stops) out

theorem isFresh_texts (starts : b.head?.all Char.isAlpha = true) {i : Inline}
    (marked : ∀ value, i ≠ .text value) (more : List Inline) : IsFresh (texts b ++ i :: more) := by
  cases b with
  | nil =>
    rintro value rest eq
    exact absurd (List.cons.inj eq).1 (marked value)
  | cons d b => exact isFresh_of_first rfl (Text.isBlankChar_of_isAlpha starts) _

/-- Text before a mark starts with a letter, if at all. -/
theorem isFresh_marked (starts : b.head?.all Char.isAlpha = true) (x : Style)
    (more : List Inline) : IsFresh (.text (String.ofList (b ++ x.mark)) :: more) := by
  cases b with
  | nil => cases x <;> exact isFresh_of_first rfl rfl _
  | cons d b => exact isFresh_of_first rfl (Text.isBlankChar_of_isAlpha starts) _

/-- A line that ends in plain text, when it is known how the line is read up to there. -/
theorem sentence_of_leads (tail : a.IsTail) (ne_nil : c ≠ []) (fresh : IsFresh c)
    (tight : ∀ out : Reversed, Reversed.IsTight (c.reverse ++ out))
    (leads : ∀ (r : Region) (out : Reversed) (before : Option Char) (ts : List Text),
      (∀ t ∈ ts, IsPhrase t) → out.IsClosed →
        ∃ st last, Leads r { frames := [], out } before t (a ++ ts.flatMap ('\n' :: ·)) st last ∧
          (st.out.addText a).IsTight ∧
          State.unwind (st.out.addText a) st.frames = c.reverse ++ out) :
    Sentence (t ++ a) c where
  ne_nil := ne_nil
  fresh := fresh
  tight := tight
  leads := by
    intro r out before ts phrases closed
    obtain ⟨st, last, line, tight, unwound⟩ := leads r out before ts phrases closed
    obtain ⟨last', after⟩ : ∃ last', Leads r st last a (ts.flatMap ('\n' :: ·)) (st.addText a) last' :=
      exists_leads_text (fun c mem => Text.isSpecial_of_isWordChar (tail.chars c mem))
        (Inline.isAfter_flatMap ts).special
    exact ⟨_, _, line.trans after, tight, unwound⟩

/-! ### Marks in a line -/

theorem wrapped_ne_text (filled : xs ≠ []) (s : Text) (value : String) :
    wrapped xs s ≠ .text value := by
  cases xs with
  | nil => contradiction
  | cons x xs => cases x <;> nofun

theorem isClosed_of_ne {i : Inline} (marked : ∀ value, i ≠ .text value) (out : Reversed) :
    Reversed.IsClosed (i :: out) := fun value _ eq => marked value (List.cons.inj eq).1

/-- A part between marks of which neighbours differ in their characters. -/
theorem sentence_wrapped (h : IsPicked b s a) (filled : xs ≠ []) (apart : Apart xs) :
    Sentence (b ++ marked xs s ++ a) (texts b ++ wrapped xs s :: texts a) := by
  have closed : ∀ out : Reversed, Reversed.IsClosed (wrapped xs s :: out) :=
    isClosed_of_ne (wrapped_ne_text filled s)
  have content : ∀ out : Reversed, (texts b ++ wrapped xs s :: texts a).reverse ++ out =
      (texts a).reverse ++ (wrapped xs s :: ((texts b).reverse ++ out)) := by simp
  refine sentence_of_leads h.tail_after (by simp)
    (isFresh_texts h.head?_before (wrapped_ne_text filled s) _) (fun out => ?_) ?_
  · rw [content]
    exact isTight_texts h.tail_after.stops (closed _)
  · intro r out before ts phrases out_closed
    have special : (marked xs s ++ (a ++ ts.flatMap ('\n' :: ·))).head?.all Token.isSpecial = true := by
      cases xs with
      | nil => contradiction
      | cons x xs =>
        rw [marked, List.append_assoc]
        exact special_mark_head x _
    obtain ⟨last, first⟩ : ∃ last, Leads r { frames := [], out } before b
        (marked xs s ++ (a ++ ts.flatMap ('\n' :: ·))) _ last :=
      exists_leads_text h.plain_before special
    have meets : Meets xs (a ++ ts.flatMap ('\n' :: ·)) := by
      cases xs with
      | nil => contradiction
      | cons x xs => exact fun _ => head?_ne_star h.plain_after ts
    have second : Leads r (State.addText { frames := [], out } b) last (marked xs s)
        (a ++ ts.flatMap ('\n' :: ·)) _ _ :=
      leads_marked h.phrase apart meets (fun empty => absurd empty filled)
        fun _ mem => absurd mem (Option.not_mem_none _)
    refine ⟨_, _, first.trans second, ?_, ?_⟩
    · rw [State.add, addText_eq_texts (closed _)]
      exact isTight_texts h.tail_after.stops (closed _)
    · rw [State.add, addText_eq_texts (closed _), content, State.addText,
        addText_eq_texts out_closed]
      rfl

theorem isClosed_starred (inner : List Style) (s : Text) (out : Reversed) :
    Reversed.IsClosed (starred inner s :: out) :=
  isClosed_of_ne (fun _ eq => by cases eq) out

/-- Three stars are emphasis with stars before and in it. -/
theorem sentence_stars {inner : List Style} (h : IsPicked b s a)
    (apart : Apart (emphasis :: inner)) :
    Sentence (b ++ stars inner s ++ a)
      (.text (String.ofList (b ++ strong.mark)) :: starred inner s :: texts a) := by
  have content : ∀ out : Reversed,
      (.text (String.ofList (b ++ strong.mark)) :: starred inner s :: texts a).reverse ++ out =
        (texts a).reverse ++ (starred inner s :: .text (String.ofList (b ++ strong.mark)) :: out) := by
    simp
  refine sentence_of_leads h.tail_after (by simp) (isFresh_marked h.head?_before strong _)
    (fun out => ?_) ?_
  · rw [content]
    exact isTight_texts h.tail_after.stops (isClosed_starred inner s _)
  · intro r out before ts phrases out_closed
    let start : State := { frames := [], out := out.addText b }
    obtain ⟨last, first⟩ : ∃ last, Leads r { frames := [], out } before b
        (stars inner s ++ (a ++ ts.flatMap ('\n' :: ·))) start last :=
      exists_leads_text h.plain_before rfl
    have second : Leads r start last (stars inner s) (a ++ ts.flatMap ('\n' :: ·))
        { frames := [⟨strong.stop, strong.mark, out.addText b⟩], out := [starred inner s] }
        emphasis.mark.getLast? :=
      leads_stars h.phrase apart (head?_ne_star h.plain_after ts)
        (fun _ _ => closes_after h.plain_after phrases) nofun
    refine ⟨_, _, first.trans second, ?_, ?_⟩
    · rw [addText_eq_texts (isClosed_starred inner s [])]
      exact isTight_texts h.tail_after.stops (isClosed_starred inner s [])
    · have opener : (out.addText b).addText strong.mark =
          .text (String.ofList (b ++ strong.mark)) :: out := by
        rw [addText_addText, out_closed.addText_eq (by cases b <;> nofun)]
      rw [addText_eq_texts (isClosed_starred inner s []), content, State.unwind, State.unwind,
        opener, List.append_assoc]
      rfl

theorem closes_stars {at_ : Nat} (word : IsPhrase s)
    (later : ∀ last at_, last.any (!isBlankChar ·) = true → strikethrough.closes last at_ rest = true)
    (whole : rest.head? ≠ some '*') : strikethrough.closes before at_ (stars [] s ++ rest) = true := by
  have ends : ∀ rest, strong.Ends rest := fun _ => nofun
  have apart : Apart [emphasis] := .singleton _
  have special : (strong.mark ++ (emphasis.mark ++ rest)).head?.all Token.isSpecial = true := rfl
  rw [stars]
  simp only [List.append_assoc]
  rw [closes_mark (ends _), closes_mark (ends_marked word apart _), marked,
    closes_text word.ne_nil word.plain special, closes_mark (ends _), closes_mark fun _ => whole,
    later _ _ (visible_mark_last emphasis)]
  rfl

/-- No white space ends the text that tildes and what comes after a selection make. -/
theorem isTight_tildes (h : IsPicked b s a) (out : Reversed) :
    Reversed.IsTight (.text (String.ofList (strikethrough.mark ++ a)) :: out) := by
  cases last : a.getLast? with
  | none =>
    rw [List.getLast?_eq_none_iff.1 last]
    exact isTight_of_last (d := '~') rfl rfl out
  | some d =>
    have letter : d.isAlpha = true := by
      have stops := h.tail_after.stops
      rwa [last] at stops
    refine isTight_of_last (d := d) ?_ (Text.isIndent_of_isAlpha letter) out
    rw [List.getLast?_append, last, Option.some_or]

/-- Three stars between tildes: neither the tildes nor two of the stars find their other side. -/
theorem sentence_tildes (h : IsPicked b s a) :
    Sentence (b ++ (strikethrough.mark ++ (stars [] s ++ strikethrough.mark)) ++ a)
      [.text (String.ofList (b ++ strikethrough.mark)), .text (String.ofList strong.mark),
        starred [] s, .text (String.ofList (strikethrough.mark ++ a))] := by
  refine sentence_of_leads h.tail_after (by simp) (isFresh_marked h.head?_before strikethrough _)
    (fun _ => isTight_tildes h _) ?_
  intro r out before ts phrases out_closed
  -- the line from its first tildes on
  let rest : Text := a ++ ts.flatMap ('\n' :: ·)
  have ends : ∀ rest, strikethrough.Ends rest := fun _ => nofun
  have single : ∀ x : Style, ∀ last at_, x.closes last at_ rest = false := fun x _ _ =>
    closes_after h.plain_after phrases
  obtain ⟨last, first⟩ : ∃ last, Leads r { frames := [], out } before b
      ((strikethrough.mark ++ (stars [] s ++ strikethrough.mark)) ++ rest)
      { frames := [], out := out.addText b } last := exists_leads_text h.plain_before rfl
  let start : State := { frames := [], out := out.addText b }
  have opens : Leads r start last strikethrough.mark ((stars [] s ++ strikethrough.mark) ++ rest)
      (start.push strikethrough.stop strikethrough.mark) strikethrough.mark.getLast? := by
    refine leads_open (ends _) rfl nofun fun at_ => ?_
    rw [List.append_assoc]
    refine closes_stars h.phrase (fun last at_ visible => closes_own (ends _) visible) ?_
    nofun
  let frame : Inline.Frame := ⟨strikethrough.stop, strikethrough.mark, out.addText b⟩
  have inside : Leads r { frames := [frame], out := [] } strikethrough.mark.getLast? (stars [] s)
      (strikethrough.mark ++ rest)
      { frames := [⟨strong.stop, strong.mark, []⟩, frame], out := [starred [] s] }
      emphasis.mark.getLast? := by
    refine leads_stars h.phrase (.singleton _) nofun (fun last at_ => ?_) ?_
    · rw [closes_mark (ends _), single]
      rfl
    · rintro f ⟨⟩
      nofun
  have literal : Leads r { frames := [⟨strong.stop, strong.mark, []⟩, frame], out := [starred [] s] }
      emphasis.mark.getLast? strikethrough.mark rest
      { frames := [⟨strong.stop, strong.mark, []⟩, frame]
        out := Reversed.addText [starred [] s] strikethrough.mark } strikethrough.mark.getLast? := by
    refine leads_literal (ends _) ?_ (single _ _)
    rintro f ⟨⟩
    nofun
  have ended : (Reversed.addText [starred [] s] strikethrough.mark).addText a =
      [.text (String.ofList (strikethrough.mark ++ a)), starred [] s] := by
    have filled : strikethrough.mark ++ a ≠ [] := List.cons_ne_nil '~' ('~' :: a)
    rw [addText_addText, (isClosed_starred [] s []).addText_eq filled]
  have opener : (out.addText b).addText strikethrough.mark =
      .text (String.ofList (b ++ strikethrough.mark)) :: out := by
    rw [addText_addText, out_closed.addText_eq (by cases b <;> nofun)]
  refine ⟨_, _, first.trans (opens.trans (inside.trans literal)), ?_, ?_⟩
  · rw [ended]
    exact isTight_tildes h _
  · rw [ended, State.unwind, State.unwind, State.unwind, opener]
    rfl

/-! ### Every sequence of marks -/

/-- What a line says when marks of some kinds are put around a part of it, the first kind outermost:
the part is wrapped in all kinds if no two kinds that are marked by stars are neighbours. -/
def framed (xs : List Style) (b s a : Text) : List Inline :=
  if xs = [] then texts (b ++ (s ++ a))
  else if Apart xs then texts b ++ wrapped xs s :: texts a
  else
    match xs with
    | strikethrough :: _ =>
      [.text (String.ofList (b ++ strikethrough.mark)), .text (String.ofList strong.mark),
        starred [] s, .text (String.ofList (strikethrough.mark ++ a))]
    | _ => .text (String.ofList (b ++ strong.mark)) :: starred (xs.drop 2) s :: texts a

/-- The sequences in which stars are neighbours of stars. -/
theorem exists_of_not_apart (distinct : xs.Nodup) (near : ¬ Apart xs) :
    (∃ x y inner, xs = x :: y :: inner ∧ x ≠ strikethrough ∧ Apart (emphasis :: inner) ∧
      ∀ s, marked xs s = stars inner s) ∨
    ∃ x y, xs = [strikethrough, x, y] ∧
      ∀ s, marked xs s = strikethrough.mark ++ (stars [] s ++ strikethrough.mark) := by
  -- there are three kinds, so that the sequences are few
  rcases xs with _ | ⟨x, _ | ⟨y, _ | ⟨z, _ | ⟨w, xs⟩⟩⟩⟩
  · exact absurd .nil near
  · exact absurd (.singleton x) near
  · refine .inl ⟨x, y, [], rfl, ?_⟩
    cases x <;> cases y <;> first
      | exact absurd distinct (by decide)
      | exact absurd (by decide) near
      | exact ⟨by decide, .singleton _, fun s => by simp [marked, stars, mark]⟩
  · cases x <;> cases y <;> cases z <;> first
      | exact absurd distinct (by decide)
      | exact absurd (by decide) near
      | exact .inl ⟨_, _, _, rfl, by decide, by decide, fun s => by simp [marked, stars, mark]⟩
      | exact .inr ⟨_, _, rfl, fun s => by simp [marked, stars, mark]⟩
  · have four : [x, y, z, w].Nodup := distinct.sublist (by simp)
    exfalso
    cases x <;> cases y <;> cases z <;> cases w <;> exact absurd four (by decide)

theorem sentence_framed (h : IsPicked b s a) (distinct : xs.Nodup) :
    Sentence (b ++ (marked xs s ++ a)) (framed xs b s a) := by
  unfold framed
  rw [← List.append_assoc]
  by_cases empty : xs = []
  · have phrase : IsPhrase (b ++ (s ++ a)) := by
      have filled : b ++ (s ++ a) ≠ [] := by simp [h.phrase.ne_nil]
      have phrase := isPhrase_body h.words.isTail filled
      rwa [body_of_starts h.words.starts] at phrase
    rw [if_pos empty, empty, marked, List.append_assoc, texts_eq_plain phrase.ne_nil]
    exact Inline.sentence_of_phrase phrase
  · rw [if_neg empty]
    by_cases apart : Apart xs
    · rw [if_pos apart]
      exact sentence_wrapped h empty apart
    · rw [if_neg apart]
      obtain ⟨x, y, inner, rfl, starred, apart', eq⟩ | ⟨x, y, rfl, eq⟩ :=
        exists_of_not_apart distinct apart
      · rw [eq]
        cases x with
        | strikethrough => contradiction
        | strong => exact sentence_stars h apart'
        | emphasis => exact sentence_stars h apart'
      · rw [eq]
        exact sentence_tildes h

theorem subset_marked (xs : List Style) (s : Text) : s ⊆ marked xs s := by
  induction xs with
  | nil => exact List.Subset.refl s
  | cons x xs ih =>
    exact fun c mem => List.mem_append_right _ (List.mem_append_left _ (ih mem))

theorem head?_ne_tilde (word : IsPhrase s) (other : strikethrough ∉ xs) (rest : Text) :
    (marked xs s ++ rest).head? ≠ some '~' := by
  intro tilde
  cases xs with
  | nil =>
    rw [marked, word.head?_append] at tilde
    exact absurd (word.plain '~' (List.mem_of_head? tilde)) (by decide)
  | cons x xs =>
    cases x with
    | strikethrough => exact other List.mem_cons_self
    | strong => cases tilde
    | emphasis => cases tilde

/-- A line that starts with a letter or one of the marks begins no other block. -/
theorem isQuiet_framed (h : IsPicked b s a) (distinct : xs.Nodup) :
    IsQuiet (b ++ (marked xs s ++ a)) := by
  have lettered : ∀ {c : Char} (rest : Text), c.isAlpha = true → IsQuiet (c :: rest) := by
    intro c rest letter
    refine isQuiet_of_head? (c := c) ?_ (Text.isOpener_of_isAlpha letter)
    rw [Text.trimStart, List.dropWhile_cons_of_neg]
    · rfl
    · rw [Text.isBlankChar_of_isAlpha letter]
      exact Bool.false_ne_true
  obtain ⟨c, u, s_eq⟩ := List.exists_cons_of_ne_nil h.phrase.ne_nil
  have letter : c.isAlpha = true := by
    have starts := h.starts
    rwa [s_eq] at starts
  cases b with
  | cons d b => exact lettered _ h.head?_before
  | nil =>
    rw [List.nil_append]
    -- the letter is what makes a line of stars no thematic break
    have among : ∀ (ys : List Style) (rest : Text), ∃ d ∈ marked ys s ++ rest,
        isBlankChar d = false ∧ d ≠ '*' := by
      intro ys rest
      refine ⟨c, List.mem_append_left _ (subset_marked ys s ?_), Text.isBlankChar_of_isAlpha letter, ?_⟩
      · rw [s_eq]
        exact List.mem_cons_self
      · rintro rfl
        cases letter
    cases xs with
    | nil =>
      rw [marked, s_eq]
      exact lettered _ letter
    | cons x xs =>
      rw [marked, List.append_assoc, List.append_assoc]
      cases x with
      | strikethrough =>
        exact isQuiet_of_tildes (head?_ne_tilde h.phrase (List.nodup_cons.1 distinct).1 _)
      | strong =>
        obtain ⟨d, mem, visible, differs⟩ := among xs (strong.mark ++ a)
        exact isQuiet_of_star ⟨'*', rfl, rfl⟩ ⟨d, List.mem_cons_of_mem _ mem, visible, differs⟩
      | emphasis =>
        refine isQuiet_of_star ?_ (among xs (emphasis.mark ++ a))
        obtain ⟨d, head, visible⟩ :=
          Inline.visible_iff.1 (visible_head h.phrase xs (emphasis.mark ++ a))
        refine ⟨d, head, ?_⟩
        rw [← Bool.not_eq_true]
        exact fun indent => by rw [isBlankChar_of_isIndent indent] at visible; cases visible

theorem spanless_wrapped (xs : List Style) (s : Text) : (wrapped xs s).spanless = wrapped xs s := by
  induction xs with
  | nil => rfl
  | cons x xs ih => cases x <;> simp [wrapped, content, Inline.spanless, Inline.allSpanless, ih]

theorem spanless_framed (xs : List Style) (b s a : Text) :
    Inline.allSpanless (framed xs b s a) = framed xs b s a := by
  have plain : ∀ t, (texts t).map Inline.spanless = texts t := by
    intro t
    unfold texts
    split <;> rfl
  have among : ∀ ys, (starred ys s).spanless = starred ys s := by
    intro ys
    rw [starred, Inline.spanless, Inline.allSpanless_eq_map, List.map_reverse,
      Inline.spanless_addText, List.map_singleton, spanless_wrapped]
  rw [Inline.allSpanless_eq_map]
  unfold framed
  split
  · exact plain _
  · split
    · rw [List.map_append, List.map_cons, plain, plain, spanless_wrapped]
    · split
      · simp [Inline.spanless, among]
      · rw [List.map_cons, List.map_cons, plain, among, Inline.spanless]

/-- **A line of words with marks around a part of it** is a line of a paragraph. -/
theorem isLine_framed (h : IsPicked b s a) (distinct : xs.Nodup) :
    Row.IsLine (b ++ (marked xs s ++ a), framed xs b s a) where
  quiet := isQuiet_framed h distinct
  sentence := by
    have sentence := sentence_framed h distinct
    have visible : (b ++ (marked xs s ++ a)).head?.any (!isBlankChar ·) = true := by
      cases b with
      | nil => exact visible_head h.phrase xs a
      | cons d b => exact any_visible (show (some d).any Char.isAlpha = true from h.head?_before)
    rwa [body_of_visible visible]
  spanless := spanless_framed xs b s a

end Style
end Folio
