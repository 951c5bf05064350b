import Folio.Proofs.Markup.Emphasized

/-!
# Underscores inside words

An underscore next to a letter is no mark on that side, so that the underscores of a word like
`snake_case` are plain text. But a run of underscores is read in pairs, and a pair looks only at the
characters next to it: between two other underscores it may both open and close.

* `Text.IsSnake` is a word with underscores, and `SnakeTail` is what is left of it when some tokens are read;
* `Inline.run_of_not_isMisread`: the underscores are plain text if no four of them are followed by three;
* `Inline.exists_strong_of_owes`: otherwise they make strong emphasis;
* `Document.parse_snake`: the words that are read to themselves.
-/

namespace Folio

open Text (isBlankChar isLetter)

namespace Text

/-- A word of ASCII letters, digits and underscores that starts and ends with a letter or digit. -/
structure IsSnake (w : Text) : Prop where
  chars : ∀ c ∈ w, c.isAlphanum = true ∨ c = '_'
  starts : w.head?.any Char.isAlphanum = true
  stops : w.getLast?.any Char.isAlphanum = true

instance (w : Text) : Decidable w.IsSnake :=
  have : Decidable (∀ c ∈ w, c.isAlphanum = true ∨ c = '_') := List.decidableBAll _ w
  decidable_of_iff
    ((∀ c ∈ w, c.isAlphanum = true ∨ c = '_') ∧ w.head?.any Char.isAlphanum = true ∧
      w.getLast?.any Char.isAlphanum = true)
    ⟨fun h => ⟨h.1, h.2.1, h.2.2⟩, fun h => ⟨h.chars, h.starts, h.stops⟩⟩

/-- Three underscores in a row stand in a text. -/
def HoldsThree (s : Text) : Prop := List.replicate 3 '_' <:+: s

instance (s : Text) : Decidable (HoldsThree s) := inferInstanceAs (Decidable (_ <:+: s))

/-- Four underscores in a row stand in a text, and three in a row after them. -/
def IsMisread (s : Text) : Prop :=
  ∃ u v x, s = u ++ (List.replicate 4 '_' ++ (v ++ (List.replicate 3 '_' ++ x)))

/-! ### Runs of underscores -/

variable {c : Char} {s t u : Text}

theorem ne_underscore_of_isAlphanum (letter : c.isAlphanum = true) : c ≠ '_' := by
  rintro rfl
  cases letter

theorem holdsThree_cons (other : c ≠ '_') : HoldsThree (c :: s) ↔ HoldsThree s := by
  simp [HoldsThree, List.infix_cons_iff, other.symm]

theorem holdsThree_append (letters : ∀ c ∈ u, c.isAlphanum = true) : HoldsThree (u ++ s) ↔ HoldsThree s := by
  induction u with
  | nil => rfl
  | cons c u ih =>
    rw [List.forall_mem_cons] at letters
    rw [List.cons_append, holdsThree_cons (ne_underscore_of_isAlphanum letters.1), ih letters.2]

theorem holdsThree_pair : HoldsThree ('_' :: '_' :: s) ↔ s.head? = some '_' ∨ HoldsThree s := by
  cases s with
  | nil => simp [HoldsThree, List.infix_cons_iff]
  | cons c s =>
    by_cases run : c = '_'
    · subst run
      exact iff_of_true (List.IsPrefix.isInfix ⟨s, rfl⟩) (.inl rfl)
    · simp [HoldsThree, List.infix_cons_iff, run, Ne.symm run]

theorem holdsThree_single (other : c ≠ '_') : HoldsThree ('_' :: c :: s) ↔ HoldsThree (c :: s) := by
  simp [HoldsThree, List.infix_cons_iff, other.symm]

theorem IsMisread.append_left (h : IsMisread s) (u : Text) : IsMisread (u ++ s) := by
  obtain ⟨u', v, x, rfl⟩ := h
  exact ⟨u ++ u', v, x, by rw [List.append_assoc]⟩

theorem not_isMisread_nil : ¬ IsMisread [] := by
  rintro ⟨u, v, x, eq⟩
  simp at eq

theorem isMisread_of_holdsThree (three : HoldsThree s) : IsMisread (List.replicate 4 '_' ++ s) := by
  obtain ⟨v, x, rfl⟩ := three
  exact ⟨[], v, x, by rw [List.nil_append, List.append_assoc]⟩

/-- The four underscores stand at the start of a text, or after its first character. -/
theorem isMisread_cons :
    IsMisread (c :: s) ↔ (∃ t, c :: s = List.replicate 4 '_' ++ t ∧ HoldsThree t) ∨ IsMisread s := by
  constructor
  · rintro ⟨u, v, x, eq⟩
    cases u with
    | nil => exact .inl ⟨_, eq, v, x, by rw [List.append_assoc]⟩
    | cons a u => exact .inr ⟨u, v, x, (List.cons.inj eq).2⟩
  · rintro (⟨t, eq, three⟩ | later)
    · rw [eq]
      exact isMisread_of_holdsThree three
    · exact later.append_left [c]

instance isMisread_decidable : (s : Text) → Decidable (IsMisread s)
  | [] => isFalse not_isMisread_nil
  | c :: s =>
    have : Decidable (IsMisread s) := isMisread_decidable s
    decidable_of_iff (List.replicate 4 '_' <+: c :: s ∧ HoldsThree ((c :: s).drop 4) ∨ IsMisread s) (by
      rw [isMisread_cons]
      refine or_congr_left ⟨?_, ?_⟩
      · rintro ⟨⟨t, eq⟩, three⟩
        exact ⟨t, eq.symm, by rwa [← eq] at three⟩
      · rintro ⟨t, eq, three⟩
        exact ⟨⟨t, eq.symm⟩, by rwa [eq]⟩)

/-- Up to three characters before one that is no underscore do not count. -/
theorem IsMisread.of_short (short : u.length < 4) (other : c ≠ '_') (h : IsMisread (u ++ c :: s)) :
    IsMisread s := by
  induction u with
  | nil =>
    rcases isMisread_cons.1 h with ⟨t, eq, -⟩ | later
    · exact absurd (List.cons.inj eq).1 other
    · exact later
  | cons a u ih =>
    rcases isMisread_cons.1 h with ⟨t, eq, -⟩ | later
    · have eq : (a :: u) ++ c :: s = List.replicate 4 '_' ++ t := eq
      have at_ : ((a :: u) ++ c :: s)[(a :: u).length]? = (List.replicate 4 '_' ++ t)[(a :: u).length]? := by
        rw [eq]
      rw [List.getElem?_append_right (Nat.le_refl _), Nat.sub_self,
        List.getElem?_append_left (by rwa [List.length_replicate])] at at_
      exact absurd (List.eq_of_mem_replicate (List.mem_of_getElem? at_.symm)) other
    · exact ih (Nat.lt_of_succ_lt short) later

/-- Nor do letters and what little stands before them. -/
theorem IsMisread.of_letters {w : Text} (filled : w ≠ []) (letters : ∀ c ∈ w, c.isAlphanum = true)
    (short : u.length < 4) (h : IsMisread (u ++ (w ++ s))) : IsMisread s := by
  induction w generalizing u with
  | nil => contradiction
  | cons c w ih =>
    rw [List.forall_mem_cons] at letters
    have rest : IsMisread (w ++ s) := h.of_short short (ne_underscore_of_isAlphanum letters.1)
    by_cases last : w = []
    · rwa [last] at rest
    · exact ih last letters.2 (by decide : ([] : Text).length < 4) rest

theorem isMisread_four (h : IsMisread (List.replicate 4 '_' ++ s)) :
    HoldsThree s ∨ IsMisread (List.replicate 2 '_' ++ s) := by
  rw [List.replicate_succ, List.cons_append, isMisread_cons] at h
  rcases h with ⟨t, eq, three⟩ | h
  · have same : List.replicate 4 '_' ++ s = List.replicate 4 '_' ++ t := eq
    rw [List.append_cancel_left same]
    exact .inl three
  · rw [List.replicate_succ, List.cons_append, isMisread_cons] at h
    refine h.imp_left ?_
    rintro ⟨t, eq, three⟩
    -- three of these four underscores are there already
    have same : List.replicate 3 '_' ++ s = List.replicate 3 '_' ++ '_' :: t := eq
    rw [List.append_cancel_left same]
    exact three.trans (List.suffix_cons '_' t).isInfix

end Text

/-! ### Words as tokens -/

open Text (HoldsThree IsMisread IsSnake)

/-- The rest of a word with underscores, as its tokens divide it: letters and digits up to an underscore,
two underscores, or a last one of a run. -/
inductive SnakeTail : Text → Prop
  | nil : SnakeTail []
  | word {w rest : Text} (filled : w ≠ []) (letters : ∀ c ∈ w, c.isAlphanum = true)
      (next : rest.head?.all (· == '_') = true) (tail : SnakeTail rest) : SnakeTail (w ++ rest)
  | pair {rest : Text} (filled : rest ≠ []) (tail : SnakeTail rest) : SnakeTail ('_' :: '_' :: rest)
  | single {c : Char} {rest : Text} (letter : c.isAlphanum = true) (tail : SnakeTail (c :: rest)) :
      SnakeTail ('_' :: c :: rest)

namespace SnakeTail

variable {c : Char} {s w rest : Text}

theorem cons (letter : c.isAlphanum = true) (tail : SnakeTail s) : SnakeTail (c :: s) := by
  have alone : ∀ d ∈ [c], d.isAlphanum = true := List.forall_mem_singleton.2 letter
  cases tail with
  | nil => exact word (List.cons_ne_nil c []) alone rfl nil
  | word filled letters next tail =>
    exact word (List.cons_ne_nil c _) (List.forall_mem_cons.2 ⟨letter, letters⟩) next tail
  | pair filled tail => exact word (List.cons_ne_nil c []) alone rfl (pair filled tail)
  | single letter' tail => exact word (List.cons_ne_nil c []) alone rfl (single letter' tail)

theorem of_chars : ∀ {s : Text}, (∀ c ∈ s, c.isAlphanum = true ∨ c = '_') →
    s.getLast?.all Char.isAlphanum = true → SnakeTail s
  | [], _, _ => nil
  | c :: s, chars, stops => by
    rw [List.forall_mem_cons] at chars
    have stops' : ∀ {s : Text}, (c :: s).getLast?.all Char.isAlphanum = true →
        s.getLast?.all Char.isAlphanum = true := by
      intro s stops
      cases s with
      | nil => rfl
      | cons d s => rwa [List.getLast?_cons_cons] at stops
    rcases chars.1 with letter | rfl
    · exact cons letter (of_chars chars.2 (stops' stops))
    · match s, chars.2, stops with
      | d :: s, chars, stops =>
        rw [List.getLast?_cons_cons] at stops
        have chars' := List.forall_mem_cons.1 chars
        rcases chars'.1 with letter | rfl
        · exact single letter (of_chars chars stops)
        · match s, chars'.2, stops with
          | e :: s, chars, stops =>
            rw [List.getLast?_cons_cons] at stops
            exact pair (List.cons_ne_nil e s) (of_chars chars stops)

theorem exists_head (tail : SnakeTail s) (filled : s ≠ []) :
    ∃ c, s.head? = some c ∧ (c.isAlphanum = true ∨ c = '_') := by
  cases tail with
  | nil => contradiction
  | word filled' letters =>
    obtain ⟨c, w, rfl⟩ := List.exists_cons_of_ne_nil filled'
    exact ⟨c, rfl, .inl (letters c List.mem_cons_self)⟩
  | pair => exact ⟨'_', rfl, .inr rfl⟩
  | single => exact ⟨'_', rfl, .inr rfl⟩

end SnakeTail

/-! ### Marks in a word -/

/-- Whether a mark that may close stands in a text. -/
def Stop.isClosedIn (stop : Stop) (before : Option Char) (at_ : Nat) (s : Text) : Bool :=
  (Lexeme.readFrom at_ before at_ s).any fun t => stop.isToken t.token && t.canClose

namespace SnakeTail

variable {s rest : Text} {before : Option Char} {c : Char} {at_ : Nat}

theorem any_isLetter_head? (tail : SnakeTail s) (filled : s ≠ []) :
    s.head?.any isLetter = !decide (s.head? = some '_') := by
  obtain ⟨c, head, letter | rfl⟩ := tail.exists_head filled
  · simp [head, Text.isLetter_of_isAlphanum letter, Text.ne_underscore_of_isAlphanum letter]
  · rw [head]
    decide

theorem visible_head? (tail : SnakeTail s) (filled : s ≠ []) : s.head?.any (!isBlankChar ·) = true := by
  obtain ⟨c, head, letter | rfl⟩ := tail.exists_head filled
  · simp [head, Text.isBlankChar_of_isAlphanum letter]
  · rw [head]
    decide

end SnakeTail

theorem visible_getLast? {w : Text} (filled : w ≠ []) (letters : ∀ c ∈ w, c.isAlphanum = true) :
    w.getLast?.any (!isBlankChar ·) = true := by
  rw [List.getLast?_eq_some_getLast filled, Option.any_some,
    Text.isBlankChar_of_isAlphanum (letters _ (List.getLast_mem filled))]
  rfl

theorem special_of_next {rest : Text} (next : rest.head?.all (· == '_') = true) :
    rest.head?.all Token.isSpecial = true := by
  cases rest with
  | nil => rfl
  | cons c rest =>
    obtain rfl : c = '_' := by simpa using next
    rfl

namespace Lexeme

variable {before : Option Char} {c : Char} {at_ : Nat} {w rest : Text}

/-- Two underscores as a token. -/
def pair (before : Option Char) (at_ : Nat) (rest : Text) : Lexeme :=
  { token := .doubleUnderscore, start := at_, text := ['_', '_'], before, after := rest.head? }

/-- One underscore as a token. -/
def single (before : Option Char) (at_ : Nat) (rest : Text) : Lexeme :=
  { token := .underscore, start := at_, text := ['_'], before, after := rest.head? }

theorem canOpen_pair (tail : SnakeTail rest) (filled : rest ≠ []) :
    (pair before at_ rest).canOpen = !before.any isLetter := by
  rw [canOpen, pair, tail.visible_head? filled]
  rfl

theorem canClose_pair (tail : SnakeTail rest) (filled : rest ≠ [])
    (visible : before.any (!isBlankChar ·) = true) :
    (pair before at_ rest).canClose = decide (rest.head? = some '_') := by
  rw [canClose, pair, visible, tail.any_isLetter_head? filled, Bool.not_and, Bool.not_not]
  rfl

theorem canClose_single (letter : c.isAlphanum = true) :
    (single before at_ (c :: rest)).canClose = false := by
  rw [canClose, single, List.head?_cons, Option.any_some, Text.isLetter_of_isAlphanum letter]
  exact Bool.and_false _

theorem readFrom_pair (before : Option Char) (at_ : Nat) (rest : Text) :
    readFrom at_ before at_ ('_' :: '_' :: rest) =
      pair before at_ rest :: readFrom (at_ + 2) (some '_') (at_ + 2) rest :=
  readFrom_cons (w := ['_']) rfl

theorem read_single (other : c ≠ '_') : Token.read '_' (c :: rest) = (.underscore, 0) := by
  have single : ((c :: rest).head? == some '_') = false := by simpa using other
  show (if _ then _ else _) = _
  rw [single]
  rfl

theorem readFrom_single (before : Option Char) (at_ : Nat) (other : c ≠ '_') :
    readFrom at_ before at_ ('_' :: c :: rest) =
      single before at_ (c :: rest) :: readFrom (at_ + 1) (some '_') (at_ + 1) (c :: rest) :=
  readFrom_cons (w := []) (read_single other)

theorem exists_readFrom_word (before : Option Char) (at_ : Nat) (filled : w ≠ [])
    (letters : ∀ c ∈ w, c.isAlphanum = true) (next : rest.head?.all (· == '_') = true) :
    ∃ t, t.token = .text ∧ readFrom at_ before at_ (w ++ rest) =
      t :: readFrom (at_ + Text.bytes w) w.getLast? (at_ + Text.bytes w) rest := by
  obtain ⟨c, w, rfl⟩ := List.exists_cons_of_ne_nil filled
  have plain : ∀ d ∈ c :: w, Token.isSpecial d = false := fun d mem =>
    Text.isSpecial_of_isAlphanum (letters d mem)
  rw [List.forall_mem_cons] at plain
  have read : Token.read c (w ++ rest) = (.text, w.length) := by
    rw [Inline.token_read_of_plain plain.1, Inline.takeWhile_plain plain.2 (special_of_next next)]
  exact ⟨_, rfl, readFrom_cons read⟩

end Lexeme

namespace SnakeTail

variable {s : Text} {before : Option Char} {at_ : Nat}

/-- A single underscore never closes, for it stands before a letter; a pair closes before an underscore. -/
theorem isClosedIn (tail : SnakeTail s) (before : Option Char) (at_ : Nat)
    (visible : before.any (!isBlankChar ·) = true) :
    (Stop.emphasis true).isClosedIn before at_ s = false ∧
      ((Stop.strong true).isClosedIn before at_ s = true ↔ HoldsThree s) := by
  induction tail generalizing before at_ with
  | nil => exact ⟨rfl, by simp [Stop.isClosedIn, Lexeme.readFrom, HoldsThree]⟩
  | @word w rest filled letters next tail ih =>
    obtain ⟨t, text, read⟩ := Lexeme.exists_readFrom_word before at_ filled letters next
    have passed : ∀ stop : Stop, stop.isToken .text = false → stop.isClosedIn before at_ (w ++ rest) =
        stop.isClosedIn w.getLast? (at_ + Text.bytes w) rest := by
      intro stop other
      rw [Stop.isClosedIn, read, List.any_cons, text, other, Bool.false_and, Bool.false_or, Stop.isClosedIn]
    rw [passed _ rfl, passed _ rfl, Text.holdsThree_append letters]
    exact ih w.getLast? (at_ + Text.bytes w) (visible_getLast? filled letters)
  | @pair rest filled tail ih =>
    obtain ⟨never, closes⟩ := ih (some '_') (at_ + 2) rfl
    have own : (Stop.strong true).isToken (Lexeme.pair before at_ rest).token = true := rfl
    rw [Stop.isClosedIn] at never closes
    rw [Stop.isClosedIn, Stop.isClosedIn, Lexeme.readFrom_pair, List.any_cons, List.any_cons, never,
      Lexeme.canClose_pair tail filled visible, own, Bool.true_and, Bool.or_eq_true, decide_eq_true_iff,
      closes, Text.holdsThree_pair]
    exact ⟨rfl, Iff.rfl⟩
  | @single c rest letter tail ih =>
    obtain ⟨never, closes⟩ := ih (some '_') (at_ + 1) rfl
    have other := Text.ne_underscore_of_isAlphanum letter
    rw [Stop.isClosedIn] at never closes
    rw [Stop.isClosedIn, Stop.isClosedIn, Lexeme.readFrom_single before at_ other, List.any_cons,
      List.any_cons, never, Lexeme.canClose_single letter, Bool.and_false, Bool.and_false, Bool.false_or,
      Bool.false_or, closes, Text.holdsThree_single other]
    exact ⟨rfl, Iff.rfl⟩

end SnakeTail

namespace Inline

variable {r : Region} {st : State} {before : Option Char} {c : Char} {w s rest : Text}

/-! ### What is read of a word -/

/-- Every open frame waits for two underscores. -/
def State.AwaitsPairs (st : State) : Prop := ∀ f ∈ st.frames, f.stop = .strong true

theorem State.AwaitsPairs.addText (awaits : st.AwaitsPairs) (s : Text) : (st.addText s).AwaitsPairs := awaits

theorem leads_letters (filled : w ≠ []) (letters : ∀ c ∈ w, c.isAlphanum = true)
    (next : rest.head?.all (· == '_') = true) : Leads r st before w rest (st.addText w) w.getLast? :=
  leads_text filled (fun c mem => Text.isSpecial_of_isAlphanum (letters c mem)) (special_of_next next)

/-- A single underscore is plain text. -/
theorem leads_single (letter : c.isAlphanum = true) (tail : SnakeTail (c :: rest)) (awaits : st.AwaitsPairs) :
    Leads r st before ['_'] (c :: rest) (st.addText ['_']) (some '_') := by
  intro at_
  have other := Text.ne_underscore_of_isAlphanum letter
  refine run_cons (w := []) (Lexeme.read_single other) ?_
  rw [next_eq_take]
  · have never := (tail.isClosedIn (some '_') (at_ + 1) rfl).1
    show (if _ && (Stop.emphasis true).isClosedIn (some '_') (at_ + 1) (c :: rest) then _ else _) = _
    rw [never, Bool.and_false]
    rfl
  · intro f mem
    rw [Lexeme.ends, awaits f (List.mem_of_mem_head? mem)]
    rfl

/-- Two underscores before a third one close a frame. -/
theorem leads_closingPair {f : Frame} {fs : List Frame} (tail : SnakeTail rest)
    (run : rest.head? = some '_') (visible : before.any (!isBlankChar ·) = true)
    (frames : st.frames = f :: fs) (awaits : f.stop = .strong true) :
    Leads r st before ['_', '_'] rest { frames := fs, out := .strong st.out.reverse :: f.outer }
      (some '_') := by
  intro at_
  refine run_cons (w := ['_']) rfl ?_
  have filled : rest ≠ [] := by
    rintro rfl
    cases run
  have closes : (Lexeme.pair before at_ rest).ends f.stop = true := by
    rw [Lexeme.ends, awaits, Lexeme.canClose_pair tail filled visible, decide_eq_true run]
    rfl
  rw [next, frames]
  dsimp only
  rw [if_pos (by exact closes), endFrame, awaits]
  rfl

/-- Two underscores that close nothing open a frame if no letter stands before them and they are found again,
and are plain text if not. -/
theorem leads_openingPair (tail : SnakeTail rest) (filled : rest ≠ [])
    (visible : before.any (!isBlankChar ·) = true) (awaits : st.AwaitsPairs)
    (open_ : st.frames = [] ∨ rest.head? ≠ some '_') :
    Leads r st before ['_', '_'] rest
      (if before.any isLetter = false ∧ HoldsThree rest then st.push (.strong true) ['_', '_']
        else st.addText ['_', '_']) (some '_') := by
  intro at_
  refine run_cons (w := ['_']) rfl ?_
  rw [next_eq_take]
  · have closes := (tail.isClosedIn (some '_') (at_ + 2) rfl).2
    show (if (Lexeme.pair before at_ rest).canOpen &&
      (Stop.strong true).isClosedIn (some '_') (at_ + 2) rest then _ else _) = _
    rw [Lexeme.canOpen_pair tail filled]
    simp only [Bool.and_eq_true, Bool.not_eq_true', closes]
    split <;> rfl
  · intro f mem
    have other : rest.head? ≠ some '_' := open_.resolve_left fun none => by
      rw [none] at mem
      cases mem
    have stays : (Lexeme.pair before at_ rest).ends f.stop = false := by
      rw [Lexeme.ends, awaits f (List.mem_of_mem_head? mem), Lexeme.canClose_pair tail filled visible,
        decide_eq_false other]
      rfl
    exact stays

/-! ### Words that are read to themselves -/

/-- The characters before a place that a pair read there belongs with. -/
def runBefore (d : Char) : Text := if d = '_' then List.replicate 2 '_' else []

theorem runBefore_of_isAlphanum {d : Char} (letter : d.isAlphanum = true) : runBefore d = [] :=
  if_neg (Text.ne_underscore_of_isAlphanum letter)

theorem length_runBefore_le (d : Char) : (runBefore d).length ≤ 2 := by
  unfold runBefore
  split <;> decide

theorem visible_of_snake {d : Char} (h : d.isAlphanum = true ∨ d = '_') :
    (some d).any (!isBlankChar ·) = true := by
  rcases h with letter | rfl
  · rw [Option.any_some, Text.isBlankChar_of_isAlphanum letter]
    rfl
  · decide

/-- A word without four underscores and then three is plain text. -/
theorem run_of_not_isMisread {d : Char} {out : Reversed} (tail : SnakeTail s)
    (h : d.isAlphanum = true ∨ d = '_') (plain : ¬ IsMisread (runBefore d ++ s)) (at_ : Nat) :
    run r { frames := [], out } (some d) at_ s = .ok (out.addText s) := by
  induction tail generalizing d out at_ with
  | nil => rfl
  | @word w rest filled letters next tail ih =>
    obtain ⟨e, last⟩ : ∃ e, w.getLast? = some e := ⟨_, List.getLast?_eq_some_getLast filled⟩
    have letter : e.isAlphanum = true := letters e (List.mem_of_getLast? last)
    have plain' : ¬ IsMisread (runBefore e ++ rest) := by
      rw [runBefore_of_isAlphanum letter, List.nil_append]
      intro misread
      rw [← List.append_assoc] at plain
      exact plain (misread.append_left _)
    rw [leads_letters filled letters next at_, last, State.addText, ih (.inl letter) plain',
      Style.addText_addText]
  | @pair rest filled tail ih =>
    have plain' : ¬ IsMisread (runBefore '_' ++ rest) := fun misread =>
      plain (misread.append_left (runBefore d))
    -- between two pairs of one run, a pair that opened would make the word misread
    have literal : ¬((some d).any isLetter = false ∧ HoldsThree rest) := by
      rintro ⟨other, three⟩
      rcases h with letter | rfl
      · rw [Option.any_some, Text.isLetter_of_isAlphanum letter] at other
        cases other
      · exact plain (Text.isMisread_of_holdsThree three)
    have read : Leads r { frames := [], out } (some d) ['_', '_'] rest _ (some '_') :=
      leads_openingPair tail filled (visible_of_snake h) (List.forall_mem_nil _) (.inl rfl)
    rw [if_neg literal] at read
    rw [show '_' :: '_' :: rest = ['_', '_'] ++ rest from rfl, read at_, State.addText, ih (.inr rfl) plain',
      Style.addText_addText]
  | @single c rest letter tail ih =>
    have plain' : ¬ IsMisread (runBefore '_' ++ c :: rest) := by
      intro misread
      have later := misread.of_short (Nat.lt_of_le_of_lt (length_runBefore_le '_') (by decide))
        (Text.ne_underscore_of_isAlphanum letter)
      have misread := later.append_left (runBefore d ++ ['_', c])
      rw [List.append_assoc] at misread
      exact plain misread
    have read : Leads r { frames := [], out } (some d) ['_'] (c :: rest) _ (some '_') :=
      leads_single letter tail (List.forall_mem_nil _)
    rw [show '_' :: c :: rest = ['_'] ++ c :: rest from rfl, read at_, State.addText, ih (.inr rfl) plain',
      Style.addText_addText]

/-! ### Words that are read to emphasis -/

/-- Strong emphasis has been made, in the innermost frame or around one. -/
def State.IsStrong (st : State) : Prop :=
  ∃ content, .strong content ∈ st.out ∨ ∃ f ∈ st.frames, .strong content ∈ f.outer

/-- Strong emphasis has been made, or will be: a frame waits for a pair that comes, or a pair that comes
opens a frame. -/
def State.Owes (st : State) (d : Char) (s : Text) : Prop :=
  st.IsStrong ∨ (st.frames ≠ [] ∧ HoldsThree s) ∨ IsMisread (runBefore d ++ s)

theorem mem_addText {i : Inline} {out : Reversed} (marked : ∀ value, i ≠ .text value) (mem : i ∈ out)
    (s : Text) : i ∈ out.addText s := by
  unfold Reversed.addText
  split
  · exact mem
  · split
    · rcases List.mem_cons.1 mem with rfl | mem
      · exact absurd rfl (marked _)
      · exact List.mem_cons_of_mem _ mem
    · exact List.mem_cons_of_mem _ mem

theorem mem_trimEnd {i : Inline} {out : Reversed} (marked : ∀ value, i ≠ .text value) (mem : i ∈ out) :
    i ∈ out.trimEnd := by
  unfold Reversed.trimEnd
  split
  · rcases List.mem_cons.1 mem with rfl | mem
    · exact absurd rfl (marked _)
    · dsimp only
      split
      · exact mem
      · exact List.mem_cons_of_mem _ mem
  · exact mem

theorem mem_trimStart {i : Inline} {content : List Inline} (marked : ∀ value, i ≠ .text value)
    (mem : i ∈ content) : i ∈ trimStart content := by
  unfold trimStart
  split
  · rcases List.mem_cons.1 mem with rfl | mem
    · exact absurd rfl (marked _)
    · dsimp only
      split
      · exact mem
      · exact List.mem_cons_of_mem _ mem
  · exact mem

theorem State.IsStrong.addText (strong : st.IsStrong) (s : Text) : (st.addText s).IsStrong := by
  obtain ⟨content, mem | outer⟩ := strong
  · exact ⟨content, .inl (mem_addText (by nofun) mem s)⟩
  · exact ⟨content, .inr outer⟩

theorem mem_unwind {i : Inline} {out : Reversed} {fs : List Frame} (marked : ∀ value, i ≠ .text value)
    (mem : i ∈ out ∨ ∃ f ∈ fs, i ∈ f.outer) : i ∈ State.unwind out fs := by
  induction fs generalizing out with
  | nil => exact mem.resolve_right fun ⟨_, among, _⟩ => List.not_mem_nil among
  | cons f fs ih =>
    refine ih ?_
    rcases mem with mem | ⟨f', among, mem⟩
    · exact .inl (List.mem_append_left _ mem)
    · rcases List.mem_cons.1 among with rfl | among
      · exact .inl (List.mem_append_right _ (mem_addText marked mem _))
      · exact .inr ⟨f', among, mem⟩

/-- One pair: what is owed is made, or is still owed. -/
theorem exists_leads_pair {d : Char} (tail : SnakeTail rest) (filled : rest ≠ [])
    (h : d.isAlphanum = true ∨ d = '_') (awaits : st.AwaitsPairs)
    (owes : st.Owes d ('_' :: '_' :: rest)) :
    ∃ after, Leads r st (some d) ['_', '_'] rest after (some '_') ∧ after.AwaitsPairs ∧
      after.Owes '_' rest := by
  by_cases open_ : st.frames = [] ∨ rest.head? ≠ some '_'
  · have read := leads_openingPair (r := r) tail filled (visible_of_snake h) awaits open_
    by_cases opens : (some d).any isLetter = false ∧ HoldsThree rest
    · rw [if_pos opens] at read
      exact ⟨_, read, List.forall_mem_cons.2 ⟨rfl, awaits⟩, .inr (.inl ⟨List.cons_ne_nil _ _, opens.2⟩)⟩
    · rw [if_neg opens] at read
      refine ⟨_, read, awaits.addText _, ?_⟩
      rcases owes with strong | ⟨waits, three⟩ | misread
      · exact .inl (strong.addText _)
      · exact .inr (.inl ⟨waits, (Text.holdsThree_pair.1 three).resolve_left (open_.resolve_left waits)⟩)
      · rcases h with letter | rfl
        · rw [runBefore_of_isAlphanum letter] at misread
          exact .inr (.inr misread)
        · have later := Text.isMisread_four misread
          exact .inr (.inr (later.resolve_left fun three => opens ⟨by decide, three⟩))
  · rw [not_or, not_not] at open_
    obtain ⟨f, fs, frames⟩ := List.exists_cons_of_ne_nil open_.1
    rw [State.AwaitsPairs, frames, List.forall_mem_cons] at awaits
    exact ⟨_, leads_closingPair tail open_.2 (visible_of_snake h) frames awaits.1, awaits.2,
      .inl ⟨_, .inl List.mem_cons_self⟩⟩

/-- Plain text that shortens what is to come leaves what is owed. -/
theorem State.Owes.addText {d e : Char} (owes : st.Owes d s) (t : Text)
    (three : HoldsThree s → HoldsThree rest)
    (misread : IsMisread (runBefore d ++ s) → IsMisread (runBefore e ++ rest)) :
    (st.addText t).Owes e rest := by
  rcases owes with strong | ⟨waits, holds⟩ | owed
  · exact .inl (strong.addText t)
  · exact .inr (.inl ⟨waits, three holds⟩)
  · exact .inr (.inr (misread owed))

/-- **Four underscores and then three** make strong emphasis. -/
theorem exists_strong_of_owes {d : Char} (tail : SnakeTail s) (h : d.isAlphanum = true ∨ d = '_')
    (awaits : st.AwaitsPairs) (owes : st.Owes d s) (at_ : Nat) :
    ∃ out content, run r st (some d) at_ s = .ok out ∧ .strong content ∈ out := by
  induction tail generalizing d st at_ with
  | nil =>
    rcases owes with ⟨content, strong⟩ | ⟨-, three⟩ | misread
    · exact ⟨_, content, run_nil, mem_unwind (by nofun) strong⟩
    · exact absurd three (by decide)
    · obtain ⟨u, v, x, eq⟩ := misread
      have long := congrArg List.length eq
      have short := length_runBefore_le d
      simp only [List.length_append, List.length_replicate, List.length_nil] at long
      omega
  | @word w rest filled letters next tail ih =>
    obtain ⟨e, last⟩ : ∃ e, w.getLast? = some e := ⟨_, List.getLast?_eq_some_getLast filled⟩
    have letter : e.isAlphanum = true := letters e (List.mem_of_getLast? last)
    rw [leads_letters filled letters next at_, last]
    refine ih (.inl letter) (awaits.addText w) (owes.addText w (Text.holdsThree_append letters).1 ?_) _
    rw [runBefore_of_isAlphanum letter]
    exact IsMisread.of_letters filled letters (Nat.lt_of_le_of_lt (length_runBefore_le d) (by decide))
  | @pair rest filled tail ih =>
    obtain ⟨after, read, awaits', owes'⟩ := exists_leads_pair (r := r) tail filled h awaits owes
    rw [show '_' :: '_' :: rest = ['_', '_'] ++ rest from rfl, read at_]
    exact ih (.inr rfl) awaits' owes' _
  | @single c rest letter tail ih =>
    have other := Text.ne_underscore_of_isAlphanum letter
    rw [show '_' :: c :: rest = ['_'] ++ c :: rest from rfl, leads_single letter tail awaits at_]
    refine ih (.inr rfl) (awaits.addText _) (owes.addText _ (Text.holdsThree_single other).1 ?_) _
    intro misread
    rw [show runBefore d ++ '_' :: c :: rest = (runBefore d ++ ['_']) ++ c :: rest by simp] at misread
    have short : (runBefore d ++ ['_']).length < 4 := by
      have short := length_runBefore_le d
      rw [List.length_append, List.length_singleton]
      omega
    have later := (misread.of_short short other).append_left (runBefore '_' ++ [c])
    rwa [List.append_assoc] at later

end Inline

/-! ### Words as documents -/

theorem ListMark.ofLine?_eq_none_of_chars {line : Text}
    (absent : ∀ c ∈ line, ['-', '*', '+', '.', ')'].contains c = false) : ofLine? line = none := by
  by_contra h
  obtain ⟨mark, h⟩ := Option.ne_none_iff_exists'.1 h
  unfold ofLine? at h
  obtain ⟨rest, unindented, h⟩ := Option.bind_eq_some_iff.1 h
  obtain ⟨⟨number, width⟩, found, -⟩ := Option.bind_eq_some_iff.1 h
  have within : rest ⊆ line := by
    rw [eq_append_of_unindent? unindented]
    exact List.subset_append_right _ _
  unfold bullet? at found
  split at found
  · cases absent '-' (within List.mem_cons_self)
  · cases absent '*' (within List.mem_cons_self)
  · cases absent '+' (within List.mem_cons_self)
  · dsimp only at found
    split at found
    · cases found
    · split at found
      · rename_i rest' after
        cases absent '.' (within (List.mem_of_mem_drop (after ▸ List.mem_cons_self)))
      · rename_i rest' after
        cases absent ')' (within (List.mem_of_mem_drop (after ▸ List.mem_cons_self)))
      · cases found

namespace Text.IsSnake

variable {w : Text} {r : Region} (snake : w.IsSnake)

include snake

/-- Characters that are no letters, digits or underscores do not stand in a word. -/
theorem contains_eq_false {cs : List Char} (none : cs.any (fun c => c.isAlphanum || c == '_') = false) :
    ∀ c ∈ w, cs.contains c = false := by
  intro c mem
  refine Text.contains_eq_false ?_ none
  rcases snake.chars c mem with letter | rfl
  · rw [letter, Bool.true_or]
  · rfl

theorem eol_not_mem : '\n' ∉ w := by
  intro mem
  have other : ['\n'].contains '\n' = false := snake.contains_eq_false rfl '\n' mem
  cases other

theorem isQuiet : IsQuiet w := by
  obtain ⟨c, first, letter⟩ := (Option.any_eq_true _ _).1 snake.starts
  have visible := Text.isBlankChar_of_isAlphanum letter
  have trimmed : (Text.trimStart w).head? = some c := by
    obtain ⟨s, rfl⟩ := List.head?_eq_some_iff.1 first
    rw [Text.trimStart, List.dropWhile_cons_of_neg (by rw [visible]; exact Bool.false_ne_true), first]
  refine isQuiet_of_opening trimmed (open?_eq_none trimmed ?_) (isThematicBreak_eq_false trimmed ?_)
    (ListMark.ofLine?_eq_none_of_chars (snake.contains_eq_false (by decide))) ?_
  · exact Text.contains_eq_false letter (by decide)
  · exact Text.contains_eq_false letter (by decide)
  · exact Text.contains_eq_false letter (by decide)

theorem ne_nil : w ≠ [] := by
  rintro rfl
  cases snake.starts

theorem scan_eq_nil : Declaration.scan w = [] := by
  refine Declaration.scan_eq_nil_of_chars fun l mem => ?_
  rw [Line.split_of_eol_not_mem snake.eol_not_mem snake.ne_nil, List.mem_singleton] at mem
  subst mem
  exact snake.contains_eq_false (by decide)

theorem body_eq : body w = w := by
  obtain ⟨c, first, letter⟩ := (Option.any_eq_true _ _).1 snake.starts
  refine body_of_visible ?_
  rw [first, Option.any_some, Text.isBlankChar_of_isAlphanum letter]
  rfl

/-- A word is its first letters and what is left after them. -/
theorem exists_letters : ∃ u rest, w = u ++ rest ∧ u ≠ [] ∧ (∀ c ∈ u, c.isAlphanum = true) ∧
    rest.head?.all (· == '_') = true ∧ SnakeTail rest := by
  have stops : w.getLast?.all Char.isAlphanum = true := by
    obtain ⟨c, last, letter⟩ := (Option.any_eq_true _ _).1 snake.stops
    rwa [last]
  have starts := snake.starts
  cases SnakeTail.of_chars snake.chars stops with
  | nil => cases starts
  | word filled letters next tail => exact ⟨_, _, rfl, filled, letters, next, tail⟩
  | pair => cases starts
  | single => cases starts

/-- A word is read to itself if no four underscores in it are followed by three. -/
theorem read_eq (text : r.text = w) (plain : ¬ w.IsMisread) :
    Inline.read r = .ok [.text (String.ofList w)] := by
  obtain ⟨u, rest, parts, filled, letters, next, tail⟩ := snake.exists_letters
  obtain ⟨d, last⟩ : ∃ d, u.getLast? = some d := ⟨_, List.getLast?_eq_some_getLast filled⟩
  have letter : d.isAlphanum = true := letters d (List.mem_of_getLast? last)
  have plain' : ¬ Text.IsMisread (Inline.runBefore d ++ rest) := by
    rw [Inline.runBefore_of_isAlphanum letter, List.nil_append]
    intro misread
    rw [parts] at plain
    exact plain (misread.append_left u)
  have run : Inline.run r { frames := [], out := [] } none 0 r.text = .ok [.text (String.ofList w)] := by
    have whole : Inline.Reversed.addText [] w = [.text (String.ofList w)] :=
      if_neg (by simpa using snake.ne_nil)
    rw [text, parts, Inline.leads_letters filled letters next 0, last, Inline.State.addText,
      Inline.run_of_not_isMisread tail (.inl letter) plain', Style.addText_addText, ← parts, whole]
  obtain ⟨c, first, letter'⟩ := (Option.any_eq_true _ _).1 snake.starts
  obtain ⟨e, final, letter''⟩ := (Option.any_eq_true _ _).1 snake.stops
  have visible := Text.isBlankChar_of_isAlphanum letter''
  have tight := Style.isTight_of_last final (Text.isIndent_of_visible visible) []
  have fresh := Style.isFresh_of_first first (Text.isBlankChar_of_isAlphanum letter') []
  rw [Inline.read_eq_run, run, Except.map, tight.trimEnd_eq, List.reverse_singleton, fresh.trimStart_eq]

/-- A word in which four underscores are followed by three is read to more than text. -/
theorem exists_strong (text : r.text = w) (misread : w.IsMisread) :
    ∃ is content, Inline.read r = .ok is ∧ .strong content ∈ is := by
  obtain ⟨u, rest, parts, filled, letters, next, tail⟩ := snake.exists_letters
  obtain ⟨d, last⟩ : ∃ d, u.getLast? = some d := ⟨_, List.getLast?_eq_some_getLast filled⟩
  have letter : d.isAlphanum = true := letters d (List.mem_of_getLast? last)
  have owes : (Inline.State.addText { frames := [], out := [] } u).Owes d rest := by
    refine .inr (.inr ?_)
    rw [parts] at misread
    rw [Inline.runBefore_of_isAlphanum letter]
    exact misread.of_letters (u := []) filled letters (by decide)
  obtain ⟨out, content, run, strong⟩ := Inline.exists_strong_of_owes (r := r) tail (.inl letter)
    (fun _ mem => absurd mem List.not_mem_nil) owes (0 + Text.bytes u)
  refine ⟨Inline.trimStart out.trimEnd.reverse, content, ?_, ?_⟩
  · rw [Inline.read_eq_run, text, parts, Inline.leads_letters filled letters next 0, last, run, Except.map]
  · exact Inline.mem_trimStart (by nofun) (List.mem_reverse.2 (Inline.mem_trimEnd (by nofun) strong))

end Text.IsSnake

/-- **Underscores inside a word** are plain text exactly if no four of them in a row are followed by three in
a row. -/
theorem Document.parse_snake (formats : Formats) {w : Text} (snake : w.IsSnake) :
    (parse formats w).map spanless =
        .ok (ofBlocks [.paragraph [.text (String.ofList w)] ⟨0, 0⟩]) ↔
      ¬ w.IsMisread := by
  obtain ⟨content, text, paragraph⟩ :=
    exists_parse_line formats snake.eol_not_mem snake.isQuiet snake.scan_eq_nil
  rw [snake.body_eq] at text
  constructor
  · intro read misread
    obtain ⟨is, inner, strong, mem⟩ := snake.exists_strong text misread
    obtain ⟨span, parsed⟩ := paragraph is strong
    rw [parsed] at read
    have same : [Block.paragraph (Inline.allSpanless is) ⟨0, 0⟩] = _ :=
      congrArg Document.blocks (Except.ok.inj read)
    have text : Inline.allSpanless is = [.text (String.ofList w)] := by
      injection same with same
      injection same
    have among := List.mem_map_of_mem (f := Inline.spanless) mem
    rw [← Inline.allSpanless_eq_map, text, List.mem_singleton, Inline.spanless] at among
    cases among
  · intro plain
    obtain ⟨span, parsed⟩ := paragraph _ (snake.read_eq text plain)
    rw [parsed]
    rfl

theorem Document.parse_snake_threeThenFour :
    let formats : Formats := { json := fun _ => .ok .null, yaml := fun _ => .ok .null }
    let w : Text := "a___b____c_1".toList
    (w.IsSnake ∧ ¬ w.IsMisread) ∧ (parse formats w).map spanless =
      .ok (ofBlocks [.paragraph [.text "a___b____c_1"] ⟨0, 0⟩]) := by
  intro formats w
  have snake : w.IsSnake := by decide
  have plain : ¬ w.IsMisread := by decide
  exact ⟨⟨snake, plain⟩, (parse_snake formats snake).2 plain⟩

/-- The second two of the first four underscores open strong emphasis, which the first two of the other four
close. -/
theorem Document.parse_fourUnderscores :
    let formats : Formats := { json := fun _ => .ok .null, yaml := fun _ => .ok .null }
    let w : Text := "a____b____c".toList
    w.IsSnake ∧ parse formats w = .ok
      (ofBlocks [.paragraph [.text "a__", .strong [.text "b"], .text "__c"] ⟨0, 11⟩]) :=
  ⟨by decide, rfl⟩

end Folio
