import Mathlib.Data.List.Chain
import Folio.Proofs.Markup.InlineSpans

/-!
# Reading marks of emphasis

The inline content of a text is read token by token. Here reading is followed over the characters:
`Inline.run` reads a text from an offset on, and one lemma for each kind of token says what is left
to do after it.

* `Style` is a kind of emphasis with its mark;
* `Style.leads_marked`: marks one inside the other are read to content of one kind inside the other,
  unless two neighbours are marked with stars;
* `Style.leads_stars`: a run of three stars is read differently.
-/

namespace Folio

namespace Lexeme

variable {resume at_ : Nat} {before : Option Char} {c : Char} {w rest : Text} {token : Token}

/-- Characters of a token before are passed over. -/
theorem readFrom_passed (le : at_ + Text.bytes w ≤ resume) :
    readFrom resume before at_ (w ++ rest) =
      readFrom resume (w.getLast?.or before) (at_ + Text.bytes w) rest := by
  induction w generalizing before at_ with
  | nil => rfl
  | cons c w ih =>
    have size := c.utf8Size_pos
    rw [Text.bytes_cons] at le
    rw [List.cons_append, readFrom, if_pos (by omega), ih (by omega), Text.bytes_cons, Nat.add_assoc]
    congr 1
    cases w with
    | nil => rfl
    | cons d w => rw [List.getLast?_cons_cons]; simp [List.getLast?_cons]

/-- A text begins with a token. -/
theorem readFrom_cons (read : Token.read c (w ++ rest) = (token, w.length)) :
    readFrom at_ before at_ (c :: (w ++ rest)) =
      { token, start := at_, text := c :: w, before, after := rest.head? } ::
        readFrom (at_ + Text.bytes (c :: w)) (c :: w).getLast? (at_ + Text.bytes (c :: w)) rest := by
  rw [readFrom, if_neg (Nat.lt_irrefl at_), read]
  dsimp only
  rw [List.take_left, List.drop_left, Text.bytes_cons, ← Nat.add_assoc,
    readFrom_passed (Nat.le_refl _)]
  cases w with
  | nil => rfl
  | cons d w => rw [List.getLast?_cons_cons]; simp [List.getLast?_cons]

end Lexeme

namespace Inline

variable {r : Region} {st : State} {at_ : Nat} {before : Option Char} {c : Char} {w rest : Text}
  {token : Token}

/-- Reading a text from an offset on; `before` is the character before it. -/
def run (r : Region) (st : State) (before : Option Char) (at_ : Nat) (s : Text) :
    Except SyntaxError Reversed :=
  readFrom r st at_ (Lexeme.readFrom at_ before at_ s)

theorem read_eq_run (r : Region) :
    read r = (run r { frames := [], out := [] } none 0 r.text).map
      fun out => trimStart out.trimEnd.reverse := by
  rw [read, run, Lexeme.readAll]
  cases readFrom r { frames := [], out := [] } 0 (Lexeme.readFrom 0 none 0 r.text) <;> rfl

@[simp] theorem run_nil : run r st before at_ [] = .ok (State.unwind st.out st.frames) := rfl

/-- A token whose end is where reading goes on. -/
theorem run_cons {after : State} (read : Token.read c (w ++ rest) = (token, w.length))
    (taken : next r st
        { token, start := at_, text := c :: w, before, after := rest.head? }
        (Lexeme.readFrom (at_ + Text.bytes (c :: w)) (c :: w).getLast? (at_ + Text.bytes (c :: w))
          rest) =
      .ok (after, at_ + Text.bytes (c :: w))) :
    run r st before at_ (c :: (w ++ rest)) =
      run r after (c :: w).getLast? (at_ + Text.bytes (c :: w)) rest := by
  have size : at_ < at_ + Text.bytes (c :: w) := by
    have := c.utf8Size_pos
    rw [Text.bytes_cons]
    omega
  rw [run, Lexeme.readFrom_cons read, readFrom_cons, if_neg, if_neg, taken]
  · rfl
  · exact Nat.lt_irrefl at_
  · exact Nat.not_le_of_lt size

/-- Reading leads over a text to another state, with another character before what follows. -/
def Leads (r : Region) (st : State) (before : Option Char) (w rest : Text) (after : State)
    (last : Option Char) : Prop :=
  ∀ at_, run r st before at_ (w ++ rest) = run r after last (at_ + Text.bytes w) rest

namespace Leads

variable {v : Text} {mid after : State} {last last' : Option Char}

theorem trans (first : Leads r st before v (w ++ rest) mid last)
    (second : Leads r mid last w rest after last') : Leads r st before (v ++ w) rest after last' := by
  intro at_
  rw [List.append_assoc, first at_, second (at_ + Text.bytes v), Text.bytes_append, Nat.add_assoc]

end Leads

theorem next_eq_take {t : Lexeme} {ts : List Lexeme}
    (open_ : ∀ f ∈ st.frames.head?, t.ends f.stop = false) : next r st t ts = take r st t ts := by
  obtain ⟨frames, out⟩ := st
  cases frames with
  | nil => rfl
  | cons f fs =>
    rw [next]
    exact if_neg (by rw [open_ f rfl]; exact Bool.false_ne_true)

/-! ### Plain text and line feeds -/

section Plain

theorem token_read_of_plain (plain : Token.isSpecial c = false) (s : Text) :
    Token.read c s = (.text, (s.takeWhile fun c => !Token.isSpecial c).length) := by
  unfold Token.read
  split <;> first | rfl | exact absurd plain (by decide)

theorem takeWhile_plain (plain : ∀ d ∈ w, Token.isSpecial d = false)
    (next : rest.head?.all Token.isSpecial = true) :
    (w ++ rest).takeWhile (fun c => !Token.isSpecial c) = w := by
  rw [List.takeWhile_append_of_pos (by simpa using plain)]
  cases rest with
  | nil => simp
  | cons d rest =>
    have special : Token.isSpecial d = true := next
    rw [List.takeWhile_cons_of_neg (by simp [special]), List.append_nil]

/-- Characters that are no marks, up to one that is, are a piece of text. -/
theorem leads_text (filled : w ≠ []) (plain : ∀ d ∈ w, Token.isSpecial d = false)
    (next : rest.head?.all Token.isSpecial = true) :
    Leads r st before w rest (st.addText w) w.getLast? := by
  cases w with
  | nil => contradiction
  | cons c w =>
    rw [List.forall_mem_cons] at plain
    intro at_
    have read : Token.read c (w ++ rest) = (.text, w.length) := by
      rw [token_read_of_plain plain.1, takeWhile_plain plain.2 next]
    rw [List.cons_append]
    refine run_cons read ?_
    rw [next_eq_take]
    · rfl
    · intro f _
      cases f.stop <;> rfl

/-- A line feed after this content is a soft break, and nothing is removed before it. -/
def Reversed.IsTight (out : Reversed) : Prop :=
  ∀ value rest, out = .text value :: rest →
    ∃ c, value.toList.getLast? = some c ∧ isIndent c = false

theorem Reversed.IsTight.trimEnd_eq {out : Reversed} (tight : out.IsTight) :
    out.trimEnd = out := by
  unfold Reversed.trimEnd
  split
  · rename_i value rest
    obtain ⟨c, last, visible⟩ := tight value rest rfl
    obtain ⟨init, value_eq⟩ := List.getLast?_eq_some_iff.1 last
    have kept : Text.trimEndOf isIndent value.toList = value.toList := by
      rw [Text.trimEndOf, value_eq, List.reverse_append, List.reverse_singleton,
        List.singleton_append, List.dropWhile_cons_of_neg (by rw [visible]; exact Bool.false_ne_true),
        List.reverse_cons, List.reverse_reverse]
    have filled : value.toList.isEmpty = false := by
      rw [value_eq, List.isEmpty_eq_false_iff]
      simp
    dsimp only
    rw [kept, filled, String.ofList_toList]
    rfl
  · rfl

theorem Reversed.IsTight.endsInTwoSpaces_eq {out : Reversed} (tight : out.IsTight) :
    out.endsInTwoSpaces = false := by
  unfold Reversed.endsInTwoSpaces
  split
  · rename_i value rest
    obtain ⟨c, last, visible⟩ := tight value rest rfl
    obtain ⟨init, value_eq⟩ := List.getLast?_eq_some_iff.1 last
    have visible : c ≠ ' ' := by
      rintro rfl
      exact absurd visible (by decide)
    rw [value_eq, List.reverse_append]
    simp [visible]
  · rfl

theorem leads_eol (tight : st.out.IsTight) :
    Leads r st before ['\n'] rest { st with out := .softBreak :: st.out } (some '\n') := by
  intro at_
  have read : Token.read '\n' ([] ++ rest) = (.newline, ([] : Text).length) := rfl
  refine run_cons read ?_
  rw [next_eq_take]
  · simp only [take, tight.trimEnd_eq, tight.endsInTwoSpaces_eq]
    rfl
  · intro f _
    cases f.stop <;> rfl

end Plain

end Inline

/-! ### Marks -/

/-- A kind of emphasis that is marked by stars or tildes. -/
inductive Style
  | strong
  | emphasis
  | strikethrough
  deriving DecidableEq, Repr

namespace Style

/-- The mark that stands before and after. -/
def mark : Style → Text
  | strong => ['*', '*']
  | emphasis => ['*']
  | strikethrough => ['~', '~']

/-- The mark as a token. -/
def token : Style → Token
  | strong => .doubleStar
  | emphasis => .star
  | strikethrough => .doubleTilde

/-- The mark as the end of a frame. -/
def stop : Style → Stop
  | strong => .strong false
  | emphasis => .emphasis false
  | strikethrough => .strikethrough

/-- Content of this kind. -/
def content : Style → List Inline → Inline
  | strong => .strong
  | emphasis => .emphasis
  | strikethrough => .strikethrough

/-- Whether the mark is made of stars. -/
def isStarred : Style → Bool
  | strong | emphasis => true
  | strikethrough => false

variable {x y : Style} {r : Region} {st : Inline.State} {before last : Option Char} {rest w : Text}
  {d : Char}

theorem close_stop (x : Style) (children : List Inline) :
    Inline.close x.stop children = x.content children := by
  cases x <;> rfl

theorem stop_inj (same : x.stop = y.stop) : x = y := by
  cases x <;> cases y <;> first | rfl | cases same

theorem isToken_token {stop : Stop} : stop.isToken x.token = true ↔ stop = x.stop := by
  cases x <;> cases stop <;> simp [Stop.isToken, token, Style.stop, Stop.ofToken?]

/-- What follows does not make the mark longer. -/
def Ends (x : Style) (rest : Text) : Prop := x = emphasis → rest.head? ≠ some '*'

theorem exists_read (ends : x.Ends rest) :
    ∃ c w, x.mark = c :: w ∧ Token.read c (w ++ rest) = (x.token, w.length) := by
  cases x with
  | strong => exact ⟨'*', ['*'], rfl, rfl⟩
  | strikethrough => exact ⟨'~', ['~'], rfl, rfl⟩
  | emphasis =>
    refine ⟨'*', [], rfl, ?_⟩
    have single : (rest.head? == some '*') = false := by simpa using ends rfl
    show (if rest.head? == some '*' then _ else _) = _
    rw [single]
    rfl

/-- The mark at an offset as a token. -/
def lexeme (x : Style) (before : Option Char) (at_ : Nat) (rest : Text) : Lexeme :=
  { token := x.token, start := at_, text := x.mark, before, after := rest.head? }

theorem readFrom_mark (ends : x.Ends rest) (at_ : Nat) :
    Lexeme.readFrom at_ before at_ (x.mark ++ rest) =
      x.lexeme before at_ rest ::
        Lexeme.readFrom (at_ + Text.bytes x.mark) x.mark.getLast? (at_ + Text.bytes x.mark) rest := by
  obtain ⟨c, w, mark, read⟩ := exists_read ends
  rw [lexeme, mark]
  exact Lexeme.readFrom_cons read

theorem leads_mark {after : Inline.State} (ends : x.Ends rest)
    (taken : ∀ at_, Inline.next r st (x.lexeme before at_ rest)
        (Lexeme.readFrom (at_ + Text.bytes x.mark) x.mark.getLast? (at_ + Text.bytes x.mark) rest) =
      .ok (after, at_ + Text.bytes x.mark)) :
    Inline.Leads r st before x.mark rest after x.mark.getLast? := by
  obtain ⟨c, w, mark, read⟩ := exists_read ends
  intro at_
  have taken := taken at_
  rw [lexeme, mark] at taken
  rw [mark]
  exact Inline.run_cons read taken

/-! #### Marks that close -/

/-- Whether a mark that may close stands in a text. -/
def closes (x : Style) (before : Option Char) (at_ : Nat) (s : Text) : Bool :=
  (Lexeme.readFrom at_ before at_ s).any fun t => x.stop.isToken t.token && t.canClose

theorem canClose_lexeme (x : Style) (before : Option Char) (at_ : Nat) (rest : Text) :
    (x.lexeme before at_ rest).canClose = before.any (!Text.isBlankChar ·) := by
  cases x <;> simp [lexeme, Lexeme.canClose, Lexeme.isUnderscore, token]

theorem canOpen_lexeme (x : Style) (before : Option Char) (at_ : Nat) (rest : Text) :
    (x.lexeme before at_ rest).canOpen = rest.head?.any (!Text.isBlankChar ·) := by
  cases x <;> simp [lexeme, Lexeme.canOpen, Lexeme.isUnderscore, token]

theorem closes_text {at_ : Nat} (filled : w ≠ []) (plain : ∀ d ∈ w, Token.isSpecial d = false)
    (next : rest.head?.all Token.isSpecial = true) :
    x.closes before at_ (w ++ rest) = x.closes w.getLast? (at_ + Text.bytes w) rest := by
  cases w with
  | nil => contradiction
  | cons c w =>
    rw [List.forall_mem_cons] at plain
    have read : Token.read c (w ++ rest) = (.text, w.length) := by
      rw [Inline.token_read_of_plain plain.1, Inline.takeWhile_plain plain.2 next]
    have other : x.stop.isToken .text = false := by cases x <;> rfl
    rw [closes, List.cons_append, Lexeme.readFrom_cons read, List.any_cons, other, Bool.false_and,
      Bool.false_or, closes]

theorem closes_eol {at_ : Nat} :
    x.closes before at_ ('\n' :: rest) = x.closes (some '\n') (at_ + 1) rest := by
  have read : Token.read '\n' ([] ++ rest) = (.newline, ([] : Text).length) := rfl
  have other : x.stop.isToken .newline = false := by cases x <;> rfl
  have next : Lexeme.readFrom at_ before at_ ('\n' :: rest) = _ := Lexeme.readFrom_cons read
  rw [closes, next, List.any_cons, other, Bool.false_and, Bool.false_or, closes]
  rfl

theorem closes_mark {at_ : Nat} (ends : y.Ends rest) :
    x.closes before at_ (y.mark ++ rest) =
      ((decide (y = x) && before.any (!Text.isBlankChar ·)) ||
        x.closes y.mark.getLast? (at_ + Text.bytes y.mark) rest) := by
  have same : x.stop.isToken y.token = decide (y = x) := by
    cases x <;> cases y <;> rfl
  rw [closes, readFrom_mark ends, List.any_cons, canClose_lexeme, closes]
  congr 2

/-! #### What a mark does -/

theorem take_lexeme (at_ : Nat) (ts : List Lexeme) :
    Inline.take r st (x.lexeme before at_ rest) ts =
      .ok (if rest.head?.any (!Text.isBlankChar ·) &&
          ts.any (fun u => x.stop.isToken u.token && u.canClose) then st.push x.stop x.mark
        else st.addText x.mark, at_ + Text.bytes x.mark) := by
  have either : ∀ (b : Bool) (p q : Inline.State) (n : Nat),
      (if b = true then Except.ok (p, n) else Except.ok (q, n) : Except SyntaxError _) =
        .ok (if b = true then p else q, n) := by
    intro b p q n
    cases b <;> rfl
  rw [← canOpen_lexeme x before at_ rest]
  cases x <;> exact either _ _ _ _

theorem ends_lexeme {at_ : Nat} {stop : Stop} :
    (x.lexeme before at_ rest).ends stop = true ↔
      stop = x.stop ∧ before.any (!Text.isBlankChar ·) = true := by
  have not_link : x.stop ≠ .linkText := by cases x <;> nofun
  rw [Lexeme.ends, Bool.and_eq_true, canClose_lexeme]
  constructor
  · rintro ⟨token, closes⟩
    obtain rfl := isToken_token.1 token
    simpa [not_link] using closes
  · rintro ⟨rfl, closes⟩
    exact ⟨isToken_token.2 rfl, by simp [closes]⟩

section Steps

variable (ends : x.Ends rest)

include ends

theorem leads_take (other : ∀ f ∈ st.frames.head?, f.stop ≠ x.stop) (after : Inline.State)
    (taken : ∀ at_, (if rest.head?.any (!Text.isBlankChar ·) && x.closes x.mark.getLast? at_ rest
      then st.push x.stop x.mark else st.addText x.mark) = after) :
    Inline.Leads r st before x.mark rest after x.mark.getLast? := by
  refine leads_mark ends fun at_ => ?_
  rw [Inline.next_eq_take, take_lexeme, ← taken (at_ + Text.bytes x.mark)]
  · rfl
  · intro f mem
    rw [← Bool.not_eq_true, ends_lexeme]
    exact fun both => other f mem both.1

/-- A mark opens a frame if something follows it directly and it is found again. -/
theorem leads_open (follows : rest.head?.any (!Text.isBlankChar ·) = true)
    (other : ∀ f ∈ st.frames.head?, f.stop ≠ x.stop)
    (closed : ∀ at_, x.closes x.mark.getLast? at_ rest = true) :
    Inline.Leads r st before x.mark rest (st.push x.stop x.mark) x.mark.getLast? :=
  leads_take ends other _ fun at_ => by rw [follows, closed at_]; rfl

/-- A mark that is not found again is plain text. -/
theorem leads_literal (other : ∀ f ∈ st.frames.head?, f.stop ≠ x.stop)
    (single : ∀ at_, x.closes x.mark.getLast? at_ rest = false) :
    Inline.Leads r st before x.mark rest (st.addText x.mark) x.mark.getLast? :=
  leads_take ends other _ fun at_ => by rw [single at_, Bool.and_false]; rfl

/-- A mark directly after something ends the frame that waits for it. -/
theorem leads_close {f : Inline.Frame} {fs : List Inline.Frame}
    (filled : before.any (!Text.isBlankChar ·) = true) (frames : st.frames = f :: fs)
    (waits : f.stop = x.stop) :
    Inline.Leads r st before x.mark rest
      { frames := fs, out := x.content st.out.reverse :: f.outer } x.mark.getLast? := by
  refine leads_mark ends fun at_ => ?_
  have ended : (x.lexeme before at_ rest).ends f.stop = true := ends_lexeme.2 ⟨waits, filled⟩
  rw [Inline.next, frames]
  dsimp only
  rw [if_pos ended, Inline.endFrame, waits, ← close_stop]
  cases x <;> rfl

end Steps

/-! ### Marks inside marks -/

/-- A text with marks around it, the first one outermost. -/
def marked : List Style → Text → Text
  | [], s => s
  | x :: xs, s => x.mark ++ (marked xs s ++ x.mark)

/-- The content that such a text stands for. -/
def wrapped : List Style → Text → Inline
  | [], s => .text (String.ofList s)
  | x :: xs, s => x.content [wrapped xs s]

/-- Neighbours are marked with different characters. -/
def Apart (xs : List Style) : Prop := xs.IsChain fun x y => x.isStarred ≠ y.isStarred

instance (xs : List Style) : Decidable (Apart xs) := inferInstanceAs (Decidable (xs.IsChain _))

theorem ne_of_mem_head? {xs : List Style} (apart : Apart (x :: xs)) (next : y ∈ xs.head?) :
    x ≠ y := by
  cases xs with
  | nil => cases next
  | cons z xs =>
    cases next
    rintro rfl
    exact (List.isChain_cons_cons.1 apart).1 rfl

/-- Text in which marks may be put: it holds none, and no white space at its ends. -/
structure IsPhrase (s : Text) : Prop where
  plain : ∀ d ∈ s, Token.isSpecial d = false
  starts : s.head?.any (!Text.isBlankChar ·) = true
  stops : s.getLast?.any (!Text.isBlankChar ·) = true

section Marked

variable {s : Text} {xs : List Style}

/-- What follows may stand after marked text: it makes neither the last mark nor the text longer. -/
def Meets : List Style → Text → Prop
  | [], rest => rest.head?.all Token.isSpecial = true
  | x :: _, rest => x.isStarred = true → rest.head? ≠ some '*'

theorem Meets.ends (h : Meets (x :: xs) rest) : x.Ends rest := by
  rintro rfl
  exact h rfl

theorem visible_mark_head (x : Style) (rest : Text) :
    (x.mark ++ rest).head?.any (!Text.isBlankChar ·) = true := by
  cases x <;> rfl

theorem visible_mark_last (x : Style) : x.mark.getLast?.any (!Text.isBlankChar ·) = true := by
  cases x <;> rfl

theorem special_mark_head (x : Style) (rest : Text) :
    (x.mark ++ rest).head?.all Token.isSpecial = true := by
  cases x <;> rfl

theorem IsPhrase.ne_nil (word : IsPhrase s) : s ≠ [] := by
  rintro rfl
  exact Bool.false_ne_true word.starts

theorem IsPhrase.head?_append (word : IsPhrase s) (rest : Text) : (s ++ rest).head? = s.head? :=
  List.head?_append_of_ne_nil s word.ne_nil

theorem visible_head (word : IsPhrase s) (xs : List Style) (rest : Text) :
    (marked xs s ++ rest).head?.any (!Text.isBlankChar ·) = true := by
  cases xs with
  | nil =>
    rw [marked, word.head?_append]
    exact word.starts
  | cons x xs =>
    rw [marked, List.append_assoc]
    exact visible_mark_head x _

theorem getLast?_marked_cons (x : Style) (xs : List Style) (s : Text) :
    (marked (x :: xs) s).getLast? = x.mark.getLast? := by
  rw [marked, ← List.append_assoc, List.getLast?_append]
  cases x <;> rfl

theorem visible_last (word : IsPhrase s) (xs : List Style) :
    (marked xs s).getLast?.any (!Text.isBlankChar ·) = true := by
  cases xs with
  | nil => exact word.stops
  | cons x xs =>
    rw [getLast?_marked_cons]
    exact visible_mark_last x

/-- A mark before marked text that it is not a neighbour of its own kind of is whole. -/
theorem ends_marked (word : IsPhrase s) (apart : Apart (x :: xs)) (rest : Text) :
    x.Ends (marked xs s ++ rest) := by
  rintro rfl
  cases xs with
  | nil =>
    rw [marked, word.head?_append]
    intro star
    exact absurd (word.plain _ (List.mem_of_head? star)) (by decide)
  | cons y xs =>
    have other := (List.isChain_cons_cons.1 apart).1
    cases y with
    | strong => exact absurd rfl other
    | emphasis => exact absurd rfl other
    | strikethrough => nofun

theorem meets_mark (apart : Apart (x :: xs)) (rest : Text) : Meets xs (x.mark ++ rest) := by
  cases xs with
  | nil => exact special_mark_head x rest
  | cons y xs =>
    have other := (List.isChain_cons_cons.1 apart).1
    intro starred
    cases x with
    | strong => exact absurd starred.symm other
    | emphasis => exact absurd starred.symm other
    | strikethrough => nofun

/-- A mark that closes after marked text closes. -/
theorem closes_marked {at_ : Nat} (word : IsPhrase s) (apart : Apart xs) (meets : Meets xs rest)
    (later : ∀ last at_, last.any (!Text.isBlankChar ·) = true → x.closes last at_ rest = true) :
    x.closes before at_ (marked xs s ++ rest) = true := by
  induction xs generalizing before at_ rest with
  | nil =>
    rw [marked, closes_text word.ne_nil word.plain meets]
    exact later _ _ word.stops
  | cons y xs ih =>
    rw [marked, List.append_assoc, List.append_assoc, closes_mark (ends_marked word apart _),
      Bool.or_eq_true]
    refine .inr (ih apart.of_cons (meets_mark apart rest) fun last at_ _ => ?_)
    rw [closes_mark meets.ends, Bool.or_eq_true]
    exact .inr (later _ _ (visible_mark_last y))

theorem closes_own {at_ : Nat} (ends : x.Ends rest)
    (visible : last.any (!Text.isBlankChar ·) = true) : x.closes last at_ (x.mark ++ rest) = true := by
  rw [closes_mark ends, visible, decide_eq_true rfl]
  rfl

/-- **Marks one inside the other** are read to content of one kind inside the other. -/
theorem leads_marked (word : IsPhrase s) (apart : Apart xs) (meets : Meets xs rest)
    (fresh : xs = [] → st.out = [])
    (other : ∀ f ∈ st.frames.head?, ∀ x ∈ xs.head?, f.stop ≠ x.stop) :
    Inline.Leads r st before (marked xs s) rest (st.add (wrapped xs s)) (marked xs s).getLast? := by
  induction xs generalizing st before rest with
  | nil =>
    have added : st.addText s = st.add (wrapped [] s) := by
      rw [Inline.State.addText, Inline.State.add, fresh rfl, Inline.Reversed.addText,
        if_neg (by simpa using word.ne_nil)]
      · rfl
      · nofun
    rw [marked, ← added]
    exact Inline.leads_text word.ne_nil word.plain meets
  | cons x xs ih =>
    have whole := meets.ends
    have opens : Inline.Leads r st before x.mark (marked xs s ++ x.mark ++ rest)
        (st.push x.stop x.mark) x.mark.getLast? := by
      rw [List.append_assoc]
      refine leads_open (ends_marked word apart _) (visible_head word xs _) (fun f mem => ?_) ?_
      · exact other f mem x rfl
      · intro at_
        exact closes_marked word apart.of_cons (meets_mark apart rest) fun last at_ visible =>
          closes_own whole visible
    have inside : Inline.Leads r (st.push x.stop x.mark) x.mark.getLast? (marked xs s)
        (x.mark ++ rest) ((st.push x.stop x.mark).add (wrapped xs s)) (marked xs s).getLast? :=
      ih apart.of_cons (meets_mark apart rest) (fun _ => rfl) fun f mem y next => by
        cases mem
        exact fun same => ne_of_mem_head? apart next (stop_inj same)
    have closed : Inline.Leads r ((st.push x.stop x.mark).add (wrapped xs s))
        (marked xs s).getLast? x.mark rest _ x.mark.getLast? :=
      leads_close whole (visible_last word xs) rfl rfl
    rw [getLast?_marked_cons]
    exact opens.trans (inside.trans closed)

/-- A text between three stars on each side. -/
def stars (xs : List Style) (s : Text) : Text :=
  strong.mark ++ (emphasis.mark ++ (marked xs s ++ (strong.mark ++ emphasis.mark)))

/-- What is read of it, but for the first two stars, which are plain text. -/
def starred (xs : List Style) (s : Text) : Inline :=
  .emphasis (Inline.Reversed.addText [wrapped xs s] strong.mark).reverse

/-- **Three stars** on each side. The first two open a frame that the two on the other side do not
close, for the frame that the third star opens comes first: they are plain text in it. -/
theorem leads_stars (word : IsPhrase s) (apart : Apart (emphasis :: xs))
    (whole : rest.head? ≠ some '*') (single : ∀ last at_, strong.closes last at_ rest = false)
    (other : ∀ f ∈ st.frames.head?, f.stop ≠ strong.stop) :
    Inline.Leads r st before (stars xs s) rest
      { frames := ⟨strong.stop, strong.mark, st.out⟩ :: st.frames, out := [starred xs s] }
      emphasis.mark.getLast? := by
  have alone : ∀ rest, strong.Ends rest := fun _ => nofun
  have ends : emphasis.Ends rest := fun _ => whole
  have apart' : Apart (strong :: xs) := by
    cases xs with
    | nil => exact .singleton _
    | cons x xs => exact .cons_cons (List.isChain_cons_cons.1 apart).1 apart.of_cons
  have meets : ∀ rest, Meets xs (strong.mark ++ rest) := meets_mark apart'
  -- the states after each of the five steps
  let first := st.push strong.stop strong.mark
  let second := first.push emphasis.stop emphasis.mark
  let third := second.add (wrapped xs s)
  let fourth := third.addText strong.mark
  have opens : Inline.Leads r st before strong.mark
      ((emphasis.mark ++ (marked xs s ++ (strong.mark ++ emphasis.mark))) ++ rest)
      first strong.mark.getLast? := by
    simp only [List.append_assoc]
    refine leads_open (alone _) (visible_mark_head _ _) other fun at_ => ?_
    rw [closes_mark (ends_marked word apart _), Bool.or_eq_true]
    refine .inr (closes_marked word apart.of_cons (meets _) fun last at_ visible => ?_)
    exact closes_own (alone _) visible
  have opens' : Inline.Leads r first strong.mark.getLast? emphasis.mark
      ((marked xs s ++ (strong.mark ++ emphasis.mark)) ++ rest)
      second emphasis.mark.getLast? := by
    simp only [List.append_assoc]
    refine leads_open (ends_marked word apart _) (visible_head word xs _) ?_ fun at_ => ?_
    · rintro f ⟨⟩
      nofun
    · refine closes_marked word apart.of_cons (meets _) fun last at_ visible => ?_
      rw [closes_mark (alone _), Bool.or_eq_true]
      exact .inr (closes_own ends (visible_mark_last strong))
  have inside : Inline.Leads r second emphasis.mark.getLast? (marked xs s)
      (strong.mark ++ (emphasis.mark ++ rest)) third (marked xs s).getLast? := by
    refine leads_marked word apart.of_cons (meets _) (fun _ => rfl) fun f mem y next => ?_
    cases mem
    exact fun same => ne_of_mem_head? apart next (stop_inj same)
  have literal : Inline.Leads r third (marked xs s).getLast? strong.mark (emphasis.mark ++ rest)
      fourth strong.mark.getLast? := by
    refine leads_literal (alone _) ?_ fun at_ => ?_
    · rintro f ⟨⟩
      nofun
    · rw [closes_mark ends, single]
      rfl
  have closed : Inline.Leads r fourth strong.mark.getLast? emphasis.mark rest _
      emphasis.mark.getLast? := leads_close ends rfl rfl rfl
  rw [← List.append_assoc] at inside
  exact opens.trans (opens'.trans (inside.trans (literal.trans closed)))

end Marked

end Style
end Folio
