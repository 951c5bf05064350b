import Folio.Proofs.Markup.UnusedMarks

/-!
# Tokens tile their text

The forms that tokens are written in overlap: two stars are one token, a backslash escapes most characters but
not the end of a line. Still every text begins with one of the forms, and the longest of them is read, so no
character is dropped.

* `Token.Matches`: the forms of a kind of token;
* `Token.Matches.length_le`: no form that a text begins with is longer than the token that is read;
* `Lexeme.Tiling`: tokens that cover a text from its start to its end, without gaps;
* `Lexeme.tiling_readAll`: the tokens of a text tile it, each of them the longest at its place.
-/

namespace Folio

/-! ### Forms -/

namespace Token

variable {k : Token} {c : Char} {s w : Text}

/-- What the spelling of a token leaves open: how long a run of backticks is, what a backslash escapes, and
the characters that belong to no mark. -/
def Tells : Token → Text → Prop
  | .backticks n, w => 0 < n ∧ w.length = n
  | .escape, w => ∀ c ∈ w.tail, c ≠ '\r' ∧ c ≠ '\n'
  | .text, w => w ≠ [] ∧ ∀ c ∈ w, isSpecial c = false
  | .punct, w => ∃ c ∈ ['!', '~', '(', '<', '\\', '\r'], w = [c]
  | _, _ => True

/-- A text is in a form of a kind of token. -/
def Matches (k : Token) (w : Text) : Prop := k.Spelled w ∧ k.Tells w

/-- What is read has a form of its kind, so every text but the empty one begins with a form. -/
theorem matches_read (c : Char) (s : Text) :
    (read c s).1.Matches (c :: s.take (read c s).2) := by
  refine ⟨spelled_read c s, ?_⟩
  unfold read
  -- the marks are told by their spelling alone
  split <;> try split
  all_goals first
    | trivial
    | exact ⟨_, by decide, rfl⟩
    | skip
  · refine ⟨Nat.succ_pos _, ?_⟩
    dsimp only
    rw [← List.prefix_iff_eq_take.1 (List.takeWhile_prefix _), List.length_cons]
  · rename_i eol _ cr
    exact List.forall_mem_singleton.2 ⟨cr, eol⟩
  · have plain : isSpecial c = false := by simp_all [isSpecial]
    refine ⟨List.cons_ne_nil _ _, List.forall_mem_cons.2 ⟨plain, fun d mem => ?_⟩⟩
    rw [← List.prefix_iff_eq_take.1 (List.takeWhile_prefix _)] at mem
    simpa using List.mem_takeWhile_imp mem

/-- A run of characters that goes on with these is at least as long. -/
theorem length_le_takeWhile {p : Char → Bool} (holds : ∀ c ∈ w, p c = true) (rest : Text) :
    w.length ≤ ((w ++ rest).takeWhile p).length := by
  rw [List.takeWhile_append_of_pos holds, List.length_append]
  exact Nat.le_add_right ..

/-- No form that a text begins with is longer than the token that is read. -/
theorem Matches.length_le (h : k.Matches w) (begins : w <+: c :: s) : w.length ≤ (read c s).2 + 1 := by
  obtain ⟨rest, text⟩ := begins
  obtain ⟨spelled, tells⟩ := h
  cases k with
  | backticks n =>
    cases w with
    | nil => exact Nat.zero_le _
    | cons d w =>
      obtain ⟨rfl, rfl⟩ := List.cons.inj text
      obtain ⟨rfl, ticks⟩ := List.forall_mem_cons.1 spelled
      exact Nat.succ_le_succ (length_le_takeWhile (by simpa using ticks) rest)
  | text =>
    obtain ⟨-, plain⟩ := tells
    cases w with
    | nil => exact Nat.zero_le _
    | cons d w =>
      obtain ⟨rfl, rfl⟩ := List.cons.inj text
      obtain ⟨first, more⟩ := List.forall_mem_cons.1 plain
      rw [Inline.token_read_of_plain first]
      exact Nat.succ_le_succ (length_le_takeWhile (by simpa using more) rest)
  | punct =>
    obtain ⟨d, -, rfl⟩ := tells
    exact Nat.succ_le_succ (Nat.zero_le _)
  | widgetOpen =>
    obtain ⟨d, upper, rfl⟩ := spelled
    obtain ⟨rfl, rfl⟩ := List.cons.inj text
    simp [read, upper]
  | escape =>
    obtain ⟨d, rfl⟩ := spelled
    obtain ⟨rfl, rfl⟩ := List.cons.inj text
    obtain ⟨cr, eol⟩ := tells d List.mem_cons_self
    have escapes : read '\\' (d :: rest) = (.escape, 1) := by
      unfold read
      split <;> simp_all
    exact escapes ▸ Nat.le_refl 2
  | hardBreak =>
    obtain rfl | rfl := spelled
    · cases text
      rfl
    · cases text
      rfl
  | newline =>
    obtain rfl | rfl := spelled
    · cases text
      rfl
    · cases text
      rfl
  | star | underscore | bracket | closeBracket | closeParen | brace | closeBrace =>
    obtain rfl := spelled
    exact Nat.succ_le_succ (Nat.zero_le _)
  | doubleStar | doubleUnderscore | doubleTilde | imageOpen | linkTarget =>
    obtain rfl := spelled
    cases text
    exact Nat.le_refl 2

end Token

/-! ### Tilings -/

namespace Lexeme

variable {s : Text} {t : Lexeme} {ts : List Lexeme} {at_ : Nat}

/-- Tokens that cover a text: their ranges are not empty and follow each other without gaps from the start to
the end, between boundaries, and each token is what stands in its range. -/
structure Tiling (s : Text) (ts : List Lexeme) : Prop where
  filled : ∀ t ∈ ts, t.start < t.stop
  first : ∀ t ∈ ts.head?, t.start = 0
  adjacent : ts.IsChain fun t u => t.stop = u.start
  last : (ts.getLast?.map stop).getD 0 = Text.bytes s
  isCut : ∀ t ∈ ts, s.IsCut t.start t.stop
  holds : ∀ t ∈ ts, s.Holds t.start t.text

/-- A token is the longest one at its place: no other form of a token that stands there is longer. -/
structure IsLongest (s : Text) (t : Lexeme) : Prop where
  isForm : t.token.Matches t.text
  longest : ∀ (k : Token) (w : Text), k.Matches w → s.Holds t.start w → w.length ≤ t.text.length

theorem Tile.filled (tile : Tile at_ ts) : ∀ t ∈ ts, t.start < t.stop := by
  induction ts generalizing at_ with
  | nil => exact nofun
  | cons t ts ih =>
    obtain ⟨rfl, lt, more⟩ := tile
    exact List.forall_mem_cons.2 ⟨lt, ih more⟩

theorem Tile.isChain (tile : Tile at_ ts) : ts.IsChain fun t u => t.stop = u.start := by
  induction ts generalizing at_ with
  | nil => exact .nil
  | cons t ts ih =>
    obtain ⟨-, -, more⟩ := tile
    refine List.isChain_cons.2 ⟨fun u head => ?_, ih more⟩
    cases ts with
    | nil => cases head
    | cons v ts =>
      cases head
      exact more.1.symm

/-- Tokens that follow each other end where the text that they make up does. -/
theorem Tile.last (tile : Tile at_ ts) :
    (ts.getLast?.map stop).getD at_ = at_ + Text.bytes (join ts) := by
  induction ts generalizing at_ with
  | nil => rfl
  | cons t ts ih =>
    obtain ⟨rfl, -, more⟩ := tile
    have last : ((t :: ts).getLast?.map stop).getD t.start = (ts.getLast?.map stop).getD t.stop := by
      cases ts with
      | nil => rfl
      | cons u ts => rfl
    rw [last, ih more, stop, Inline.join_cons, Text.bytes_append, Nat.add_assoc]

theorem Stand.holds_of_mem (h : Stand s ts) (mem : t ∈ ts) : s.Holds t.start t.text := by
  obtain ⟨before, after, rfl⟩ := List.append_of_mem mem
  exact (h.of_suffix (List.suffix_append before _)).holds

/-- The induction is on the text that is left, token by token. -/
theorem isLongest_readFrom {u : Text} {before : Option Char} (rest : s.IsRest at_ u)
    (mem : t ∈ readFrom at_ before at_ u) : IsLongest s t := by
  induction u using Token.induction generalizing at_ before with
  | nil => cases mem
  | cons c w u token read ih =>
    rw [readFrom_cons read] at mem
    rcases List.mem_cons.1 mem with rfl | mem
    · have form := Token.matches_read c (w ++ u)
      rw [read, List.take_left] at form
      refine ⟨form, fun k v matches_ stands => ?_⟩
      obtain ⟨after, rest'⟩ := stands
      have le := matches_.length_le ⟨after, rest'.unique rest⟩
      rwa [read] at le
    · rw [← List.cons_append] at rest
      exact ih rest.append mem

theorem tiling_of_tile (tile : Tile 0 ts) (stand : Stand s ts) (text : join ts = s) : Tiling s ts where
  filled := tile.filled
  first := by
    cases ts with
    | nil => exact nofun
    | cons t ts =>
      rintro _ ⟨⟩
      exact tile.1
  adjacent := tile.isChain
  last := by rw [tile.last, text, Nat.zero_add]
  isCut := fun t mem => (stand.holds_of_mem mem).isCut
  holds := fun t mem => stand.holds_of_mem mem

/-- **Tokens tile their text.** They cover it from its start to its end without gaps, and each is the longest
at its place. Plain text has no character of a mark in it, and an escape is a backslash with the character
after it. -/
theorem tiling_readAll (s : Text) :
    Tiling s (readAll s) ∧
      ∀ t ∈ readAll s, IsLongest s t ∧
        (t.token = .text → ∀ c ∈ t.text, c ∉ "*_~\x60![]()<\x7b\x7d\\\r\n".toList) ∧
        (t.token = .escape → ∃ c, t.text = ['\\', c]) := by
  have rest : s.IsRest 0 ([] ++ s) := Text.IsRest.refl s
  have stand : Stand s (readAll s) ∧ join (readAll s) = s := stand_readFrom rest
  refine ⟨tiling_of_tile (tile_readFrom 0 none s) stand.1 stand.2, fun t mem => ?_⟩
  have longest := isLongest_readFrom (Text.IsRest.refl s) mem
  have form := longest.isForm
  refine ⟨longest, fun text c mem marks => ?_, fun escape => ?_⟩
  · rw [text] at form
    have plain := form.2.2 c mem
    rw [← Bool.not_eq_true] at plain
    exact plain (by simpa [Token.isSpecial, or_assoc] using marks)
  · rw [escape] at form
    exact form.1

/-- A letter of two bytes, an underscore that is escaped, and a backslash with nothing to escape. -/
theorem tiling_readAll_escaped :
    let s : Text := "é\\_\\".toList
    let t : Lexeme :=
      { token := .escape, start := 2, text := ['\\', '_'], before := some 'é', after := some '\\' }
    t ∈ readAll s ∧ Tiling s (readAll s) ∧ IsLongest s t ∧ ∃ c, t.text = ['\\', c] := by
  intro s t
  have mem : t ∈ readAll s := by decide
  obtain ⟨tiling, each⟩ := tiling_readAll s
  obtain ⟨longest, -, escape⟩ := each t mem
  exact ⟨mem, tiling, longest, escape rfl⟩

end Lexeme
end Folio
