import Folio.Proofs.Markup.LooseBackticks
import Folio.Proofs.Markup.Underscores

/-!
# Marks that mark nothing

A mark that opens nothing and closes nothing is plain text. A frame is opened only when a token that can end it
is still to come, so a frame that is open leads to content other than text, whatever comes in between; and
content that is text alone was read without opening a frame, each token as the text that it stands for.

* `Text.cutTicks` is a text with its runs of backticks cut to eighteen;
* `Lexeme.asText` is the text that a token without effect is read to;
* `State.HasMark` holds of a state in which something other than text has been read;
* `Inline.next_cases`: one token is read as text, opens a frame or makes something other than text;
* `Inline.exists_mark_of_awaited`: what is open leads to content other than text;
* `Inline.eq_asText_of_texts`: content that is text alone is the text of its tokens;
* `Document.parse_unusedMarks`: the one text of a line whose marks mark nothing.
-/

namespace Folio

namespace Text

/-- The characters of words, and of the marks of emphasis, code, links and images. -/
def isMarkedChar (c : Char) : Bool :=
  isWordChar c || ['*', '_', '~', '\x60', '[', ']', '(', ')', '!'].contains c

/-- A line of words and marks that starts with a letter. -/
structure IsMarked (w : Text) : Prop where
  chars : ∀ c ∈ w, isMarkedChar c = true
  starts : w.head?.any Char.isAlpha = true

instance (w : Text) : Decidable w.IsMarked :=
  have : Decidable (∀ c ∈ w, isMarkedChar c = true) := List.decidableBAll _ w
  decidable_of_iff ((∀ c ∈ w, isMarkedChar c = true) ∧ w.head?.any Char.isAlpha = true)
    ⟨fun h => ⟨h.1, h.2⟩, fun h => ⟨h.chars, h.starts⟩⟩

/-! ### Cut runs -/

/-- A text in which runs of backticks are cut to eighteen, the first of them to `room`. -/
def cutTicks : Nat → Text → Text
  | _, [] => []
  | room, c :: s =>
    if c = '\x60' then if room = 0 then cutTicks 0 s else c :: cutTicks (room - 1) s
    else c :: cutTicks 18 s

variable {room : Nat} {c : Char} {u s : Text}

theorem cutTicks_cons (other : c ≠ '\x60') : cutTicks room (c :: s) = c :: cutTicks 18 s := if_neg other

theorem cutTicks_zero (s : Text) : cutTicks 0 ('\x60' :: s) = cutTicks 0 s := rfl

theorem cutTicks_succ (room : Nat) (s : Text) :
    cutTicks (room + 1) ('\x60' :: s) = '\x60' :: cutTicks room s := rfl

/-- What holds no backtick is kept, and a run after it is a new one. -/
theorem cutTicks_append (filled : u ≠ []) (free : '\x60' ∉ u) :
    cutTicks room (u ++ s) = u ++ cutTicks 18 s := by
  induction u generalizing room with
  | nil => contradiction
  | cons c u ih =>
    rw [List.mem_cons, not_or] at free
    rw [List.cons_append, cutTicks_cons (Ne.symm free.1)]
    by_cases last : u = []
    · rw [last]
      rfl
    · rw [ih last free.2]
      rfl

/-- Of a run of backticks there are kept as many as there is room for. -/
theorem cutTicks_run (room : Nat) (s : Text) :
    cutTicks room s = List.replicate (min (s.takeWhile (· == '\x60')).length room) '\x60' ++
      cutTicks 18 (s.drop (s.takeWhile (· == '\x60')).length) := by
  induction s generalizing room with
  | nil => simp [cutTicks]
  | cons c s ih =>
    by_cases tick : c = '\x60'
    · subst tick
      rw [List.takeWhile_cons_of_pos rfl, List.length_cons, List.drop_succ_cons]
      cases room with
      | zero =>
        rw [cutTicks_zero, ih 0, Nat.min_zero, Nat.min_zero]
      | succ room =>
        rw [cutTicks_succ, ih room, Nat.succ_min_succ, List.replicate_succ, List.cons_append]
    · rw [List.takeWhile_cons_of_neg (by simpa using tick), List.length_nil, Nat.zero_min, List.drop_zero,
        cutTicks_cons tick, cutTicks_cons tick]
      rfl

theorem cutTicks_sublist (room : Nat) (s : Text) : (cutTicks room s).Sublist s := by
  fun_induction cutTicks room s with
  | case1 => exact .slnil
  | case2 _ ih => exact ih.cons _
  | case3 _ _ _ ih => exact ih.cons_cons _
  | case4 _ _ _ _ ih => exact ih.cons_cons _

/-- Nothing but backticks is cut. -/
theorem filter_cutTicks {p : Char → Bool} (tick : p '\x60' = false) (room : Nat) (s : Text) :
    (cutTicks room s).filter p = s.filter p := by
  fun_induction cutTicks room s with
  | case1 => rfl
  | case2 s ih => rw [ih, List.filter_cons_of_neg (by simp [tick])]
  | case3 room s _ ih =>
    rw [List.filter_cons_of_neg (by simp [tick]), List.filter_cons_of_neg (by simp [tick]), ih]
  | case4 _ c s _ ih => rw [List.filter_cons, List.filter_cons, ih]

theorem ticks_prefix_cons {n : Nat} :
    List.replicate (n + 1) '\x60' <+: c :: s ↔ c = '\x60' ∧ List.replicate n '\x60' <+: s := by
  rw [List.replicate_succ, List.cons_prefix_cons, eq_comm]

/-- A text is kept if no run of backticks is longer than eighteen, and the first no longer than `room`. -/
theorem cutTicks_eq_iff (le : room ≤ 18) : cutTicks room s = s ↔
    ¬ List.replicate (room + 1) '\x60' <+: s ∧ ¬ List.replicate 19 '\x60' <:+: s := by
  induction s generalizing room with
  | nil => simp [cutTicks]
  | cons c s ih =>
    rw [List.infix_cons_iff, ticks_prefix_cons, ticks_prefix_cons]
    by_cases tick : c = '\x60'
    · subst tick
      cases room with
      | zero =>
        have shorter : cutTicks 0 ('\x60' :: s) ≠ '\x60' :: s := by
          intro eq
          have short := (cutTicks_sublist 0 s).length_le
          rw [← cutTicks_zero, eq, List.length_cons] at short
          omega
        simp [shorter]
      | succ room =>
        have longer : List.replicate 18 '\x60' <+: s → List.replicate (room + 1) '\x60' <+: s :=
          (List.prefix_replicate_iff.2 ⟨by rwa [List.length_replicate], by simp⟩).trans
        rw [cutTicks_succ, List.cons.injEq, ih (by omega)]
        tauto
    · rw [cutTicks_cons tick, List.cons.injEq, ih (Nat.le_refl 18)]
      have inside : List.replicate 19 '\x60' <+: s → List.replicate 19 '\x60' <:+: s := List.IsPrefix.isInfix
      tauto

/-- Without the spaces at their ends, too, a text and what is cut of it are different if a run is longer than
eighteen. -/
theorem trimEnd_cutTicks_iff :
    trimEndOf isIndent (cutTicks 18 s) = trimEndOf isIndent s ↔ ¬ List.replicate 19 '\x60' <:+: s := by
  have whole : cutTicks 18 s = s ↔ ¬ List.replicate 19 '\x60' <:+: s := by
    rw [cutTicks_eq_iff (Nat.le_refl 18)]
    exact ⟨And.right, fun short => ⟨mt List.IsPrefix.isInfix short, short⟩⟩
  rw [← whole]
  refine ⟨fun trimmed => (cutTicks_sublist 18 s).eq_of_length ?_, fun eq => by rw [eq]⟩
  -- the spaces at the end are no backticks, so as many backticks are left as there were
  have ticks : ∀ t : Text, (trimEndOf isIndent t).filter (· == '\x60') = t.filter (· == '\x60') := fun t =>
    filter_trimEndOf fun c indent => by
      rw [beq_eq_false_iff_ne]
      rintro rfl
      cases indent
  have same : (cutTicks 18 s).filter (· == '\x60') = s.filter (· == '\x60') := by
    rw [← ticks, trimmed, ticks]
  rw [List.length_eq_countP_add_countP (· == '\x60'), List.length_eq_countP_add_countP (· == '\x60') (l := s)]
  simp only [List.countP_eq_length_filter, same]
  rw [filter_cutTicks (by decide)]

end Text

open Text (isMarkedChar cutTicks cutTicks_run cutTicks_append)

/-! ### Tokens as text -/

namespace Token

variable {c : Char} {s : Text}

/-- A token does not go beyond the text. -/
theorem read_le (c : Char) (s : Text) : (read c s).2 ≤ s.length := by
  unfold read
  split <;> try split
  -- where a token takes a second character, there is one
  all_goals first
    | exact Nat.zero_le _
    | exact (List.takeWhile_prefix _).length_le
    | exact List.length_pos_of_ne_nil (by rintro rfl; contradiction)
    | simp

/-- What holds of the empty text, and of a text if it holds of what comes after its first token, holds of
every text. -/
theorem induction {motive : Text → Prop} (nil : motive [])
    (cons : ∀ (c : Char) (w rest : Text) (token : Token), read c (w ++ rest) = (token, w.length) →
      motive rest → motive (c :: (w ++ rest))) (s : Text) : motive s := by
  induction length : s.length using Nat.strong_induction_on generalizing s with
  | _ n ih =>
    cases s with
    | nil => exact nil
    | cons c s =>
      have parts := List.take_append_drop (read c s).2 s
      have taken : (s.take (read c s).2).length = (read c s).2 := List.length_take_of_le (read_le c s)
      rw [← parts]
      refine cons c _ _ (read c s).1 (by rw [parts, taken]) (ih _ ?_ _ rfl)
      rw [← length, List.length_cons, List.length_drop]
      omega

/-- Only runs of backticks and what a backslash escapes hold backticks. -/
theorem tick_not_mem_read (tick : c ≠ '\x60') (escape : c ≠ '\\') : '\x60' ∉ s.take (read c s).2 := by
  unfold read
  split <;> try split
  all_goals first
    | exact absurd rfl tick
    | exact absurd rfl escape
    | exact List.not_mem_nil
    | (rw [take_one ‹_›]; decide)
    | skip
  · rename_i upper
    cases s with
    | nil => cases upper
    | cons d s =>
      intro mem
      rw [← List.mem_singleton.1 mem] at upper
      cases upper
  · rw [← List.prefix_iff_eq_take.1 (List.takeWhile_prefix _)]
    intro mem
    cases List.mem_takeWhile_imp mem

end Token

namespace Lexeme

variable {c : Char} {w rest : Text} {token : Token} {t : Lexeme}

/-- The text that a token without effect is read to: the backslash before a letter is kept. -/
def asText (t : Lexeme) : Text :=
  if t.token = .escape ∧ t.literal.all Inline.isPunctuation = false then t.text else t.literal

/-- Tokens follow each other without gaps from an offset on. -/
def Tile : Nat → List Lexeme → Prop
  | _, [] => True
  | at_, t :: ts => t.start = at_ ∧ at_ < t.stop ∧ Tile t.stop ts

theorem tile_readFrom (at_ : Nat) (before : Option Char) (s : Text) : Tile at_ (readFrom at_ before at_ s) := by
  induction s using Token.induction generalizing at_ before with
  | nil => trivial
  | cons c w rest token read ih =>
    have size := c.utf8Size_pos
    rw [readFrom_cons read]
    refine ⟨rfl, ?_, ih _ _⟩
    rw [stop, Text.bytes_cons]
    dsimp only
    omega

/-- A token of a marked line that is no run of backticks stands for itself. -/
theorem asText_eq_text (spelled : t.token.Spelled t.text) (chars : ∀ c ∈ t.text, isMarkedChar c = true)
    (filled : t.text ≠ []) (free : '\x60' ∉ t.text) : t.asText = t.text := by
  have absent : ∀ {c}, c ∈ t.text → isMarkedChar c = false → False := by
    intro c mem other
    rw [chars c mem] at other
    cases other
  unfold asText literal
  cases kind : t.token with
  | backticks n =>
    rw [kind] at spelled
    obtain ⟨c, mem⟩ := List.exists_mem_of_ne_nil _ filled
    exact absurd (spelled c mem ▸ mem) free
  | widgetOpen =>
    rw [kind] at spelled
    obtain ⟨c, -, text⟩ := spelled
    exact (absent (text ▸ List.mem_cons_self : '<' ∈ t.text) rfl).elim
  | escape =>
    rw [kind] at spelled
    obtain ⟨c, text⟩ := spelled
    exact (absent (text ▸ List.mem_cons_self : '\\' ∈ t.text) rfl).elim
  | hardBreak =>
    rw [kind] at spelled
    obtain text | text := spelled
    · exact (absent (text ▸ List.mem_cons_self : '\\' ∈ t.text) rfl).elim
    · exact (absent (text ▸ List.mem_cons_self : '\\' ∈ t.text) rfl).elim
  | newline =>
    rw [kind] at spelled
    obtain text | text := spelled
    · exact (absent (text ▸ List.mem_cons_self : '\n' ∈ t.text) rfl).elim
    · exact (absent (text ▸ List.mem_cons_self : '\r' ∈ t.text) rfl).elim
  | _ => rfl

/-- Reading the first token as text cuts the run of backticks that it may be. -/
theorem asText_append (read : Token.read c (w ++ rest) = (token, w.length))
    (chars : ∀ d ∈ c :: w, isMarkedChar d = true) (start : Nat) (before after : Option Char) :
    asText { token, start, text := c :: w, before, after } ++ cutTicks 18 rest =
      cutTicks 18 (c :: (w ++ rest)) := by
  by_cases tick : c = '\x60'
  · subst tick
    obtain ⟨rfl, size⟩ := Prod.mk.inj read
    rw [cutTicks_run 18 ('\x60' :: (w ++ rest)), List.takeWhile_cons_of_pos rfl, List.length_cons,
      List.drop_succ_cons, size, List.drop_left]
    rfl
  · have escape : c ≠ '\\' := by
      rintro rfl
      cases chars _ List.mem_cons_self
    have free : '\x60' ∉ c :: w := by
      have others := Token.tick_not_mem_read (s := w ++ rest) tick escape
      rw [read, List.take_left] at others
      exact fun mem => (List.mem_cons.1 mem).elim (fun eq => tick eq.symm) others
    have spelled := Token.spelled_read c (w ++ rest)
    rw [read, List.take_left] at spelled
    rw [asText_eq_text spelled chars (List.cons_ne_nil c w) free, ← List.cons_append,
      cutTicks_append (List.cons_ne_nil c w) free]

/-- The tokens of a marked line as text. -/
theorem flatMap_asText {s : Text} (chars : ∀ c ∈ s, isMarkedChar c = true) (at_ : Nat) (before : Option Char) :
    (readFrom at_ before at_ s).flatMap asText = cutTicks 18 s := by
  induction s using Token.induction generalizing at_ before with
  | nil => rfl
  | cons c w rest token read ih =>
    rw [← List.cons_append, List.forall_mem_append] at chars
    rw [readFrom_cons read, List.flatMap_cons, ih chars.2, asText_append read chars.1]

end Lexeme

namespace Inline

variable {r : Region} {st : State} {t : Lexeme} {ts : List Lexeme} {after : State × Nat}

/-- Something other than text has been read. -/
def State.HasMark (st : State) : Prop :=
  ∃ i : Inline, (∀ value, i ≠ .text value) ∧ (i ∈ st.out ∨ ∃ f ∈ st.frames, i ∈ f.outer)

theorem State.HasMark.addText (h : st.HasMark) (s : Text) : (st.addText s).HasMark := by
  obtain ⟨i, marked, mem⟩ := h
  exact ⟨i, marked, mem.imp_left fun mem => mem_addText marked mem s⟩

theorem State.HasMark.push (h : st.HasMark) (stop : Stop) (opener : Text) :
    (st.push stop opener).HasMark := by
  obtain ⟨i, marked, mem | ⟨f, among, mem⟩⟩ := h
  · exact ⟨i, marked, .inr ⟨_, List.mem_cons_self, mem⟩⟩
  · exact ⟨i, marked, .inr ⟨f, List.mem_cons_of_mem _ among, mem⟩⟩

theorem State.hasMark_cons {i : Inline} (marked : ∀ value, i ≠ .text value) (frames : List Frame)
    (out : Reversed) : State.HasMark { frames, out := i :: out } :=
  ⟨i, marked, .inl List.mem_cons_self⟩

/-- Ending a frame makes something other than text. -/
theorem hasMark_of_endFrame {f : Frame} {fs : List Frame} {out : Reversed}
    (ended : endFrame r f fs out t ts = .ok after) : after.1.HasMark := by
  unfold endFrame at ended
  split at ended
  · obtain ⟨place, -, ended⟩ := exists_of_bind_eq_ok ended
    cases ended
    exact State.hasMark_cons (by nofun) _ _
  · cases ended
    refine State.hasMark_cons ?_ _ _
    unfold close
    split <;> nofun

theorem any_ends {stop : Stop} (later : (ts.any fun u => stop.isToken u.token && u.canClose) = true) :
    ts.any (·.ends stop) = true := by
  rw [List.any_eq_true] at later ⊢
  obtain ⟨u, mem, closes⟩ := later
  rw [Bool.and_eq_true] at closes
  exact ⟨u, mem, by rw [Lexeme.ends, closes.1, closes.2, Bool.or_true]; rfl⟩

/-- A token that ends no frame is read as text, opens a frame that a later token can end, or makes
something other than text. -/
theorem take_cases (took : take r st t ts = .ok after) :
    after = (st.addText t.asText, t.stop) ∨
      (∃ stop, after = (st.push stop t.literal, t.stop) ∧ ts.any (·.ends stop) = true) ∨
        after.1.HasMark := by
  obtain ⟨x, leads, taken⟩ := exists_taken r st t ts
  rw [took] at leads
  subst leads
  cases taken with
  | text _ plain =>
    left
    rw [Lexeme.asText, if_neg]
    rintro ⟨kind, other⟩
    rw [plain kind] at other
    cases other
  | escaped kind other =>
    left
    rw [Lexeme.asText, if_pos ⟨kind, other⟩]
  | opened _ later => exact .inr (.inl ⟨_, rfl, any_ends later⟩)
  | label _ found =>
    obtain ⟨suffix, is_target⟩ := Lexeme.suffix_of_linkTarget? found
    refine .inr (.inl ⟨_, rfl, List.any_eq_true.2 ⟨_, suffix.subset List.mem_cons_self, ?_⟩⟩)
    rw [Lexeme.ends, Stop.isToken, is_target]
    rfl
  | code | image | expression | widget | lineBreak | softBreak =>
    exact .inr (.inr (State.hasMark_cons (by simp) _ _))

/-- One token: it is read as text and ends nothing, opens a frame that a later token can end, or makes
something other than text. -/
theorem next_cases (read : next r st t ts = .ok after) :
    (after = (st.addText t.asText, t.stop) ∧ ∀ f ∈ st.frames.head?, t.ends f.stop = false) ∨
      (∃ stop, after = (st.push stop t.literal, t.stop) ∧ ts.any (·.ends stop) = true) ∨
        after.1.HasMark := by
  by_cases open_ : ∀ f ∈ st.frames.head?, t.ends f.stop = false
  · rw [next_eq_take open_] at read
    exact (take_cases read).imp_left fun plain => ⟨plain, open_⟩
  · obtain ⟨frames, out⟩ := st
    cases frames with
    | nil => exact absurd nofun open_
    | cons f fs =>
      have ends : t.ends f.stop = true := by simpa using open_
      simp only [next, if_pos ends] at read
      exact .inr (.inr (hasMark_of_endFrame read))

/-! ### Runs -/

variable {resume : Nat} {out : Reversed}

/-- What has been read stays. -/
theorem exists_mark_of_hasMark (h : st.HasMark) (read : readFrom r st resume ts = .ok out) :
    ∃ i ∈ out, ∀ value, i ≠ .text value := by
  induction ts generalizing st resume with
  | nil =>
    obtain ⟨i, marked, mem⟩ := h
    cases read
    exact ⟨i, mem_unwind marked mem, marked⟩
  | cons t ts ih =>
    rw [readFrom_cons] at read
    split at read
    · exact ih h read
    · split at read
      · exact ih (h.addText _) read
      · obtain ⟨after, one, rest⟩ := exists_of_bind_eq_ok read
        refine ih ?_ rest
        obtain ⟨rfl, -⟩ | ⟨stop, rfl, -⟩ | marks := next_cases one
        · exact h.addText _
        · exact h.push stop _
        · exact marks

/-- What is left of a run after its first token. -/
theorem exists_next_of_tile (tile : Lexeme.Tile resume (t :: ts))
    (read : readFrom r st resume (t :: ts) = .ok out) :
    ∃ after, next r st t ts = .ok after ∧ readFrom r after.1 after.2 ts = .ok out := by
  obtain ⟨starts, size, -⟩ := tile
  rw [readFrom_cons, if_neg (Nat.not_le_of_lt size), if_neg (by omega)] at read
  exact exists_of_bind_eq_ok read

/-- **What is open leads to a mark** if a token that can end the innermost frame is still to come. -/
theorem exists_mark_of_awaited {f : Frame} (open_ : st.frames.head? = some f)
    (later : ts.any (·.ends f.stop) = true) (tile : Lexeme.Tile resume ts)
    (read : readFrom r st resume ts = .ok out) : ∃ i ∈ out, ∀ value, i ≠ .text value := by
  induction ts generalizing st resume f with
  | nil => cases later
  | cons t ts ih =>
    obtain ⟨after, one, rest⟩ := exists_next_of_tile tile read
    obtain ⟨rfl, passed⟩ | ⟨stop, rfl, ends⟩ | marks := next_cases one
    · rw [List.any_cons, passed f open_, Bool.false_or] at later
      refine ih ?_ later tile.2.2 rest
      exact open_
    · exact ih rfl ends tile.2.2 rest
    · exact exists_mark_of_hasMark marks rest

/-- **Content that is text alone** is the text of its tokens. -/
theorem eq_asText_of_texts (frames : st.frames = []) (tile : Lexeme.Tile resume ts)
    (read : readFrom r st resume ts = .ok out) (texts : ∀ i ∈ out, ∃ value, i = .text value) :
    out = st.out.addText (ts.flatMap Lexeme.asText) := by
  have unmarked : ¬ ∃ i ∈ out, ∀ value, i ≠ .text value := by
    rintro ⟨i, mem, marked⟩
    obtain ⟨value, rfl⟩ := texts i mem
    exact marked value rfl
  induction ts generalizing st resume with
  | nil =>
    rw [readFrom, frames] at read
    cases read
    rfl
  | cons t ts ih =>
    obtain ⟨after, one, rest⟩ := exists_next_of_tile tile read
    obtain ⟨rfl, -⟩ | ⟨stop, rfl, ends⟩ | marks := next_cases one
    · rw [ih (by exact frames) tile.2.2 rest, State.addText, Style.addText_addText, List.flatMap_cons]
    · exact absurd (exists_mark_of_awaited rfl ends tile.2.2 rest) unmarked
    · exact absurd (exists_mark_of_hasMark marks rest) unmarked

end Inline

/-! ### Lines -/

/-- Text that begins with a visible character keeps all but the spaces at its end. -/
theorem Inline.trims_of_visible {c : Char} (visible : Text.isBlankChar c = false) (s : Text) :
    trimStart (Reversed.trimEnd [.text (String.ofList (c :: s))]).reverse =
      [.text (String.ofList (Text.trimEndOf isIndent (c :: s)))] := by
  have filled : Text.trimEndOf isIndent (c :: s) ≠ [] := by
    intro empty
    have blank := List.dropWhile_eq_nil_iff.1 (List.reverse_eq_nil_iff.1 empty)
    have indent := blank c (List.mem_reverse.2 List.mem_cons_self)
    rw [Text.isIndent_of_visible visible] at indent
    cases indent
  have first : (Text.trimEndOf isIndent (c :: s)).head? = some c := by
    obtain ⟨d, kept, eq⟩ := List.exists_cons_of_ne_nil filled
    have begins := Text.isPrefix_trimEndOf isIndent (c :: s)
    rw [eq, List.cons_prefix_cons] at begins
    rw [eq, begins.1]
    rfl
  have trimmed : Reversed.trimEnd [.text (String.ofList (c :: s))] =
      [.text (String.ofList (Text.trimEndOf isIndent (c :: s)))] := by
    rw [Reversed.trimEnd, String.toList_ofList]
    exact if_neg (by simpa using filled)
  rw [trimmed, List.reverse_singleton]
  exact (Style.isFresh_of_first first visible []).trimStart_eq

namespace Text.IsMarked

variable {w : Text} {r : Region} {is : List Inline} (marked : w.IsMarked)

include marked

theorem exists_first : ∃ c s, w = c :: s ∧ c.isAlpha = true := by
  obtain ⟨c, first, letter⟩ := (Option.any_eq_true _ _).1 marked.starts
  obtain ⟨s, rfl⟩ := List.head?_eq_some_iff.1 first
  exact ⟨c, s, rfl, letter⟩

theorem isQuiet : IsQuiet w := by
  obtain ⟨c, s, rfl, letter⟩ := marked.exists_first
  refine isQuiet_of_head? (c := c) ?_ (isOpener_of_isAlpha letter)
  rw [trimStart, List.dropWhile_cons_of_neg (by simp [isBlankChar_of_isAlpha letter])]
  rfl

theorem contains_eq_false {cs : List Char} (none : cs.any isMarkedChar = false) :
    ∀ c ∈ w, cs.contains c = false := fun c mem =>
  Text.contains_eq_false (marked.chars c mem) none

theorem eol_not_mem : '\n' ∉ w := fun mem => absurd (marked.chars _ mem) (by decide)

theorem scan_eq_nil : Declaration.scan w = [] := by
  obtain ⟨c, s, eq, -⟩ := marked.exists_first
  refine Declaration.scan_eq_nil_of_chars fun l mem => ?_
  rw [Line.split_of_eol_not_mem marked.eol_not_mem (eq ▸ List.cons_ne_nil c s), List.mem_singleton] at mem
  subst mem
  exact marked.contains_eq_false (by decide)

theorem body_eq : body w = w := by
  obtain ⟨c, s, rfl, letter⟩ := marked.exists_first
  exact body_of_visible (any_visible (show (some c).any Char.isAlpha = true from letter))

/-- Content of a marked line that is text alone is one text: the line without the spaces at its end, its runs
of backticks cut. -/
theorem eq_of_texts (text : r.text = w) (read : Inline.read r = .ok is)
    (texts : ∀ i ∈ is, ∃ value, i = .text value) :
    is = [.text (String.ofList (trimEndOf isIndent (cutTicks 18 w)))] := by
  obtain ⟨c, s, eq, letter⟩ := marked.exists_first
  have visible := isBlankChar_of_isAlpha letter
  rw [Inline.read_eq_run] at read
  obtain ⟨out, run, rfl⟩ := exists_of_map_eq_ok read
  -- at its ends the content loses spaces only, so there was nothing but text before, either
  have plain : ∀ i ∈ out, ∃ value, i = .text value := by
    intro i mem
    by_contra other
    rw [not_exists] at other
    have kept := Inline.mem_trimStart other (List.mem_reverse.2 (Inline.mem_trimEnd other mem))
    obtain ⟨value, text⟩ := texts i kept
    exact other value text
  have whole := Inline.eq_asText_of_texts rfl (Lexeme.tile_readFrom 0 none r.text) run plain
  have starts : c ≠ '\x60' := by
    rintro rfl
    cases letter
  rw [text, Lexeme.flatMap_asText marked.chars, eq, cutTicks_cons starts] at whole
  rw [whole, eq, cutTicks_cons starts]
  exact Inline.trims_of_visible visible _

end Text.IsMarked

/-- **Marks that mark nothing** stay in the text. A line of words and marks is read to one paragraph of nothing
but text: then it is one text, the line without the spaces at its end, and the runs of backticks in it are cut
to eighteen. So it is the line itself exactly if there are no nineteen backticks in a row. -/
theorem Document.parse_unusedMarks (formats : Formats) {w : Text} (marked : w.IsMarked) {d : Document}
    {is : List Inline} {span : Span} (read : parse formats w = .ok d) (alone : d.blocks = [.paragraph is span])
    (texts : ∀ i ∈ is, ∃ value, i = .text value) :
    is = [.text (String.ofList (Text.trimEndOf isIndent (cutTicks 18 w)))] ∧
      (is = [.text (String.ofList (Text.trimEndOf isIndent w))] ↔ ¬ List.replicate 19 '\x60' <:+: w) := by
  obtain ⟨content, text, span', paragraph⟩ :=
    exists_parse_line_eq formats marked.eol_not_mem marked.isQuiet marked.scan_eq_nil
  rw [marked.body_eq] at text
  have inner : Inline.read content = .ok is := by
    rw [paragraph] at read
    obtain ⟨is', inner, rfl⟩ := exists_of_map_eq_ok read
    injection alone with alone
    injection alone with same
    rw [← same]
    unfold Block.inlines at inner
    split at inner
    · rename_i found
      cases inner
      exact found
    · cases inner
  have whole := marked.eq_of_texts text inner texts
  refine ⟨whole, ?_⟩
  rw [whole, ← Text.trimEnd_cutTicks_iff]
  simp [String.ofList_inj]

/-- Marks of every kind, none of which opens or closes anything. -/
theorem Document.parse_unusedMarks_everyKind :
    let w : Text := "a* ![b (c] _d ~~e \x60\x60f \x60)! ".toList
    w.IsMarked ∧ ¬ List.replicate 19 '\x60' <:+: w ∧
      ∃ d is span, (parse { json := fun _ => .ok .null, yaml := fun _ => .ok .null } w = .ok d ∧
        d.blocks = [.paragraph is span] ∧ ∀ i ∈ is, ∃ value, i = .text value) ∧
          is = [.text (String.ofList (Text.trimEndOf isIndent w))] := by
  have marked : Text.IsMarked "a* ![b (c] _d ~~e \x60\x60f \x60)! ".toList := by decide
  have short : ¬ List.replicate 19 '\x60' <:+: "a* ![b (c] _d ~~e \x60\x60f \x60)! ".toList := by decide
  have read : parse { json := fun _ => .ok .null, yaml := fun _ => .ok .null }
      "a* ![b (c] _d ~~e \x60\x60f \x60)! ".toList =
        .ok (ofBlocks [.paragraph [.text "a* ![b (c] _d ~~e \x60\x60f \x60)!"] ⟨0, 26⟩]) := rfl
  have texts : ∀ i ∈ [Inline.text "a* ![b (c] _d ~~e \x60\x60f \x60)!"], ∃ value, i = .text value :=
    List.forall_mem_singleton.2 ⟨_, rfl⟩
  exact ⟨marked, short, _, _, _, ⟨read, rfl, texts⟩, (parse_unusedMarks _ marked read rfl texts).2.2 short⟩

/-- Of nineteen backticks one is lost. -/
theorem Document.parse_nineteenBackticks :
    let formats : Formats := { json := fun _ => .ok .null, yaml := fun _ => .ok .null }
    let w : Text := 'a' :: List.replicate 19 '\x60'
    (w.IsMarked ∧ Text.trimEndOf isIndent w = w) ∧ parse formats w =
      .ok (ofBlocks [.paragraph [.text (String.ofList ('a' :: List.replicate 18 '\x60'))] ⟨0, 20⟩]) :=
  ⟨by decide, rfl⟩

end Folio
