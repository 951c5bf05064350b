import Folio.Proofs.Markup.InlineSpans

/-!
# What is read of inline content

The marks of the markup are white space, ASCII digits and ASCII punctuation. Of a class of
characters that holds none of these, reading inline content loses, repeats and moves no character:
what the content says, in document order, has the same characters of the class as the text that it
is read from. Main statements:

* `Text.IsUnmarked`: a class of characters that no mark is made of;
* `Token.spelled_read`: how each token is spelled;
* `Inline.read_kept`: the characters of such a class in the inline content of a text.
-/

namespace Folio

/-! ### Characters that are kept -/

namespace Text

/-- The characters that marks are made of: white space, ASCII digits and ASCII punctuation. -/
def isMark (c : Char) : Bool := isBlankChar c || c.isDigit || Inline.isPunctuation c

/-- A class of characters that no mark is made of. -/
def IsUnmarked (p : Char → Bool) : Prop := ∀ c, isMark c = true → p c = false

variable {p q : Char → Bool} {s : Text}

/-- The text without characters at its start that are not in the class. -/
theorem filter_dropWhile (outside : ∀ c, q c = true → p c = false) :
    (s.dropWhile q).filter p = s.filter p := by
  induction s with
  | nil => rfl
  | cons c s ih =>
    rw [List.dropWhile_cons]
    split
    · rename_i dropped
      rw [ih, List.filter_cons_of_neg (by simp [outside c dropped])]
    · rfl

theorem filter_trimEndOf (outside : ∀ c, q c = true → p c = false) :
    (trimEndOf q s).filter p = s.filter p := by
  rw [trimEndOf, List.filter_reverse, filter_dropWhile outside, ← List.filter_reverse,
    List.reverse_reverse]

/-- What follows a later offset ends what follows an earlier one. -/
theorem IsRest.isSuffix {v w : Text} {m n : Nat} (first : s.IsRest m v) (second : s.IsRest n w)
    (le : m ≤ n) : w <:+ v := by
  rw [second.unique (first.dropBytes second.isBoundary le)]
  exact ⟨takeBytes v (n - m), takeBytes_append_dropBytes ..⟩

namespace IsUnmarked

variable (h : IsUnmarked p)

include h

theorem blank {c : Char} (blank : isBlankChar c = true) : p c = false :=
  h c (by simp [isMark, blank])

theorem indent {c : Char} (indent : isIndent c = true) : p c = false := by
  rw [isIndent, Bool.or_eq_true, beq_iff_eq, beq_iff_eq] at indent
  rcases indent with rfl | rfl <;> exact h _ rfl

theorem filter_trim : (trim s).filter p = s.filter p := by
  rw [trim, trimEnd, filter_trimEndOf fun _ => h.blank, trimStart, filter_dropWhile fun _ => h.blank]

theorem filter_eq_nil (marks : ∀ c ∈ s, isMark c = true) : s.filter p = [] :=
  List.filter_eq_nil_iff.2 fun c mem => by simp [h c (marks c mem)]

end IsUnmarked

/-! Letters are no marks: what is both a mark and a letter or digit is an ASCII digit. -/

/-- No white space past ASCII is a letter. -/
theorem inRanges_letterRanges_of_blank : ∀ n ∈ [0x85, 0xA0, 0x1680, 0x2000, 0x2001, 0x2002, 0x2003,
    0x2004, 0x2005, 0x2006, 0x2007, 0x2008, 0x2009, 0x200A, 0x2028, 0x2029, 0x202F, 0x205F, 0x3000],
    (letterRanges.any fun (lo, hi) => lo ≤ n && n ≤ hi) = false := by
  decide +kernel

theorem isDigit_of_isMark {c : Char} (mark : isMark c = true) (letter : isLetter c = true) :
    c.isDigit = true := by
  unfold isLetter at letter
  split at letter
  · rename_i ascii
    unfold Char.isAlphanum Char.isAlpha Char.isUpper Char.isLower at letter
    simp only [isMark, isBlankChar, Inline.isPunctuation, Char.isDigit, Char.toNat,
      Bool.or_eq_true, Bool.and_eq_true, decide_eq_true_eq, beq_iff_eq, ge_iff_le,
      UInt32.le_iff_toNat_le, ← UInt32.toNat_inj, UInt32.reduceToNat, Char.reduceVal]
      at mark letter ascii ⊢
    omega
  · rename_i past
    rw [inRanges, inRanges_letterRanges_of_blank c.toNat] at letter
    · cases letter
    · simp only [isMark, isBlankChar, Inline.isPunctuation, Char.isDigit, Char.toNat,
        Bool.or_eq_true, Bool.and_eq_true, decide_eq_true_eq, beq_iff_eq, ge_iff_le,
        UInt32.le_iff_toNat_le, ← UInt32.toNat_inj, UInt32.reduceToNat, Char.reduceVal] at mark past
      simp only [List.mem_cons, List.not_mem_nil, or_false, Char.toNat]
      omega

/-- A class of letters without ASCII digits. -/
theorem isUnmarked_of_isLetter
    (letters : ∀ c, p c = true → isLetter c = true ∧ c.isDigit = false) : IsUnmarked p := by
  intro c mark
  rw [← Bool.not_eq_true]
  intro among
  obtain ⟨letter, digit⟩ := letters c among
  rw [isDigit_of_isMark mark letter] at digit
  cases digit

end Text

/-! ### Spelling -/

/-- The characters of a token. -/
def Token.Spelled : Token → Text → Prop
  | .doubleStar, w => w = ['*', '*']
  | .doubleUnderscore, w => w = ['_', '_']
  | .doubleTilde, w => w = ['~', '~']
  | .star, w => w = ['*']
  | .underscore, w => w = ['_']
  | .backticks _, w => ∀ c ∈ w, c = '\x60'
  | .imageOpen, w => w = ['!', '[']
  | .bracket, w => w = ['[']
  | .linkTarget, w => w = [']', '(']
  | .closeBracket, w => w = [']']
  | .closeParen, w => w = [')']
  | .brace, w => w = ['{']
  | .closeBrace, w => w = ['}']
  | .widgetOpen, w => ∃ c, isUpper c = true ∧ w = ['<', c]
  | .hardBreak, w => w = ['\\', '\n'] ∨ w = ['\\', '\r', '\n']
  | .escape, w => ∃ c, w = ['\\', c]
  | .newline, w => w = ['\n'] ∨ w = ['\r', '\n']
  | .text, _ => True
  | .punct, _ => True

/-- Whether a token is made of marks only. A backslash may escape anything. -/
def Token.isMark : Token → Bool
  | .text => false
  | .punct => false
  | .escape => false
  | .widgetOpen => false
  | _ => true

/-- A second character that is looked for is the next one. -/
theorem Token.take_one {s : Text} {d : Char} (next : (s.head? == some d) = true) :
    s.take 1 = [d] := by
  obtain ⟨t, rfl⟩ := List.head?_eq_some_iff.1 (beq_iff_eq.1 next)
  rfl

theorem Token.spelled_read (c : Char) (s : Text) :
    (Token.read c s).1.Spelled (c :: s.take (Token.read c s).2) := by
  unfold Token.read
  -- most tokens are one known character, or two
  split <;> try split
  all_goals first
    | trivial
    | rfl
    | exact congrArg (_ :: ·) (take_one ‹_›)
    | skip
  · -- a run of backticks
    refine List.forall_mem_cons.2 ⟨rfl, fun c mem => ?_⟩
    rw [← List.prefix_iff_eq_take.1 (List.takeWhile_prefix _)] at mem
    exact beq_iff_eq.1 (List.all_eq_true.1 List.all_takeWhile c mem)
  · rename_i upper
    cases s with
    | nil => cases upper
    | cons d t => exact ⟨d, upper, rfl⟩
  · exact .inl rfl
  · exact .inr rfl
  · exact ⟨_, rfl⟩
  · exact .inl rfl
  · exact .inr (congrArg (_ :: ·) (take_one ‹_›))

namespace Lexeme

/-- The tokens of a text are spelled as they are read. -/
theorem spelled_of_mem_readFrom {resume at_ : Nat} {before : Option Char} {s : Text} {t : Lexeme}
    (mem : t ∈ readFrom resume before at_ s) : t.token.Spelled t.text := by
  induction s generalizing resume before at_ with
  | nil => cases mem
  | cons c s ih =>
    rw [readFrom] at mem
    split at mem
    · exact ih mem
    · rcases List.mem_cons.1 mem with rfl | mem
      · exact Token.spelled_read c s
      · exact ih mem

variable {p : Char → Bool} {t : Lexeme}

/-- No mark is made of characters of the class. -/
theorem filter_text_of_mark (h : Text.IsUnmarked p) (spelled : t.token.Spelled t.text)
    (mark : t.token.isMark = true) : t.text.filter p = [] := by
  refine h.filter_eq_nil ?_
  cases kind : t.token with
  | text | punct | escape | widgetOpen =>
    rw [kind] at mark
    cases mark
  | backticks n =>
    rw [kind] at spelled
    intro c mem
    rw [spelled c mem]
    rfl
  | hardBreak | newline =>
    rw [kind] at spelled
    rcases spelled with eq | eq <;> rw [eq] <;> exact List.all_eq_true.1 rfl
  | _ =>
    rw [kind] at spelled
    rw [spelled]
    exact List.all_eq_true.1 rfl

/-- What a token stands for has the characters of the class that it is written with. -/
theorem filter_literal (h : Text.IsUnmarked p) (spelled : t.token.Spelled t.text)
    (other : t.token ≠ .widgetOpen) : t.literal.filter p = t.text.filter p := by
  unfold literal
  cases kind : t.token with
  | widgetOpen => exact absurd kind other
  | backticks n =>
    rw [filter_text_of_mark h spelled (by rw [kind]; rfl)]
    exact h.filter_eq_nil fun c mem => by rw [List.eq_of_mem_replicate mem]; rfl
  | hardBreak | newline =>
    rw [filter_text_of_mark h spelled (by rw [kind]; rfl)]
    exact h.filter_eq_nil (List.forall_mem_singleton.2 rfl)
  | escape =>
    rw [kind] at spelled
    obtain ⟨c, text⟩ := spelled
    show (t.text.drop 1).filter p = t.text.filter p
    rw [text]
    exact (List.filter_cons_of_neg (by simp [h '\\' rfl])).symm
  | _ => rfl

end Lexeme

/-! ### What content says -/

mutual

/-- What content says, in document order: the label of a link comes before its destination, and the
description of an image before its source. -/
def Inline.reading : Inline → Text
  | .text value => value.toList
  | .strong children => Inline.readings children
  | .emphasis children => Inline.readings children
  | .strikethrough children => Inline.readings children
  | .code value => value.toList
  | .link href children => Inline.readings children ++ href.toList
  | .image src alt => alt.toList ++ src.toList
  | .softBreak => []
  | .lineBreak => []
  | .widget (.mk _ _ children) => Block.readings children
  | .expression source _ => source.toList

/-- What pieces of content say one after another. -/
def Inline.readings : List Inline → Text
  | [] => []
  | i :: is => i.reading ++ Inline.readings is

/-- What a block says, in document order: the info string of code comes before the code. -/
def Block.reading : Block → Text
  | .heading _ children _ => Inline.readings children
  | .paragraph children _ => Inline.readings children
  | .quote children _ => Block.readings children
  | .list _ _ _ items _ => ListItem.readings items
  | .code info code _ => (info.getD "").toList ++ code.toList
  | .thematicBreak _ => []
  | .widget _ _ children => Block.readings children

/-- What blocks say one after another. -/
def Block.readings : List Block → Text
  | [] => []
  | b :: bs => b.reading ++ Block.readings bs

/-- What a list item says. -/
def ListItem.reading : ListItem → Text
  | .mk children _ => Block.readings children

/-- What list items say one after another. -/
def ListItem.readings : List ListItem → Text
  | [] => []
  | i :: is => i.reading ++ ListItem.readings is

end

namespace Inline

theorem readings_append (is js : List Inline) : readings (is ++ js) = readings is ++ readings js := by
  induction is with
  | nil => rfl
  | cons i is ih => rw [List.cons_append, readings, readings, ih, List.append_assoc]

variable {p : Char → Bool}

/-- The characters of the class in content in reverse order. -/
def Reversed.kept (p : Char → Bool) (out : Reversed) : Text := (readings out.reverse).filter p

namespace Reversed

theorem kept_append (out out' : Reversed) : kept p (out ++ out') = kept p out' ++ kept p out := by
  rw [kept, List.reverse_append, readings_append, List.filter_append]
  rfl

theorem kept_cons (i : Inline) (out : Reversed) :
    kept p (i :: out) = kept p out ++ i.reading.filter p := by
  rw [← List.singleton_append, kept_append]
  simp [kept, readings]

theorem kept_addText (out : Reversed) (s : Text) :
    kept p (out.addText s) = kept p out ++ s.filter p := by
  unfold addText
  split
  · rename_i empty
    rw [List.isEmpty_iff.1 empty, List.filter_nil, List.append_nil]
  · split
    · rw [kept_cons, kept_cons]
      simp [reading]
    · rw [kept_cons]
      simp [reading]

theorem kept_trimEnd (h : Text.IsUnmarked p) (out : Reversed) : kept p out.trimEnd = kept p out := by
  unfold trimEnd
  split
  · rename_i value rest
    have same : (Text.trimEndOf isIndent value.toList).filter p = value.toList.filter p :=
      Text.filter_trimEndOf fun c => h.indent
    dsimp only
    rw [kept_cons, reading, ← same]
    split
    · rename_i empty
      rw [List.isEmpty_iff.1 empty, List.filter_nil, List.append_nil]
    · rw [kept_cons, reading, String.toList_ofList]
  · rfl

end Reversed

theorem filter_readings_trimStart (h : Text.IsUnmarked p) (content : List Inline) :
    (readings (trimStart content)).filter p = (readings content).filter p := by
  unfold trimStart
  split
  · rename_i value rest
    have same : (Text.trimStart value.toList).filter p = value.toList.filter p :=
      Text.filter_dropWhile fun c => h.blank
    dsimp only
    rw [readings, List.filter_append, reading, ← same]
    split
    · rename_i empty
      rw [List.isEmpty_iff.1 empty, List.filter_nil, List.nil_append]
    · rw [readings, List.filter_append, reading, String.toList_ofList]
  · rfl

theorem filter_codeText (h : Text.IsUnmarked p) (raw : Text) :
    (codeText raw).toList.filter p = raw.filter p := by
  have spaced : (raw.map fun c => if c == '\n' then ' ' else c).filter p = raw.filter p := by
    induction raw with
    | nil => rfl
    | cons c raw ih =>
      rw [List.map_cons]
      by_cases eol : c = '\n'
      · rw [eol, if_pos (beq_self_eq_true _), List.filter_cons_of_neg (by simp [h ' ' rfl]),
          List.filter_cons_of_neg (by simp [h '\n' rfl]), ih]
      · rw [if_neg (by simpa using eol), List.filter_cons, List.filter_cons, ih]
  unfold codeText
  rw [← spaced]
  generalize raw.map (fun c => if c == '\n' then ' ' else c) = s
  dsimp only
  rw [String.toList_ofList]
  split
  · rename_i ends
    rw [Bool.and_eq_true, Bool.and_eq_true, decide_eq_true_eq, beq_iff_eq, Text.endsWith,
      beq_iff_eq] at ends
    obtain ⟨⟨long, first⟩, last⟩ := ends
    obtain ⟨t, rfl⟩ := List.head?_eq_some_iff.1 first
    obtain ⟨body, eq⟩ := List.getLast?_eq_some_iff.1 last
    cases body with
    | nil =>
      rw [eq] at long
      exact absurd long (Nat.lt_irrefl _)
    | cons d body =>
      have rest_eq : t = body ++ [' '] := (List.cons.inj eq).2
      rw [rest_eq, List.drop_one, List.tail_cons, List.dropLast_concat,
        List.filter_cons_of_neg (by simp [h ' ' rfl]), List.filter_append,
        List.filter_cons_of_neg (by simp [h ' ' rfl]), List.filter_nil, List.append_nil]
  · rfl

theorem filter_source (h : Text.IsUnmarked p) {e body : Text} (e_eq : e = '{' :: (body ++ ['}'])) :
    (Expression.source e).toList.filter p = e.filter p := by
  have inside : (e.drop 1).dropLast = body := by
    rw [e_eq, List.drop_one, List.tail_cons, List.dropLast_concat]
  rw [Expression.source, inside, String.toList_ofList, h.filter_trim, e_eq,
    List.filter_cons_of_neg (by simp [h '{' rfl]), List.filter_append,
    List.filter_cons_of_neg (by simp [h '}' rfl]), List.filter_nil, List.append_nil]

/-! ### States -/

namespace State

theorem unwind_append (out out' : Reversed) (frames : List Frame) :
    unwind (out ++ out') frames = out ++ unwind out' frames := by
  induction frames generalizing out' with
  | nil => rfl
  | cons f fs ih => rw [unwind, unwind, List.append_assoc, ih]

/-- The characters of the class in a state, as if nothing more were read. -/
def kept (p : Char → Bool) (st : State) : Text := Reversed.kept p (unwind st.out st.frames)

/-- No opening mark has characters of the class. -/
def Quiet (p : Char → Bool) (st : State) : Prop := ∀ f ∈ st.frames, f.opener.filter p = []

theorem kept_eq (st : State) : st.kept p =
    Reversed.kept p (unwind [] st.frames) ++ Reversed.kept p st.out := by
  rw [kept, ← List.append_nil st.out, unwind_append, Reversed.kept_append, List.append_nil]

theorem kept_unwind_cons {f : Frame} {fs : List Frame} (quiet : f.opener.filter p = []) :
    Reversed.kept p (unwind [] (f :: fs)) =
      Reversed.kept p (unwind [] fs) ++ Reversed.kept p f.outer := by
  rw [unwind, List.nil_append, ← List.append_nil (f.outer.addText f.opener), unwind_append,
    Reversed.kept_append, Reversed.kept_addText, quiet, List.append_nil]

theorem kept_add (st : State) (i : Inline) : (st.add i).kept p = st.kept p ++ i.reading.filter p := by
  rw [kept_eq, kept_eq, add, Reversed.kept_cons, List.append_assoc]

theorem kept_addText (st : State) (s : Text) : (st.addText s).kept p = st.kept p ++ s.filter p := by
  rw [kept_eq, kept_eq, addText, Reversed.kept_addText, List.append_assoc]

theorem kept_push (st : State) (stop : Stop) {opener : Text} (quiet : opener.filter p = []) :
    (st.push stop opener).kept p = st.kept p := by
  rw [kept_eq, kept_eq, push, kept_unwind_cons quiet]
  exact List.append_nil _

end State

/-! ### Reading -/

section Reading

variable {r : Region} {st : State} {t : Lexeme} {ts : List Lexeme}

/-- Tokens that stand in a text, spelled as they are read. -/
structure Tokens (s : Text) (ts : List Lexeme) : Prop where
  stand : Lexeme.Stand s ts
  spelled : ∀ t ∈ ts, t.token.Spelled t.text

theorem Tokens.of_suffix {s : Text} {us : List Lexeme} (h : Tokens s ts) (suffix : us <:+ ts) :
    Tokens s us :=
  ⟨h.stand.of_suffix suffix, fun t mem => h.spelled t (suffix.subset mem)⟩

/-- What follows a token. -/
theorem Tokens.isRest {s : Text} (h : Tokens s (t :: ts)) : s.IsRest t.stop (Lexeme.join ts) := by
  have rest := h.stand.1
  rw [Lexeme.join, List.flatMap_cons] at rest
  exact rest.append

theorem Tokens.mark {s : Text} (h : Tokens s (t :: ts)) (unmarked : Text.IsUnmarked p)
    (mark : t.token.isMark = true) : t.text.filter p = [] :=
  Lexeme.filter_text_of_mark unmarked (h.spelled t List.mem_cons_self) mark

theorem join_cons (t : Lexeme) (ts : List Lexeme) :
    Lexeme.join (t :: ts) = t.text ++ Lexeme.join ts := List.flatMap_cons

theorem join_append (ts us : List Lexeme) :
    Lexeme.join (ts ++ us) = Lexeme.join ts ++ Lexeme.join us := List.flatMap_append

/-- Reading goes on at an offset where the rest of some text stands, and `taken` are the characters
of the class before it. -/
def GoesOn (p : Char → Bool) (s text : Text) (taken : Text) (resume : Nat) : Prop :=
  ∃ u, s.IsRest resume u ∧ u <:+ text ∧ taken ++ u.filter p = text.filter p

/-- What becomes of a state when the token `t` before the tokens `ts` is read. -/
structure Keeps (p : Char → Bool) (s : Text) (st : State) (t : Lexeme) (ts : List Lexeme)
    (next : State × Nat) : Prop where
  quiet : next.1.Quiet p
  kept : ∃ taken, next.1.kept p = st.kept p ++ (t.text.filter p ++ taken) ∧
    GoesOn p s (Lexeme.join ts) taken next.2

/-- A token that adds its characters. -/
theorem Keeps.plain {next : State} (tokens : Tokens r.text (t :: ts)) (quiet : next.Quiet p)
    (kept : next.kept p = st.kept p ++ t.text.filter p) : Keeps p r.text st t ts (next, t.stop) where
  quiet := quiet
  kept := ⟨[], by rw [List.append_nil]; exact kept, Lexeme.join ts, tokens.isRest,
    List.suffix_refl _, rfl⟩

variable (unmarked : Text.IsUnmarked p)

include unmarked

/-- Up to a token that is a mark. -/
theorem goesOn_close {inside after : List Lexeme} {close : Lexeme}
    (tokens : Tokens r.text ts) (eq : ts = inside ++ close :: after)
    (mark : close.token.isMark = true) :
    GoesOn p r.text (Lexeme.join ts) ((Lexeme.join inside).filter p) close.stop := by
  have suffix : close :: after <:+ ts := ⟨inside, eq.symm⟩
  have quiet := (tokens.of_suffix suffix).mark unmarked mark
  refine ⟨Lexeme.join after, (tokens.of_suffix suffix).isRest, ?_, ?_⟩
  · rw [eq, join_append, join_cons]
    exact (List.suffix_append _ _).trans (List.suffix_append _ _)
  · rw [eq, join_append, join_cons, List.filter_append, List.filter_append, quiet, List.nil_append]

/-- The destination is what is taken. -/
theorem destination_kept (tokens : Tokens r.text ts) (target : Lexeme) :
    Outcome (fun _ => True)
      (fun found => GoesOn p r.text (Lexeme.join ts) (found.1.toList.filter p) found.2)
      (destination r target ts) := by
  unfold destination
  dsimp only
  split
  · rename_i close after found
    obtain ⟨eq, stops⟩ := eq_of_drop_length_takeWhile found
    have is_close : close.token = .closeParen := by simpa using stops
    show GoesOn p r.text (Lexeme.join ts) ((String.ofList _).toList.filter p) close.stop
    rw [String.toList_ofList, unmarked.filter_trim]
    exact goesOn_close unmarked tokens eq (by rw [is_close]; rfl)
  · trivial

/-- A token that is a mark and takes the characters after it. -/
theorem Keeps.of_mark {next : State} {resume : Nat} {taken : Text}
    (tokens : Tokens r.text (t :: ts)) (mark : t.token.isMark = true) (quiet : next.Quiet p)
    (kept : next.kept p = st.kept p ++ taken)
    (goesOn : GoesOn p r.text (Lexeme.join ts) taken resume) :
    Keeps p r.text st t ts (next, resume) where
  quiet := quiet
  kept := ⟨taken, by rw [tokens.mark unmarked mark]; exact kept, goesOn⟩

omit unmarked in
/-- The token that ends a frame is a mark. -/
theorem isMark_of_isToken {stop : Stop} {token : Token} (h : stop.isToken token = true) :
    token.isMark = true := by
  cases token with
  | text | punct | escape | widgetOpen => cases stop <;> cases h
  | _ => rfl

omit unmarked in
/-- The token that opens emphasis is a mark. -/
theorem isMark_of_ofToken? {stop : Stop} {token : Token} (h : Stop.ofToken? token = some stop) :
    token.isMark = true := by
  cases token with
  | text | punct | escape | widgetOpen => cases h
  | _ => rfl

/-- The content of a frame stays where its opening mark was. -/
theorem endFrame_kept {f : Frame} {fs : List Frame} (tokens : Tokens r.text (t :: ts))
    (frames : st.frames = f :: fs) (quiet : st.Quiet p) (ends : t.ends f.stop = true) :
    Outcome (fun _ => True) (Keeps p r.text st t ts) (endFrame r f fs st.out t ts) := by
  have mark : t.token.isMark = true := by
    rw [Lexeme.ends, Bool.and_eq_true] at ends
    exact isMark_of_isToken ends.1
  have outer : ∀ g ∈ fs, g.opener.filter p = [] := by
    intro g mem
    refine quiet g ?_
    rw [frames]
    exact List.mem_cons_of_mem f mem
  have opener : f.opener.filter p = [] := quiet f (by rw [frames]; exact List.mem_cons_self)
  have closed : ∀ (i : Inline) (taken : Text),
      i.reading.filter p = (readings st.out.reverse).filter p ++ taken →
        State.kept p { frames := fs, out := i :: f.outer } = st.kept p ++ taken := by
    intro i taken reading_eq
    rw [State.kept_eq, State.kept_eq, frames, State.kept_unwind_cons opener, Reversed.kept_cons,
      reading_eq, Reversed.kept, Reversed.kept, Reversed.kept]
    simp only [List.append_assoc]
  have done : ∀ i : Inline, i.reading = readings st.out.reverse →
      Keeps p r.text st t ts ({ frames := fs, out := i :: f.outer }, t.stop) := by
    intro i reading_eq
    refine Keeps.plain tokens outer (closed i _ ?_)
    rw [reading_eq, tokens.mark unmarked mark, List.append_nil]
  unfold endFrame
  split
  · refine (destination_kept unmarked (tokens.of_suffix (List.suffix_cons t ts)) t).bind ?_
    intro found goesOn
    refine Keeps.of_mark unmarked tokens mark outer (closed _ _ ?_) goesOn
    rw [reading, List.filter_append]
  · unfold close
    split <;> exact done _ rfl

/-- An expression has the characters between its braces. -/
theorem expression_kept {e : Text} (tokens : Tokens r.text (t :: ts)) (kind : t.token = .brace)
    (quiet : st.Quiet p) (read : Expression.read t.start (Lexeme.join (t :: ts)) = .ok e) :
    Keeps p r.text st t ts (st.add (.expression (Expression.source e)
      (r.span t.start (t.start + Text.bytes e))), t.start + Text.bytes e) := by
  have text_eq : t.text = ['{'] := by
    have spelled := tokens.spelled t List.mem_cons_self
    rwa [kind] at spelled
  have join_eq : Lexeme.join (t :: ts) = '{' :: Lexeme.join ts := by
    rw [join_cons, text_eq]
    rfl
  have rest := tokens.stand.1
  rw [join_eq] at rest read
  obtain ⟨⟨u, whole⟩, body, e_eq⟩ := (Expression.read_outcome rest).of_ok read
  cases body with
  | nil =>
    rw [e_eq] at whole
    cases whole
  | cons c body =>
    rw [e_eq] at whole
    obtain ⟨rfl, whole'⟩ := List.cons.inj whole
    have kept : (st.add (.expression (Expression.source e) (r.span t.start
        (t.start + Text.bytes e)))).kept p = st.kept p ++ e.filter p := by
      rw [State.kept_add, reading, filter_source unmarked e_eq]
    refine Keeps.of_mark unmarked tokens (by rw [kind]; rfl) quiet kept ⟨u, ?_, ?_, ?_⟩
    · rw [← whole, ← e_eq] at rest
      exact rest.append
    · exact ⟨_, whole'⟩
    · rw [← whole', e_eq, List.cons_append, List.filter_cons_of_neg (by simp [unmarked '{' rfl]),
        ← List.filter_append]
      rfl

/-- An image has the characters of its description and of its source. -/
theorem image_kept {target : Lexeme} {alt rest : List Lexeme} {src : String} {resume : Nat}
    (tokens : Tokens r.text (t :: ts)) (kind : t.token = .imageOpen) (quiet : st.Quiet p)
    (is_target : target.token = .linkTarget) (eq : ts = alt ++ target :: rest)
    (placed : destination r target rest = .ok (src, resume)) :
    Keeps p r.text st t ts (st.add (.image src (String.ofList (Lexeme.join alt))), resume) := by
  have suffix : target :: rest <:+ t :: ts := ⟨t :: alt, by rw [eq]; rfl⟩
  have target_mark := (tokens.of_suffix suffix).mark unmarked (by rw [is_target]; rfl)
  have tokens' := tokens.of_suffix ((List.suffix_cons target rest).trans suffix)
  obtain ⟨u, stands, after, whole⟩ := (destination_kept unmarked tokens' target).of_ok placed
  refine Keeps.of_mark unmarked tokens (by rw [kind]; rfl) quiet (State.kept_add _ _)
    ⟨u, stands, ?_, ?_⟩
  · rw [eq, join_append, join_cons]
    exact (after.trans (List.suffix_append _ _)).trans (List.suffix_append _ _)
  · rw [reading, String.toList_ofList, List.filter_append, List.append_assoc, whole, eq,
      join_append, join_cons, List.filter_append, List.filter_append, target_mark,
      List.nil_append]

/-- Code has the characters between its marks. -/
theorem code_kept {n : Nat} {inside after : List Lexeme} {close : Lexeme}
    (tokens : Tokens r.text (t :: ts)) (kind : t.token = .backticks n) (quiet : st.Quiet p)
    (eq : ts = inside ++ close :: after) (closes : close.token = .backticks n) :
    Keeps p r.text st t ts (st.add (.code (codeText (Lexeme.join inside))), close.stop) := by
  refine Keeps.of_mark unmarked tokens (by rw [kind]; rfl) quiet (State.kept_add _ _) ?_
  rw [reading, filter_codeText unmarked]
  exact goesOn_close unmarked (tokens.of_suffix (List.suffix_cons t ts)) eq (by rw [closes]; rfl)

/-- A mark that opens a frame is kept as what the frame is turned into when nothing ends it. -/
theorem push_kept (tokens : Tokens r.text (t :: ts)) (quiet : st.Quiet p)
    (mark : t.token.isMark = true) (other : t.token ≠ .widgetOpen) (stop : Stop) :
    Keeps p r.text st t ts (st.push stop t.literal, t.stop) := by
  have opener : t.literal.filter p = [] := by
    rw [Lexeme.filter_literal unmarked (tokens.spelled t List.mem_cons_self) other,
      tokens.mark unmarked mark]
  refine Keeps.plain tokens (List.forall_mem_cons.2 ⟨opener, quiet⟩) ?_
  rw [st.kept_push stop opener, tokens.mark unmarked mark, List.append_nil]

theorem break_kept (tokens : Tokens r.text (t :: ts)) (quiet : st.Quiet p)
    (mark : t.token.isMark = true) {i : Inline} (silent : i.reading = []) :
    Keeps p r.text st t ts ({ st with out := i :: st.out.trimEnd }, t.stop) := by
  refine Keeps.plain tokens quiet ?_
  rw [State.kept_eq, State.kept_eq, Reversed.kept_cons, Reversed.kept_trimEnd unmarked,
    silent, tokens.mark unmarked mark, List.filter_nil, List.append_nil, List.append_nil]

theorem take_kept (tokens : Tokens r.text (t :: ts)) (quiet : st.Quiet p) (angle : '<' ∉ r.text) :
    Outcome (fun _ => True) (Keeps p r.text st t ts) (take r st t ts) := by
  have spelled := tokens.spelled t List.mem_cons_self
  have other : t.token ≠ .widgetOpen := by
    intro is_open
    rw [is_open] at spelled
    obtain ⟨c, -, text_eq⟩ := spelled
    exact angle (tokens.stand.holds.mem (by rw [text_eq]; exact List.mem_cons_self))
  obtain ⟨x, took, taken⟩ := exists_taken r st t ts
  rw [took]
  cases taken with
  | text =>
    refine Keeps.plain tokens quiet ?_
    rw [State.kept_addText, Lexeme.filter_literal unmarked spelled other]
  | escaped => exact Keeps.plain tokens quiet (st.kept_addText t.text)
  | opened kind => exact push_kept unmarked tokens quiet (isMark_of_ofToken? kind) other _
  | label kind => exact push_kept unmarked tokens quiet (by rw [kind]; rfl) other _
  | code kind eq closes => exact code_kept unmarked tokens kind quiet eq closes
  | image kind found eq placed =>
    obtain ⟨-, is_target⟩ := Lexeme.suffix_of_linkTarget? found
    exact image_kept unmarked tokens kind quiet is_target eq placed
  | expression kind read => exact expression_kept unmarked tokens kind quiet read
  | widget kind => exact absurd kind other
  | lineBreak kind =>
    refine break_kept unmarked tokens quiet ?_ rfl
    rcases kind with kind | kind <;> rw [kind] <;> rfl
  | softBreak kind => exact break_kept unmarked tokens quiet (by rw [kind]; rfl) rfl
  | openImage | openBrace | closeBrace | openWidget | badTag => trivial

/-- Reading on, with `u` still to be read, keeps what has been read and the characters of `u`. -/
theorem readFrom_kept {resume : Nat} {u : Text} (tokens : Tokens r.text ts) (quiet : st.Quiet p)
    (angle : '<' ∉ r.text) (stands : r.text.IsRest resume u) (suffix : u <:+ Lexeme.join ts) :
    Outcome (fun _ => True) (fun out => Reversed.kept p out = st.kept p ++ u.filter p)
      (readFrom r st resume ts) := by
  induction ts generalizing st resume u with
  | nil =>
    obtain rfl : u = [] := List.suffix_nil.1 suffix
    exact (List.append_nil _).symm
  | cons t ts ih =>
    have tail := tokens.of_suffix (List.suffix_cons t ts)
    have whole := tokens.stand.1
    have after := tokens.isRest
    rw [readFrom_cons]
    split
    · rename_i passed
      exact ih tail quiet stands (after.isSuffix stands passed)
    · rename_i unread
      split
      · -- the token is cut down to its tail
        rename_i begun
        have u_eq : u = Text.dropBytes t.text (resume - t.start) ++ Lexeme.join ts := by
          rw [← Text.dropBytes_append_of_le (by rw [Lexeme.stop] at unread; omega), ← join_cons]
          exact stands.unique (whole.dropBytes stands.isBoundary (Nat.le_of_lt begun))
        have quiet' : (st.addText (Text.dropBytes t.text (resume - t.start))).Quiet p := quiet
        refine (ih tail quiet' after (List.suffix_refl _)).mono (fun _ _ => trivial) ?_
        intro out kept
        rw [kept, State.kept_addText, u_eq, List.filter_append, List.append_assoc]
      · rename_i not_begun
        obtain rfl : u = Lexeme.join (t :: ts) := suffix.eq_of_length_le
          (stands.isSuffix whole (Nat.le_of_not_lt not_begun)).length_le
        refine (next_outcome (take_kept unmarked tokens quiet angle) fun f fs frames ends =>
          endFrame_kept unmarked tokens frames quiet ends).bind ?_
        rintro ⟨next, resume'⟩ ⟨quiet', taken, kept', v, stands', suffix', whole'⟩
        refine (ih tail quiet' stands' suffix').mono (fun _ _ => trivial) ?_
        intro out kept
        rw [kept, kept', join_cons, List.filter_append, ← whole']
        simp only [List.append_assoc]

end Reading

/-- Reading inline content loses, repeats and moves no character of a class that no mark is made
of, if the text has no tags. -/
theorem read_kept {r : Region} (unmarked : Text.IsUnmarked p) (angle : '<' ∉ r.text) :
    Outcome (fun _ => True) (fun content => (readings content).filter p = r.text.filter p)
      (read r) := by
  have tokens : Tokens r.text (Lexeme.readAll r.text) :=
    ⟨Lexeme.stand_readAll r.text, fun _ => Lexeme.spelled_of_mem_readFrom⟩
  have join_eq : Lexeme.join (Lexeme.readAll r.text) = r.text := by
    have rest : r.text.IsRest 0 ([] ++ r.text) := Text.IsRest.refl r.text
    exact (Lexeme.stand_readFrom rest).2
  have start : State.Quiet p { frames := [], out := [] } := List.forall_mem_nil _
  refine (readFrom_kept unmarked tokens start angle (Text.IsRest.refl r.text)
    ⟨[], join_eq.symm⟩).bind ?_
  intro out kept
  show (readings (trimStart out.trimEnd.reverse)).filter p = r.text.filter p
  rw [filter_readings_trimStart unmarked, ← Reversed.kept, Reversed.kept_trimEnd unmarked]
  exact kept

end Inline
end Folio
