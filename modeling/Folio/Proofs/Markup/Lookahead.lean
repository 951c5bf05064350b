import Mathlib.Order.Bounds.Defs
import Folio.Proofs.Markup.Literals

/-!
# Scans look no further than their end

An expression ends where, outside of its strings, as many braces have closed as have opened; a tag ends with an
angle bracket. What comes after has no part in either: the same expression and the same tag are read wherever
the text up to their end goes on differently.

* `Expression.IsEven`: texts in which every string ends and as many braces close as open;
* `Expression.stopAt_eq_ok_iff`: an expression ends at the first offset up to which the text is even;
* `OpenTag.holds_last`: the last character of a tag;
* `scans_look_no_further`: expressions and tags in a text that is cut off after them and goes on differently.
-/

namespace Folio

/-! ### Expressions -/

namespace Expression

variable {depth : Int} {at_ n : Nat} {c : Char} {s t u v w r r' e : Text}

/-- What is left of a text without its quoted strings, each of which ends. -/
inductive Bare : Text → Text → Prop
  | nil : Bare [] []
  | plain {c : Char} {s r : Text} (bare : isQuote c = false) (rest : Bare s r) : Bare (c :: s) (c :: r)
  | quoted {quote : Char} {body s r : Text} (isQuote : isQuote quote = true) (inside : Quoted quote body)
      (rest : Bare s r) : Bare (quote :: (body ++ s)) r

/-- Every quoted string ends, and outside of the strings as many braces close as open. -/
def IsEven (w : Text) : Prop := ∃ r, Bare w r ∧ r.count '}' = r.count '{'

theorem Bare.append (hs : Bare s r) (ht : Bare t r') : Bare (s ++ t) (r ++ r') := by
  induction hs with
  | nil => exact ht
  | plain bare _ ih => exact .plain bare ih
  | quoted isQuote inside _ ih =>
    rw [List.cons_append, List.append_assoc]
    exact .quoted isQuote inside ih

theorem Bare.brace (bare : Bare s r) : Bare ('{' :: (s ++ ['}'])) ('{' :: (r ++ ['}'])) :=
  .plain rfl (bare.append (.plain rfl .nil))

/-- Balanced text is even. -/
theorem Balanced.isEven (h : Balanced u) : IsEven u := by
  induction h with
  | nil => exact ⟨[], .nil, rfl⟩
  | plain opening closing bare _ ih =>
    obtain ⟨r, left, even⟩ := ih
    refine ⟨_ :: r, .plain bare left, ?_⟩
    rw [List.count_cons_of_ne closing, List.count_cons_of_ne opening, even]
  | quoted isQuote inside _ ih =>
    obtain ⟨r, left, even⟩ := ih
    exact ⟨r, .quoted isQuote inside left, even⟩
  | braced _ _ ihu ihs =>
    obtain ⟨r, left, even⟩ := ihu
    obtain ⟨r', left', even'⟩ := ihs
    refine ⟨'{' :: (r ++ ['}']) ++ r', ?_, ?_⟩
    · have whole := left.brace.append left'
      simpa using whole
    · simp [List.count_append, even, even']
      omega

theorem IsLiteral.isEven (h : IsLiteral e) : IsEven e := by
  obtain ⟨u, balanced, rfl⟩ := h
  obtain ⟨r, left, even⟩ := balanced.isEven
  refine ⟨'{' :: (r ++ ['}']), left.brace, ?_⟩
  simp [List.count_append, even]

/-- A scan goes on with a character. -/
theorem exists_scan_cons {mode mode' : Mode} {depth' : Int}
    (step : mode.next? depth at_ c = some (mode', depth'))
    (more : ∃ e, scan mode' depth' (at_ + c.utf8Size) t = .ok e ∧ e <+: s) :
    ∃ e, scan mode depth at_ (c :: t) = .ok e ∧ e <+: c :: s := by
  obtain ⟨e, scanned, begins⟩ := more
  refine ⟨c :: e, ?_, (List.prefix_cons_inj c).2 begins⟩
  rw [scan_cons, step]
  dsimp only
  rw [scanned]
  rfl

/-- A scan inside braces ends within a text that closes them, whatever follows it. -/
theorem exists_scan_of_bare {k : Nat} (bare : Bare w r) (closes : k + 1 + r.count '{' ≤ r.count '}')
    (at_ : Nat) (v : Text) : ∃ e, scan .outside (k + 1) at_ (w ++ v) = .ok e ∧ e <+: w := by
  induction bare generalizing k at_ with
  | nil => simp at closes
  | @plain c s r bare _ ih =>
    rw [List.cons_append]
    by_cases opening : c = '{'
    · subst opening
      rw [List.count_cons_self, List.count_cons_of_ne (by decide)] at closes
      exact exists_scan_cons rfl (ih (k := k + 1) (by omega) _)
    by_cases closing : c = '}'
    · subst closing
      rw [List.count_cons_self, List.count_cons_of_ne (by decide)] at closes
      cases k with
      | zero => exact ⟨['}'], rfl, List.prefix_append ['}'] s⟩
      | succ k =>
        have step : Mode.next? ((k + 1 : Nat) + 1) at_ '}' .outside = some (.outside, (k + 1 : Int)) := by
          simp [Mode.next?]
          omega
        exact exists_scan_cons step (ih (by omega) _)
    · rw [List.count_cons_of_ne closing, List.count_cons_of_ne opening] at closes
      exact exists_scan_cons (by simp [Mode.next?, opening, closing, bare]) (ih closes _)
  | @quoted quote body s r isQuote inside _ ih =>
    obtain ⟨escape, opening, closing⟩ := ne_of_isQuote isQuote
    rw [List.cons_append, List.append_assoc]
    have step : Mode.next? (k + 1) at_ quote .outside = some (.inside quote at_, (k + 1 : Int)) := by
      simp [Mode.next?, opening, closing, isQuote]
    refine exists_scan_cons step ?_
    obtain ⟨e, scanned, begins⟩ := ih closes (at_ + quote.utf8Size + Text.bytes body)
    refine ⟨body ++ e, ?_, (List.prefix_append_right_inj body).2 begins⟩
    rw [inside.passes escape, scanned]
    rfl

/-- An expression is read within every even text that begins at its brace. -/
theorem IsEven.exists_read (even : IsEven w) (starts : w.head? = some '{') (at_ : Nat) (v : Text) :
    ∃ e, read at_ (w ++ v) = .ok e ∧ e <+: w := by
  obtain ⟨r, bare, even⟩ := even
  cases bare with
  | nil => cases starts
  | @plain c s r plain more =>
    obtain rfl : c = '{' := Option.some.inj starts
    rw [List.count_cons_self, List.count_cons_of_ne (by decide)] at even
    have step : Mode.next? 0 at_ '{' .outside = some (.outside, ((0 : Nat) + 1 : Int)) := rfl
    obtain ⟨e, scanned, begins⟩ := exists_scan_cons step (exists_scan_of_bare more (by omega) _ v)
    refine ⟨e, ?_, begins⟩
    rw [read, List.cons_append, scanned]
  | @quoted quote body s r isQuote =>
    obtain rfl : quote = '{' := Option.some.inj starts
    cases isQuote

/-- The offset just past the expression at an offset. -/
def stopAt (t : Text) (o : Nat) : Except SyntaxError Nat :=
  (read o (Text.dropBytes t o)).map (o + Text.bytes ·)

section StopAt

variable {o m : Nat}

theorem stopAt_of_isRest (rest : t.IsRest o s) : stopAt t o = (read o s).map (o + Text.bytes ·) := by
  obtain ⟨before, rfl, rfl⟩ := rest
  rw [stopAt, Text.dropBytes_append]

theorem stopAt_eq_ok_iff_read (rest : t.IsRest o s) :
    stopAt t o = .ok n ↔ ∃ e, read o s = .ok e ∧ o + Text.bytes e = n := by
  rw [stopAt_of_isRest rest]
  cases read o s <;> simp [Except.map]

/-- An expression is an even text that is not empty. -/
theorem cut?_of_read (rest : t.IsRest o ('{' :: s)) (found : read o ('{' :: s) = .ok e) :
    o < o + Text.bytes e ∧ Text.cut? t o (o + Text.bytes e) = some e ∧ IsEven e := by
  obtain ⟨begins, literal⟩ := read_eq_ok_iff.1 found
  refine ⟨?_, Text.cut?_eq_some_iff.2 ⟨rest.holds_of_begins begins, rfl⟩, literal.isEven⟩
  obtain ⟨u, -, rfl⟩ := literal
  have size := '{'.utf8Size_pos
  rw [Text.bytes_cons]
  omega

/-- An even text that is not empty begins with an expression. -/
theorem exists_read_of_cut? (rest : t.IsRest o ('{' :: s)) (lt : o < m) (cut : Text.cut? t o m = some w)
    (even : IsEven w) : ∃ e, read o ('{' :: s) = .ok e ∧ e <+: w := by
  obtain ⟨⟨v, rest'⟩, rfl⟩ := Text.cut?_eq_some_iff.1 cut
  have same := rest'.unique rest
  cases w with
  | nil => exact absurd lt (Nat.lt_irrefl o)
  | cons c w =>
    obtain ⟨rfl, -⟩ := List.cons.inj same
    rw [← same]
    exact even.exists_read rfl o v

/-- **Where an expression ends.** It does at the first offset up to which no string is open and as many
braces, outside of strings, have closed as have opened. -/
theorem stopAt_eq_ok_iff (brace : t.Holds o ['{']) :
    stopAt t o = .ok n ↔ IsLeast {m | o < m ∧ ∃ w, Text.cut? t o m = some w ∧ IsEven w} n := by
  obtain ⟨s, rest⟩ := brace
  rw [stopAt_eq_ok_iff_read rest]
  constructor
  · rintro ⟨e, found, rfl⟩
    obtain ⟨lt, cut, even⟩ := cut?_of_read rest found
    refine ⟨⟨lt, e, cut, even⟩, ?_⟩
    rintro m ⟨lt', w, cut', even'⟩
    obtain ⟨e', found', begins⟩ := exists_read_of_cut? rest lt' cut' even'
    obtain rfl : e = e' := Except.ok.inj (found.symm.trans found')
    obtain ⟨v, rfl⟩ := begins
    rw [← (Text.cut?_eq_some_iff.1 cut').2, Text.bytes_append]
    omega
  · rintro ⟨⟨lt, w, cut, even⟩, least⟩
    obtain ⟨e, found, v, rfl⟩ := exists_read_of_cut? rest lt cut even
    obtain ⟨lt', cut', even'⟩ := cut?_of_read rest found
    have le := least ⟨lt', e, cut', even'⟩
    have size := (Text.cut?_eq_some_iff.1 cut).2
    rw [Text.bytes_append] at size
    exact ⟨e, found, by omega⟩

/-- An expression ends where it does, whatever follows. -/
theorem stopAt_own (brace : t.Holds o ['{']) (found : stopAt t o = .ok n) (s : Text) :
    stopAt (Text.takeBytes t n ++ s) o = .ok n := by
  obtain ⟨after, rest⟩ := brace
  obtain ⟨e, read, rfl⟩ := (stopAt_eq_ok_iff_read rest).1 found
  obtain ⟨⟨v, begins⟩, own⟩ := read_own read
  obtain ⟨before, rfl, rfl⟩ := rest
  have rest' : Text.IsRest (before ++ e ++ s) (Text.bytes before) (e ++ s) :=
    ⟨before, List.append_assoc .., rfl⟩
  rw [← begins, ← List.append_assoc, ← Text.bytes_append, Text.takeBytes_append, Text.bytes_append,
    stopAt_eq_ok_iff_read rest']
  exact ⟨e, own s, rfl⟩

end StopAt

end Expression

/-! ### Opening tags -/

/-- An offset is just past an angle bracket of a text whose first character is at offset `at_`. -/
def Text.IsPastAngle (at_ : Nat) (s : Text) (offset : Nat) : Prop :=
  ∃ before after, s = before ++ '>' :: after ∧ offset = at_ + bytes before + 1

theorem Text.IsPastAngle.cons {at_ offset : Nat} {c : Char} {s : Text}
    (h : IsPastAngle (at_ + c.utf8Size) s offset) : IsPastAngle at_ (c :: s) offset := by
  obtain ⟨before, after, rfl, rfl⟩ := h
  exact ⟨c :: before, after, rfl, by rw [bytes_cons, Nat.add_assoc at_]⟩

namespace OpenTag

variable {at_ tag resume a : Nat} {state : State} {c : Char} {s t : Text} {x : OpenTag}

/-- A tag is complete with an angle bracket. -/
theorem last_of_readyStep {name : String} {props : List WidgetProp} {token : Option TagToken}
    (done : readyStep name props at_ c token = .ok (.done x)) :
    ∃ k own, token = some k ∧ k.text = own ++ ['>'] ∧ x.stop = at_ + Text.bytes own + 1 := by
  unfold readyStep at done
  split at done
  · cases done
    exact ⟨.selfClose, ['/'], rfl, rfl, rfl⟩
  · cases done
    exact ⟨.close, [], rfl, rfl, rfl⟩
  · cases done
  · cases done
  · split at done <;> cases done

theorem last_of_step (done : step state at_ c s = .ok (.done x)) :
    Text.IsPastAngle at_ (c :: s) x.stop := by
  obtain ⟨k, own, token, text, stop⟩ : ∃ k own, TagToken.read? (c :: s) = some k ∧
      k.text = own ++ ['>'] ∧ x.stop = at_ + Text.bytes own + 1 := by
    unfold step at done
    cases state with
    | opened =>
      dsimp only at done
      split at done <;> cases done
    | ready name props => exact last_of_readyStep done
    | named name props prop span =>
      dsimp only at done
      split at done
      · cases done
      · exact last_of_readyStep done
    | valued name props prop start =>
      simp only [valueStep] at done
      repeat' split at done
      all_goals cases done
  obtain ⟨after, parts⟩ := TagToken.isPrefix_of_read? token
  exact ⟨own, after, by rw [← parts, text, List.append_assoc]; rfl, stop⟩

theorem last_of_readFrom (found : readFrom tag state resume at_ s = .ok x) :
    Text.IsPastAngle at_ s x.stop := by
  fun_induction readFrom tag state resume at_ s with
  | case1 => cases found
  | case2 state resume at_ c s skipped ih => exact (ih found).cons
  | case3 state resume at_ c s starts e => cases found
  | case4 state resume at_ c s starts x' done =>
    cases found
    exact last_of_step done
  | case5 state resume at_ c s starts state' resume' more ih => exact (ih found).cons

/-- The tag at an offset. -/
def readAt (t : Text) (a : Nat) : Except SyntaxError OpenTag := read a (Text.dropBytes t a)

theorem readAt_of_isRest (rest : t.IsRest a s) : readAt t a = read a s := by
  obtain ⟨before, rfl, rfl⟩ := rest
  rw [readAt, Text.dropBytes_append]

/-- The last character of a tag is an angle bracket. -/
theorem holds_last (angle : t.Holds a ['<']) (found : readAt t a = .ok x) :
    ∃ m, x.stop = m + 1 ∧ t.Holds m ['>'] := by
  obtain ⟨s, rest⟩ := angle
  rw [readAt_of_isRest rest, List.singleton_append, read_angle] at found
  split at found
  · cases found
  · obtain ⟨own, after, parts, stop⟩ := last_of_readFrom found
    rw [List.singleton_append, parts] at rest
    exact ⟨_, stop, after, rest.append⟩

/-- A tag is read as it is, whatever follows. -/
theorem readAt_own (angle : t.Holds a ['<']) (found : readAt t a = .ok x) (s : Text) :
    readAt (Text.takeBytes t x.stop ++ s) a = .ok x := by
  obtain ⟨after, rest⟩ := angle
  rw [readAt_of_isRest rest] at found
  obtain ⟨own, after', rfl, stop, same⟩ := exists_own_of_read found
  obtain ⟨before, rfl, rfl⟩ := rest
  have rest' : Text.IsRest (before ++ '<' :: own ++ s) (Text.bytes before) ('<' :: (own ++ s)) :=
    ⟨before, by simp, rfl⟩
  have parts : before ++ (['<'] ++ (own ++ after')) = before ++ '<' :: own ++ after' := by simp
  rw [parts, stop, ← Text.bytes_append, Text.takeBytes_append, readAt_of_isRest rest', same]

end OpenTag

/-- **Scans look no further than their end.** An expression ends at the first offset up to which every string
ends and, outside of the strings, as many braces close as open; a tag ends with an angle bracket. Both are read
again where the text is cut off at their end and goes on with any other. -/
theorem scans_look_no_further (t : Text) :
    (∀ o, t.Holds o ['{'] → ∀ n,
      (Expression.stopAt t o = .ok n ↔
        IsLeast {m | o < m ∧ ∃ w, Text.cut? t o m = some w ∧ Expression.IsEven w} n) ∧
      (Expression.stopAt t o = .ok n →
        ∀ s, Expression.stopAt (Text.takeBytes t n ++ s) o = .ok n)) ∧
    ∀ a, t.Holds a ['<'] → ∀ x, OpenTag.readAt t a = .ok x →
      (∀ s, OpenTag.readAt (Text.takeBytes t x.stop ++ s) a = .ok x) ∧
      ∃ m, x.stop = m + 1 ∧ t.Holds m ['>'] := by
  refine ⟨fun o brace n => ⟨Expression.stopAt_eq_ok_iff brace, Expression.stopAt_own brace⟩, ?_⟩
  intro a angle x found
  exact ⟨OpenTag.readAt_own angle found, OpenTag.holds_last angle found⟩

/-- A tag with an expression that has a brace in a string. -/
theorem scans_look_no_further_quoted :
    let t : Text := "é<A b=\x7b'\x7d'\x7d />".toList
    let x : OpenTag :=
      { name := "A", props := [{ name := "b", value := .expression "'\x7d'", span := ⟨5, 12⟩ }],
        selfClosing := true, stop := 15 }
    t.Holds 7 ['{'] ∧ Expression.stopAt t 7 = .ok 12 ∧ t.Holds 2 ['<'] ∧ OpenTag.readAt t 2 = .ok x ∧
      IsLeast {m | 7 < m ∧ ∃ w, Text.cut? t 7 m = some w ∧ Expression.IsEven w} 12 ∧
      OpenTag.readAt (Text.takeBytes t 15 ++ ['>']) 2 = .ok x := by
  intro t x
  have brace : t.Holds 7 ['{'] := ⟨"'\x7d'\x7d />".toList, "é<A b=".toList, by decide, by decide⟩
  have angle : t.Holds 2 ['<'] := ⟨"A b=\x7b'\x7d'\x7d />".toList, ['é'], by decide, by decide⟩
  have stop : Expression.stopAt t 7 = .ok 12 := by decide
  have found : OpenTag.readAt t 2 = .ok x := by decide
  obtain ⟨expressions, tags⟩ := scans_look_no_further t
  exact ⟨brace, stop, angle, found, (expressions 7 brace 12).1.1 stop, (tags 2 angle x found).1 ['>']⟩

end Folio
