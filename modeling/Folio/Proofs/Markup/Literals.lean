import Folio.Proofs.Markup.TagExtent

/-!
# Literals in braces

The texts that are read as expressions, as a grammar of their own: text in braces in which strings
end and braces balance. Main statements:

* `Expression.read_eq_ok_iff`: the expression at the start of a text is the literal it begins with;
* `Expression.IsLiteral.eq_of_isPrefix`: a text begins with at most one literal.
-/

namespace Folio.Expression

variable {quote c : Char} {start at_ n : Nat} {depth depth' depth'' : Int} {mode mode' mode'' : Mode}
  {s t u e e' : Text}

/-- What follows the opening quote of a string, its closing quote included. -/
inductive Quoted (quote : Char) : Text → Prop
  | close : Quoted quote [quote]
  | escaped (c : Char) {s : Text} (rest : Quoted quote s) : Quoted quote ('\\' :: c :: s)
  | plain {c : Char} {s : Text} (backslash : c ≠ '\\') (other : c ≠ quote) (rest : Quoted quote s) :
      Quoted quote (c :: s)

/-- Text in which every string ends and every brace has its partner. -/
inductive Balanced : Text → Prop
  | nil : Balanced []
  | plain {c : Char} {s : Text} (opening : c ≠ '{') (closing : c ≠ '}') (bare : isQuote c = false)
      (rest : Balanced s) : Balanced (c :: s)
  | quoted {quote : Char} {body s : Text} (isQuote : isQuote quote = true)
      (inside : Quoted quote body) (rest : Balanced s) : Balanced (quote :: (body ++ s))
  | braced {u s : Text} (inside : Balanced u) (rest : Balanced s) : Balanced ('{' :: (u ++ '}' :: s))

/-- A literal: balanced text in braces. -/
def IsLiteral (e : Text) : Prop := ∃ u, Balanced u ∧ e = '{' :: (u ++ ['}'])

theorem Balanced.append (hs : Balanced s) (ht : Balanced t) : Balanced (s ++ t) := by
  induction hs with
  | nil => exact ht
  | plain opening closing bare _ ih => exact .plain opening closing bare ih
  | quoted quoted inside _ ih =>
    rw [List.cons_append, List.append_assoc]
    exact .quoted quoted inside ih
  | braced inside _ _ ih =>
    rw [List.cons_append, List.append_assoc, List.cons_append]
    exact .braced inside ih

theorem ne_of_isQuote (h : isQuote quote = true) : quote ≠ '\\' ∧ quote ≠ '{' ∧ quote ≠ '}' := by
  refine ⟨?_, ?_, ?_⟩ <;> rintro rfl <;> exact absurd h (by decide)

theorem Quoted.append_plain (plain : ∀ c ∈ s, c ≠ '\\' ∧ c ≠ quote) (rest : Quoted quote t) :
    Quoted quote (s ++ t) := by
  induction s with
  | nil => exact rest
  | cons c s ih =>
    obtain ⟨⟨backslash, other⟩, after⟩ := List.forall_mem_cons.1 plain
    exact .plain backslash other (ih after)

/-! ### What the grammar allows is read -/

/-- Over a text a scan goes from one place to another, and its result begins with the text. -/
def Passes (mode : Mode) (depth : Int) (s : Text) (mode' : Mode) (depth' : Int) : Prop :=
  ∀ at_ t, scan mode depth at_ (s ++ t) =
    (scan mode' depth' (at_ + Text.bytes s) t).map (s ++ ·)

theorem Passes.nil : Passes mode depth [] mode depth := by
  intro at_ t
  cases h : scan mode depth at_ t <;> simp [h, Except.map]

theorem Passes.cons (step : ∀ at_, mode.next? depth at_ c = some (mode', depth'))
    (more : Passes mode' depth' s mode'' depth'') : Passes mode depth (c :: s) mode'' depth'' := by
  intro at_ t
  rw [List.cons_append, scan_cons, step]
  dsimp only
  rw [more, Text.bytes_cons, Nat.add_assoc]
  cases scan mode'' depth'' _ t <;> rfl

theorem Passes.append (hs : Passes mode depth s mode' depth')
    (ht : Passes mode' depth' t mode'' depth'') : Passes mode depth (s ++ t) mode'' depth'' := by
  intro at_ w
  rw [List.append_assoc, hs, ht, Text.bytes_append, Nat.add_assoc]
  cases scan mode'' depth'' _ w <;> simp [Except.map]

/-- Inside a string a scan passes over the rest of the string. -/
theorem Quoted.passes (h : Quoted quote s) (escape : quote ≠ '\\') :
    Passes (.inside quote start) depth s .outside depth := by
  induction h with
  | close => exact .cons (fun _ => by simp [Mode.next?, escape]) .nil
  | escaped c _ ih =>
    have pair : Passes (.inside quote start) depth ['\\', c] (.inside quote start) depth :=
      .cons (fun _ => rfl) (.cons (fun _ => rfl) .nil)
    exact pair.append ih
  | plain backslash other _ ih => exact .cons (fun _ => by simp [Mode.next?, backslash, other]) ih

theorem passes_brace : Passes .outside depth ['{'] .outside (depth + 1) := .cons (fun _ => rfl) .nil

/-- Inside braces a scan passes over balanced text. -/
theorem Balanced.passes (h : Balanced s) (inside : 1 ≤ depth) :
    Passes .outside depth s .outside depth := by
  induction h generalizing depth with
  | nil => exact .nil
  | plain opening closing bare _ ih =>
    exact .cons (fun _ => by simp [Mode.next?, opening, closing, bare]) (ih inside)
  | quoted quoted body _ ih =>
    obtain ⟨escape, opening, closing⟩ := ne_of_isQuote quoted
    -- The string is entered at an offset of its own, so this is no step from place to place.
    intro at_ t
    rw [List.cons_append, scan_cons, Mode.next?, if_neg (by simpa using opening),
      if_neg (by simpa using closing), if_pos quoted]
    dsimp only
    rw [(body.passes escape).append (ih inside), Text.bytes_cons, Nat.add_assoc]
    cases scan .outside depth _ t <;> rfl
  | braced _ _ ihu ihs =>
    have closing : Passes .outside (depth + 1) ['}'] .outside depth :=
      .cons (fun _ => by simp [Mode.next?, show depth ≠ 0 by omega]) .nil
    exact passes_brace.append ((ihu (by omega)).append (closing.append (ihs inside)))

/-- A literal is read whole, whatever follows it. -/
theorem IsLiteral.read (h : IsLiteral e) (at_ : Nat) (t : Text) : read at_ (e ++ t) = .ok e := by
  obtain ⟨u, balanced, rfl⟩ := h
  have opened : Passes .outside 0 ('{' :: u) .outside 1 :=
    passes_brace.append (balanced.passes (by omega))
  have scanned := opened at_ ('}' :: t)
  rw [show '{' :: (u ++ ['}']) ++ t = '{' :: u ++ '}' :: t by simp, Expression.read, scanned]
  rfl

/-! ### What is read, the grammar allows -/

/-- Text up to the brace that closes the outermost of `n + 1` open braces. -/
inductive Closes : Nat → Text → Prop
  | last {u : Text} (inside : Balanced u) : Closes 0 (u ++ ['}'])
  | more {n : Nat} {u s : Text} (inside : Balanced u) (rest : Closes n s) :
      Closes (n + 1) (u ++ '}' :: s)

theorem Balanced.closes_append (hs : Balanced s) (ht : Closes n t) : Closes n (s ++ t) := by
  cases ht with
  | last inside =>
    rw [← List.append_assoc]
    exact .last (hs.append inside)
  | more inside rest =>
    rw [← List.append_assoc]
    exact .more (hs.append inside) rest

/-- One more brace may open first. -/
theorem Closes.braced (h : Closes (n + 1) s) : Closes n ('{' :: s) := by
  cases h with
  | more inside rest =>
    have group : Balanced ('{' :: (_ ++ '}' :: [])) := .braced inside .nil
    simpa using group.closes_append rest

/-- What a scan that stands somewhere inside `n + 1` open braces ends with. -/
def Mode.Ends (n : Nat) : Mode → Text → Prop
  | .outside, e => Closes n e
  | .inside quote _, e => ∃ body rest, e = body ++ rest ∧ Quoted quote body ∧ Closes n rest
  | .escaped quote _, e =>
    ∃ c body rest, e = c :: (body ++ rest) ∧ Quoted quote body ∧ Closes n rest

/-- A scan that stops has met the last closing brace. -/
theorem ends_singleton (stops : mode.next? (n + 1) at_ c = none) : mode.Ends n [c] := by
  have last : mode = .outside ∧ c = '}' ∧ n = 0 := by
    cases mode <;> simp only [Mode.next?] at stops
    · split at stops
      · cases stops
      · split at stops
        · next closing => exact ⟨rfl, by simpa using closing, by simpa using stops⟩
        · split at stops <;> cases stops
    · split at stops
      · cases stops
      · split at stops <;> cases stops
    · cases stops
  obtain ⟨rfl, rfl, rfl⟩ := last
  exact .last (u := []) .nil

/-- One step of a scan outside strings: it opens or closes a brace, begins a string or goes on. -/
theorem ends_outside (step : Mode.outside.next? (n + 1) at_ c = some (mode', depth')) :
    ∃ m : Nat, depth' = m + 1 ∧ (mode'.Ends m s → Closes n (c :: s)) := by
  simp only [Mode.next?] at step
  split at step
  · next opening =>
    obtain rfl : c = '{' := by simpa using opening
    cases step
    exact ⟨n + 1, by simp, Closes.braced⟩
  · next opening =>
    split at step
    · next closing =>
      obtain rfl : c = '}' := by simpa using closing
      split at step
      · cases step
      · next more =>
        obtain ⟨m, rfl⟩ : ∃ m, n = m + 1 := ⟨n - 1, by simp at more; omega⟩
        cases step
        exact ⟨m, by simp, fun h => .more (u := []) .nil h⟩
    · next closing =>
      split at step
      · next quoted =>
        cases step
        refine ⟨n, rfl, ?_⟩
        rintro ⟨body, rest, rfl, inside, closes⟩
        have string : Balanced (c :: (body ++ [])) := .quoted quoted inside .nil
        rw [List.append_nil] at string
        exact string.closes_append closes
      · next bare =>
        cases step
        have plain : Balanced [c] :=
          .plain (by simpa using opening) (by simpa using closing) (by simpa using bare) .nil
        exact ⟨n, rfl, plain.closes_append⟩

/-- One step of a scan in a string: it ends the string, escapes a character or goes on. -/
theorem ends_inside (step : (Mode.inside quote start).next? (n + 1) at_ c = some (mode', depth')) :
    ∃ m : Nat, depth' = m + 1 ∧ (mode'.Ends m s → (Mode.inside quote start).Ends n (c :: s)) := by
  simp only [Mode.next?] at step
  split at step
  · next backslash =>
    obtain rfl : c = '\\' := by simpa using backslash
    cases step
    refine ⟨n, rfl, ?_⟩
    rintro ⟨c, body, rest, rfl, inside, closes⟩
    exact ⟨'\\' :: c :: body, rest, rfl, .escaped c inside, closes⟩
  · next backslash =>
    split at step
    · next closing =>
      obtain rfl : c = quote := by simpa using closing
      cases step
      exact ⟨n, rfl, fun h => ⟨[c], _, rfl, .close, h⟩⟩
    · next other =>
      cases step
      refine ⟨n, rfl, ?_⟩
      rintro ⟨body, rest, rfl, inside, closes⟩
      exact ⟨c :: body, rest, rfl, .plain (by simpa using backslash) (by simpa using other) inside,
        closes⟩

/-- One step of a scan that goes on. -/
theorem ends_cons (step : mode.next? (n + 1) at_ c = some (mode', depth')) :
    ∃ m : Nat, depth' = m + 1 ∧ (mode'.Ends m s → mode.Ends n (c :: s)) := by
  cases mode with
  | outside => exact ends_outside step
  | inside quote start => exact ends_inside step
  | escaped quote start =>
    cases step
    refine ⟨n, rfl, ?_⟩
    rintro ⟨body, rest, rfl, inside, closes⟩
    exact ⟨c, body, rest, rfl, inside, closes⟩

/-- The induction is on the text: each character is one step of the scan. -/
theorem ends_of_scan (found : scan mode (n + 1) at_ s = .ok e) : mode.Ends n e := by
  induction s generalizing mode n at_ e with
  | nil => cases mode <;> cases found
  | cons c s ih =>
    rw [scan_cons] at found
    cases next : mode.next? (n + 1) at_ c with
    | none =>
      rw [next] at found
      obtain rfl := Except.ok.inj found
      exact ends_singleton next
    | some place =>
      obtain ⟨mode', depth'⟩ := place
      simp only [next] at found
      cases more : scan mode' depth' (at_ + c.utf8Size) s with
      | error fault =>
        rw [more] at found
        cases found
      | ok rest =>
        rw [more] at found
        obtain rfl := Except.ok.inj found
        obtain ⟨m, rfl, ends⟩ := ends_cons next
        exact ends (ih more)

/-- What is read after an opening brace is a literal. -/
theorem isLiteral_of_read (found : read at_ ('{' :: s) = .ok e) : IsLiteral e := by
  unfold read at found
  split at found
  case h_2 => cases found
  case h_3 => cases found
  next scanned =>
    cases found
    have opened : scan .outside 0 at_ ('{' :: s) =
        (scan .outside ((0 : Nat) + 1) (at_ + '{'.utf8Size) s).map ('{' :: ·) := rfl
    rw [opened] at scanned
    cases more : scan .outside ((0 : Nat) + 1) (at_ + '{'.utf8Size) s with
    | error fault =>
      rw [more] at scanned
      cases scanned
    | ok rest =>
      rw [more] at scanned
      obtain rfl := Except.ok.inj scanned
      cases ends_of_scan more with
      | last inside => exact ⟨_, inside, rfl⟩

/-- An expression is the literal that its text begins with. -/
theorem read_eq_ok_iff : read at_ ('{' :: s) = .ok e ↔ e <+: '{' :: s ∧ IsLiteral e := by
  constructor
  · exact fun found => ⟨(read_own found).1, isLiteral_of_read found⟩
  · rintro ⟨⟨t, whole⟩, literal⟩
    rw [← whole]
    exact literal.read at_ t

/-- A text begins with at most one literal. -/
theorem IsLiteral.eq_of_isPrefix (he : IsLiteral e) (he' : IsLiteral e') (begins : e <+: s)
    (begins' : e' <+: s) : e = e' := by
  obtain ⟨t, rfl⟩ := begins
  obtain ⟨t', same⟩ := begins'
  have read' := he'.read 0 t'
  rw [same, he.read 0 t] at read'
  exact Except.ok.inj read'

end Folio.Expression
