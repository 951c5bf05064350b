import Folio.Proofs.Markup.WrittenTags

/-!
# Tags are read from their own characters

What comes after an expression, a quoted string or an opening tag has no part in how it is read: the
same one is read from its own characters, whatever follows them. Main statements:

* `Expression.read_own` and `TagToken.quotedRest?_own`;
* `OpenTag.exists_own_of_read`: an opening tag.
-/

namespace Folio

variable {p a a' s : Text} {c : Char}

/-! ### Expressions -/

namespace Expression

variable {mode : Mode} {depth : Int} {at_ : Nat} {e : Text}

/-- Where a scan stands after a character, unless the character ends the expression. -/
def Mode.next? (depth : Int) (at_ : Nat) (c : Char) : Mode → Option (Mode × Int)
  | .outside =>
    if c == '{' then some (.outside, depth + 1)
    else if c == '}' then if depth - 1 == 0 then none else some (.outside, depth - 1)
    else if isQuote c then some (.inside c at_, depth)
    else some (.outside, depth)
  | .inside quote start =>
    if c == '\\' then some (.escaped quote start, depth)
    else if c == quote then some (.outside, depth)
    else some (.inside quote start, depth)
  | .escaped quote start => some (.inside quote start, depth)

/-- One step of a scan. -/
theorem scan_cons (mode : Mode) (depth : Int) (at_ : Nat) (c : Char) (s : Text) :
    scan mode depth at_ (c :: s) =
      match mode.next? depth at_ c with
      | none => .ok [c]
      | some (mode, depth) => (scan mode depth (at_ + c.utf8Size) s).map (c :: ·) := by
  cases mode <;> simp only [scan, Mode.next?] <;> repeat' split
  all_goals simp_all

/-- An expression is scanned from its own characters. -/
theorem scan_own (found : scan mode depth at_ s = .ok e) :
    e <+: s ∧ ∀ w, scan mode depth at_ (e ++ w) = .ok e := by
  induction s generalizing mode depth at_ e with
  | nil => cases mode <;> cases found
  | cons c s ih =>
    rw [scan_cons] at found
    cases next : mode.next? depth at_ c with
    | none =>
      simp only [next, Except.ok.injEq] at found
      subst found
      refine ⟨⟨s, rfl⟩, fun w => ?_⟩
      rw [List.cons_append, scan_cons, next]
    | some after =>
      obtain ⟨mode', depth'⟩ := after
      simp only [next] at found
      cases more : scan mode' depth' (at_ + c.utf8Size) s with
      | error fault =>
        rw [more] at found
        cases found
      | ok rest =>
        rw [more] at found
        obtain rfl := Except.ok.inj found
        obtain ⟨begins, own⟩ := ih more
        refine ⟨(List.prefix_cons_inj c).2 begins, fun w => ?_⟩
        rw [List.cons_append, scan_cons, next]
        simp only [own w]
        rfl

/-- An expression is read from its own characters. -/
theorem read_own (found : read at_ s = .ok e) : e <+: s ∧ ∀ w, read at_ (e ++ w) = .ok e := by
  unfold read at found
  split at found
  · rename_i scanned
    cases found
    obtain ⟨begins, own⟩ := scan_own scanned
    refine ⟨begins, fun w => ?_⟩
    rw [read, own w]
  · cases found
  · cases found

end Expression

/-! ### Tokens -/

namespace TagToken

/-- A quoted string is read from its own characters. -/
theorem quotedRest?_own {quote : Char} {rest : Text} (escape : quote ≠ '\\')
    (found : quotedRest? quote s = some rest) (w : Text) : quotedRest? quote (rest ++ w) = some rest := by
  fun_induction quotedRest? quote s generalizing rest with
  | case1 => cases found
  | case2 c s eol => cases found
  | case3 c s eol ih =>
    obtain ⟨more, read, rfl⟩ := Option.map_eq_some_iff.1 found
    rw [List.cons_append, List.cons_append, quotedRest?, if_neg eol, ih read]
    rfl
  | case4 c s _ closes =>
    cases found
    have is_quote : c = quote := by simpa using closes
    rw [List.singleton_append, quotedRest?_cons (is_quote ▸ escape), if_pos closes]
  | case5 c s => cases found
  | case6 c s _ other plain ih =>
    obtain ⟨more, read, rfl⟩ := Option.map_eq_some_iff.1 found
    have is_plain : c ≠ '\\' := by simpa using plain
    rw [List.cons_append, quotedRest?_cons is_plain, if_neg other, ih read]
    rfl

/-- A token that is not one of the marks of tags is a name or a quoted string. -/
theorem read?_of_unmarked (marks : c ∉ ['<', '>', '=', '{', '/']) (s : Text) :
    read? (c :: s) =
      if isNameStart c then some (.name (c :: s.takeWhile isNameChar))
      else if c == '"' || c == '\'' then (quotedRest? c s).map fun rest => .quoted (c :: rest)
      else none := by
  simp only [List.mem_cons, List.not_mem_nil, or_false, not_or] at marks
  obtain ⟨open_, close, equals, brace, slash⟩ := marks
  rw [read?] <;> simp [open_, close, equals, brace, slash]

theorem text_ne_nil {t : TagToken} (found : read? s = some t) : t.text ≠ [] := by
  cases s with
  | nil => cases found
  | cons c s =>
    by_cases marks : c ∈ ['<', '>', '=', '{', '/']
    · have some_mark : t = .open ∨ t = .openClosing ∨ t = .close ∨ t = .equals ∨ t = .brace ∨
          t = .selfClose := by
        simp only [List.mem_cons, List.not_mem_nil, or_false] at marks
        obtain rfl | rfl | rfl | rfl | rfl := marks <;> rw [read?] at found <;> try split at found
        all_goals cases found
        all_goals simp
      obtain rfl | rfl | rfl | rfl | rfl | rfl := some_mark <;> decide
    · rw [read?_of_unmarked marks] at found
      split at found
      · cases found
        exact List.cons_ne_nil _ _
      · split at found
        · obtain ⟨rest, -, rfl⟩ := Option.map_eq_some_iff.1 found
          exact List.cons_ne_nil _ _
        · cases found

/-- A token that may go on, or become another one, at the end of a text. -/
def MayGoOn : TagToken → Prop
  | .open | .name _ => True
  | _ => False

/-- The same token is read where the same characters stand, with one more if it may go on. -/
theorem read?_shared {t : TagToken} (found : read? (c :: (p ++ a)) = some t)
    (le : Text.bytes t.text ≤ Text.bytes (c :: p))
    (ends : t.MayGoOn → Text.bytes t.text < Text.bytes (c :: p)) (a' : Text) :
    read? (c :: (p ++ a')) = some t := by
  by_cases open_ : c = '<'
  · subst open_
    cases p with
    | nil =>
      rw [read?] at found
      split at found
      · cases found
        exact absurd le (by decide)
      · cases found
        exact absurd (ends trivial) (by decide)
    | cons d p => exact found
  by_cases slash : c = '/'
  · subst slash
    cases p with
    | nil =>
      rw [read?] at found
      split at found
      · cases found
        exact absurd le (by decide)
      · cases found
    | cons d p => exact found
  by_cases single : c = '>' ∨ c = '=' ∨ c = '{'
  · rcases single with rfl | rfl | rfl <;> exact found
  have marks : c ∉ ['<', '>', '=', '{', '/'] := by simp_all
  rw [read?_of_unmarked marks] at found ⊢
  split at found
  · rename_i starts
    cases found
    rw [if_pos starts]
    have lt := ends trivial
    have short : ¬ (p.takeWhile isNameChar).length = p.length := by
      intro whole
      have all : p.takeWhile isNameChar = p := (List.takeWhile_prefix _).eq_of_length whole
      simp only [text, Text.bytes_cons, List.takeWhile_append, if_pos whole, Text.bytes_append] at lt
      omega
    rw [List.takeWhile_append, if_neg short, List.takeWhile_append, if_neg short]
  · rename_i other
    rw [if_neg other]
    split at found
    · rename_i is_quote
      rw [if_pos is_quote]
      obtain ⟨rest, quoted, rfl⟩ := Option.map_eq_some_iff.1 found
      simp only [text, Text.bytes_cons] at le
      obtain ⟨more, rfl⟩ : rest <+: p := by
        obtain ⟨more, parts⟩ := isPrefix_of_quotedRest? quoted
        exact (Text.prefix_of_bytes_le parts (by omega)).imp fun _ => Eq.symm
      have escape : c ≠ '\\' := by
        rintro rfl
        cases is_quote
      rw [List.append_assoc, quotedRest?_own escape quoted]
      rfl
    · cases found

end TagToken

/-! ### Opening tags -/

namespace OpenTag

variable {tag resume at_ : Nat} {state : State} {t : OpenTag}

/-- How far a step reads. -/
def Step.Within (n : Nat) : Step → Prop
  | .more _ resume => resume < n
  | .done tag => tag.stop ≤ n

theorem readyStep_shared {name : String} {props : List WidgetProp} {next : Step}
    (done : readyStep name props at_ c (TagToken.read? (c :: (p ++ a))) = .ok next)
    (within : next.Within (at_ + Text.bytes (c :: p))) (a' : Text) :
    TagToken.read? (c :: (p ++ a')) = TagToken.read? (c :: (p ++ a)) := by
  unfold readyStep at done
  split at done
  · rename_i token
    cases done
    rw [token]
    refine TagToken.read?_shared token ?_ False.elim a'
    exact Nat.le_of_add_le_add_left within
  · rename_i token
    cases done
    rw [token]
    refine TagToken.read?_shared token ?_ False.elim a'
    exact Nat.le_of_add_le_add_left within
  · rename_i token
    cases done
    rw [token]
    have lt : _ < _ := Nat.lt_of_add_lt_add_left within
    exact TagToken.read?_shared token (Nat.le_of_lt lt) (fun _ => lt) a'
  · cases done
  · split at done <;> cases done

theorem valueStep_shared {name prop : String} {props : List WidgetProp} {start : Nat} {next : Step}
    (done : valueStep name props prop start at_ c (p ++ a) (TagToken.read? (c :: (p ++ a))) = .ok next)
    (within : next.Within (at_ + Text.bytes (c :: p))) (a' : Text) :
    valueStep name props prop start at_ c (p ++ a') (TagToken.read? (c :: (p ++ a'))) = .ok next := by
  unfold valueStep at done
  dsimp only at done
  split at done
  · rename_i literal token
    cases done
    have lt : Text.bytes literal < Text.bytes (c :: p) := Nat.lt_of_add_lt_add_left within
    rw [TagToken.read?_shared token (Nat.le_of_lt lt) (fun _ => lt) a']
    rfl
  · rename_i token
    split at done
    · cases done
    · rename_i e read
      cases done
      have lt : Text.bytes e < Text.bytes (c :: p) := Nat.lt_of_add_lt_add_left within
      obtain ⟨⟨more, parts⟩, own⟩ := Expression.read_own read
      obtain ⟨rest, split⟩ : ∃ rest, c :: p = e ++ rest :=
        Text.prefix_of_bytes_le (by rw [parts, List.cons_append]) (Nat.le_of_lt lt)
      have same : Expression.read at_ (c :: (p ++ a')) = .ok e := by
        rw [← List.cons_append, split, List.append_assoc, own]
      have filled : Text.bytes TagToken.brace.text ≤ Text.bytes (c :: p) :=
        Nat.le_add_right_of_le c.utf8Size_pos
      rw [TagToken.read?_shared token filled False.elim a', valueStep]
      simp only [same]
  · split at done <;> cases done
  · cases done

theorem step_shared {next : Step} (done : step state at_ c (p ++ a) = .ok next)
    (within : next.Within (at_ + Text.bytes (c :: p))) (a' : Text) :
    step state at_ c (p ++ a') = .ok next := by
  cases state with
  | opened =>
    unfold step at done
    dsimp only at done
    split at done
    · rename_i name token
      cases done
      have lt : Text.bytes name < Text.bytes (c :: p) := Nat.lt_of_add_lt_add_left within
      rw [step, TagToken.read?_shared token (Nat.le_of_lt lt) (fun _ => lt) a']
    · cases done
  | ready name props =>
    rw [step] at done ⊢
    rw [readyStep_shared done within]
    exact done
  | named name props prop span =>
    by_cases equals : TagToken.read? (c :: (p ++ a)) = some .equals
    · have filled : Text.bytes TagToken.equals.text ≤ Text.bytes (c :: p) :=
        Nat.le_add_right_of_le c.utf8Size_pos
      rw [step, equals] at done
      rwa [step, TagToken.read?_shared equals filled False.elim a']
    · have due : Due name ({ name := prop, value := .flag, span } :: props)
          (.named name props prop span) := .named props prop span
      rw [due.step_eq equals] at done
      have same := readyStep_shared done within a'
      rwa [due.step_eq (by rwa [same]), same]
  | valued name props prop start => exact valueStep_shared done within a'

/-- The reading of a tag takes a token, and its own characters are all that counts. -/
theorem exists_own_of_readFrom (found : readFrom tag state resume at_ s = .ok t) :
    resume < t.stop ∧ ∃ own after, s = own ++ after ∧ t.stop = at_ + Text.bytes own ∧
      ∀ w, readFrom tag state resume at_ (own ++ w) = .ok t := by
  induction s generalizing state resume at_ with
  | nil => cases found
  | cons c s ih =>
    rw [readFrom] at found
    by_cases passed : (at_ < resume || TagToken.isSkipped c) = true
    · rw [if_pos passed] at found
      obtain ⟨lt, own, after, rfl, stop, same⟩ := ih found
      refine ⟨lt, c :: own, after, rfl, by rw [stop, Text.bytes_cons, Nat.add_assoc], fun w => ?_⟩
      rw [List.cons_append, readFrom, if_pos passed, same]
    · have reached : resume ≤ at_ := by
        simp only [Bool.or_eq_true, decide_eq_true_eq, not_or] at passed
        omega
      rw [if_neg passed] at found
      cases done : step state at_ c s with
      | error e =>
        rw [done] at found
        cases found
      | ok next =>
        rw [done] at found
        cases next with
        | done t' =>
          obtain rfl := Except.ok.inj found
          obtain ⟨last, token, stop⟩ := stop_of_step done
          obtain ⟨after, parts⟩ := TagToken.isPrefix_of_read? token
          obtain ⟨d, own, text⟩ := List.exists_cons_of_ne_nil (TagToken.text_ne_nil token)
          rw [text] at parts stop
          obtain ⟨rfl, rfl⟩ := List.cons.inj parts
          refine ⟨?_, d :: own, after, rfl, stop, fun w => ?_⟩
          · rw [stop, Text.bytes_cons]
            have := d.utf8Size_pos
            omega
          · have within : (Step.done t').Within (at_ + Text.bytes (d :: own)) := Nat.le_of_eq stop
            rw [List.cons_append, readFrom, if_neg passed, step_shared done within]
        | more state' resume' =>
          obtain ⟨lt, own, after, rfl, stop, same⟩ := ih found
          have within : (Step.more state' resume').Within (at_ + Text.bytes (c :: own)) := by
            show resume' < _
            rw [Text.bytes_cons]
            omega
          refine ⟨?_, c :: own, after, rfl, by rw [stop, Text.bytes_cons, Nat.add_assoc], fun w => ?_⟩
          · rw [stop]
            have := c.utf8Size_pos
            omega
          · rw [List.cons_append, readFrom, if_neg passed, step_shared done within]
            exact same w

theorem read_angle (at_ : Nat) (s : Text) :
    read at_ ('<' :: s) =
      if s.head? == some '/' then fail at_ (.unexpectedToken "'<'" (describeStart ('<' :: s)))
      else readFrom at_ .opened (at_ + 1) at_ ('<' :: s) := by
  have blanks : ('<' :: s).takeWhile TagToken.isSkipped = [] := rfl
  unfold read
  rw [blanks]
  by_cases slash : (s.head? == some '/') = true
  · simp only [List.length_nil, List.drop_zero, TagToken.read?, if_pos slash]
  · simp only [List.length_nil, List.drop_zero, TagToken.read?, if_neg slash]
    rfl

/-- **A tag is read from its own characters.** -/
theorem exists_own_of_read (found : read at_ ('<' :: s) = .ok t) :
    ∃ own after, s = own ++ after ∧ t.stop = at_ + Text.bytes ('<' :: own) ∧
      ∀ w, read at_ ('<' :: (own ++ w)) = .ok t := by
  rw [read_angle] at found
  split at found
  · cases found
  · rename_i unclosing
    obtain ⟨lt, own, after, text, stop, same⟩ := exists_own_of_readFrom found
    cases own with
    | nil =>
      rw [stop] at lt
      exact absurd lt (by simp)
    | cons d own =>
      obtain ⟨rfl, rfl⟩ := List.cons.inj text
      refine ⟨own, after, rfl, stop, fun w => ?_⟩
      cases own with
      | nil =>
        rw [stop] at lt
        exact absurd lt (Nat.lt_irrefl _)
      | cons e own =>
        have plain : ¬ (List.head? (e :: own ++ w) == some '/') = true := unclosing
        rw [read_angle, if_neg plain]
        exact same w

end OpenTag
end Folio
