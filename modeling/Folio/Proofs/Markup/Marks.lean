import Folio.Markup.Tag
import Folio.Proofs.Region.Places

/-!
# Where faults are found

A syntax error is found at an offset, and for some faults the text there is known: the delimiter
that is not balanced, the tag of the widget that is not closed, the quote of the string that does
not end. `SyntaxError.Points` says that an error is found at such a place, and in a part of a line
where there is something besides spaces. Readers are specified by `Outcome`: what holds of their
errors, and what of their results. Main statements:

* `Region.Faithful.points`: an error in a faithful region points into the source;
* `Expression.read_outcome`: a braced expression ends at a brace, and its errors are at the brace
  or at a quote.
-/

namespace Folio

/-! ### Outcomes -/

/-- A reading fails with an error of one kind or gives a result of another kind. -/
def Outcome {ε α : Type} (failed : ε → Prop) (done : α → Prop) : Except ε α → Prop
  | .error e => failed e
  | .ok a => done a

variable {ε α β : Type} {x : Except ε α}

/-- What is done in two steps succeeds when both steps do. -/
theorem exists_of_bind_eq_ok {f : α → Except ε β} {b : β} (h : (x >>= f) = .ok b) :
    ∃ a, x = .ok a ∧ f a = .ok b := by
  cases x with
  | error e => cases h
  | ok a => exact ⟨a, rfl, h⟩

theorem exists_of_map_eq_ok {f : α → β} {b : β} (h : x.map f = .ok b) : ∃ a, x = .ok a ∧ f a = b := by
  cases x with
  | error e => cases h
  | ok a => exact ⟨a, rfl, Except.ok.inj h⟩

namespace Outcome

variable {failed failed' : ε → Prop} {done done' : α → Prop}

theorem mono (h : Outcome failed done x) (errors : ∀ e, failed e → failed' e)
    (results : ∀ a, done a → done' a) : Outcome failed' done' x := by
  cases x with
  | error e => exact errors e h
  | ok a => exact results a h

/-- What holds of the error that a reading fails with. -/
theorem of_error {e : ε} (h : Outcome failed done x) (eq : x = .error e) : failed e := by
  rwa [eq] at h

/-- What holds of the result that a reading gives. -/
theorem of_ok {a : α} (h : Outcome failed done x) (eq : x = .ok a) : done a := by
  rwa [eq] at h

/-- A reading in two steps fails in the first step or has the outcome of the second one. -/
theorem bind {f : α → Except ε β} {done' : β → Prop} (h : Outcome failed done x)
    (next : ∀ a, done a → Outcome failed done' (f a)) : Outcome failed done' (x >>= f) := by
  cases x with
  | error e => exact h
  | ok a => exact next a h

/-- Where any error will do, only what comes after a reading matters. -/
theorem bind_any {f : α → Except ε β} {done' : β → Prop}
    (next : ∀ a, Outcome (fun _ => True) done' (f a)) :
    Outcome (fun _ => True) done' (x >>= f) := by
  cases x with
  | error e => trivial
  | ok a => exact next a

/-- What comes after a reading only matters for its results. -/
theorem bind_congr {f g : α → Except ε β} (h : Outcome failed done x)
    (same : ∀ a, done a → f a = g a) : x >>= f = x >>= g := by
  cases x with
  | error e => rfl
  | ok a => exact same a h

theorem map {f : α → β} {done' : β → Prop} (h : Outcome failed done x)
    (results : ∀ a, done a → done' (f a)) : Outcome failed done' (x.map f) := by
  cases x with
  | error e => exact h
  | ok a => exact results a h

end Outcome

/-! ### Visible offsets -/

/-- An offset is in a part of a line that holds more than spaces. -/
def Text.IsVisible (s : Text) (pos : Nat) : Prop :=
  ∃ start v w, s.Holds start (v ++ w) ∧ '\n' ∉ v ++ w ∧
    (∃ c ∈ v ++ w, TagToken.isSkipped c = false) ∧ start + bytes v = pos

namespace Text

variable {s : Text} {pos : Nat} {c : Char}

theorem IsVisible.isBoundary (h : s.IsVisible pos) : s.isBoundary pos = true := by
  obtain ⟨start, v, w, held, -, -, rfl⟩ := h
  exact (holds_append_iff.1 held).1.isBoundary_stop

theorem ne_eol_of_isSkipped (h : TagToken.isSkipped c = false) : c ≠ '\n' := by
  rintro rfl
  cases h

/-- An offset at a character other than a space. -/
theorem Holds.isVisible (h : s.Holds pos [c]) (visible : TagToken.isSkipped c = false) :
    s.IsVisible pos := by
  refine ⟨pos, [], [c], h, ?_, ⟨c, List.mem_singleton_self c, visible⟩, rfl⟩
  exact fun mem => ne_eol_of_isSkipped visible (List.mem_singleton.1 mem).symm

/-- An offset is right after a character other than a space. -/
def IsPast (s : Text) (pos : Nat) : Prop :=
  ∃ p c, s.Holds p [c] ∧ TagToken.isSkipped c = false ∧ p + c.utf8Size = pos

/-- Further on in the same line. -/
theorem IsPast.isVisible_add {v : Text} (h : s.IsPast pos) (held : s.Holds pos v)
    (eol : '\n' ∉ v) : s.IsVisible (pos + bytes v) := by
  obtain ⟨p, c, stands, visible, rfl⟩ := h
  refine ⟨p, c :: v, [], ?_, ?_, ⟨c, by simp, visible⟩, ?_⟩
  · rw [List.append_nil]
    exact holds_cons_iff.2 ⟨stands, held⟩
  · rw [List.append_nil, List.mem_cons, not_or]
    exact ⟨(ne_eol_of_isSkipped visible).symm, eol⟩
  · rw [bytes_cons, Nat.add_assoc]

theorem IsPast.isVisible (h : s.IsPast pos) (boundary : s.isBoundary pos = true) :
    s.IsVisible pos :=
  h.isVisible_add (holds_nil_iff.2 boundary) List.not_mem_nil

end Text

/-! ### Faults -/

/-- The text that is to stand where a fault of the markup is found. -/
def SyntaxFault.Marks : SyntaxFault → Text → Prop
  | .unclosedDelimiter d, w => w = [d]
  | .unmatchedDelimiter d, w => w = [d]
  | .unclosedWidget name, w => w = '<' :: name.toList
  | .unterminatedString, w => ∃ quote, Expression.isQuote quote = true ∧ w = [quote]
  | .invalidMetadata _, _ => False
  | _, w => w = []

/-- An error is found at a visible offset of a text, where the text of the fault stands. -/
structure SyntaxError.Points (s : Text) (e : SyntaxError) : Prop where
  isVisible : s.IsVisible e.pos
  marks : ∃ w, e.fault.Marks w ∧ '\n' ∉ w ∧ (∀ c ∈ w.head?, TagToken.isSkipped c = false) ∧
    s.Holds e.pos w

theorem SyntaxError.points_of_holds {s : Text} {pos : Nat} {fault : SyntaxFault} {c : Char}
    {w : Text} (marks : fault.Marks (c :: w)) (held : s.Holds pos (c :: w)) (eol : '\n' ∉ w)
    (visible : TagToken.isSkipped c = false) : SyntaxError.Points s { pos, fault } where
  isVisible := (Text.holds_cons_iff.1 held).1.isVisible visible
  marks := by
    refine ⟨c :: w, marks, ?_, ?_, held⟩
    · rw [List.mem_cons, not_or]
      exact ⟨(Text.ne_eol_of_isSkipped visible).symm, eol⟩
    · rintro d ⟨⟩
      exact visible

/-- A fault that asks for no text is found at any visible offset. -/
theorem SyntaxError.points_of_isVisible {s : Text} {pos : Nat} {fault : SyntaxFault}
    (marks : fault.Marks []) (visible : s.IsVisible pos) : SyntaxError.Points s { pos, fault } where
  isVisible := visible
  marks := ⟨[], marks, List.not_mem_nil, nofun, Text.holds_nil_iff.2 visible.isBoundary⟩

namespace Region.Faithful

variable {source : Text} {r : Region}

theorem isVisible {n : Nat} (h : Faithful source r) (visible : r.text.IsVisible n) :
    source.IsVisible (r.toSource n) := by
  obtain ⟨start, v, w, held, eol, mem, rfl⟩ := visible
  obtain ⟨stands, -⟩ := h.holds held eol
  have first : '\n' ∉ v := fun mem => eol (List.mem_append_left w mem)
  obtain ⟨-, stop⟩ := h.holds (Text.holds_append_iff.1 held).1 first
  exact ⟨r.toSource start, v, w, stands, eol, mem, stop.symm⟩

theorem isPast {n : Nat} (h : Faithful source r) (past : r.text.IsPast n) :
    source.IsPast (r.toSource n) := by
  obtain ⟨p, c, held, visible, rfl⟩ := past
  obtain ⟨stands, next⟩ := (h.joins held).holds (Text.ne_eol_of_isSkipped visible)
  exact ⟨r.toSource p, c, stands, visible, next⟩

/-- An error that is found in a faithful region is found at the same text in the source. -/
theorem points {e : SyntaxError} (h : Faithful source r) (found : e.Points r.text) :
    (e.relocate r.toSource).Points source where
  isVisible := h.isVisible found.isVisible
  marks := by
    obtain ⟨w, marks, eol, visible, held⟩ := found.marks
    exact ⟨w, marks, eol, visible, (h.holds held eol).1⟩

end Region.Faithful

/-! ### Braced expressions -/

namespace Expression

variable {s t : Text} {at_ : Nat}

theorem isSkipped_of_isQuote {c : Char} (h : isQuote c = true) : TagToken.isSkipped c = false := by
  simp only [isQuote, Bool.or_eq_true, beq_iff_eq] at h
  rcases h with (rfl | rfl) | rfl <;> rfl

/-- A scan is outside strings, or in one whose quote stands where it starts. -/
def Mode.Fits (s : Text) : Mode → Prop
  | .outside => True
  | .inside quote start => isQuote quote = true ∧ s.Holds start [quote]
  | .escaped quote start => isQuote quote = true ∧ s.Holds start [quote]

/-- No brace is found at all, or none after a quote. -/
def Fault.Fits (s : Text) : Fault → Prop
  | .unclosed => True
  | .unterminated start => ∃ quote, isQuote quote = true ∧ s.Holds start [quote]

/-- A beginning of a text that ends with a closing brace. -/
def IsBraced (t e : Text) : Prop := e <+: t ∧ ∃ body, e = body ++ ['}']

theorem IsBraced.cons {e : Text} (c : Char) (h : IsBraced t e) : IsBraced (c :: t) (c :: e) := by
  obtain ⟨begins, body, rfl⟩ := h
  exact ⟨(List.prefix_cons_inj c).2 begins, c :: body, rfl⟩

/-- A scan ends at a brace, or fails in a string that is open. -/
theorem scan_outcome {mode : Mode} {depth : Int} (rest : s.IsRest at_ t) (fits : mode.Fits s) :
    Outcome (Fault.Fits s) (IsBraced t) (scan mode depth at_ t) := by
  fun_induction scan mode depth at_ t with
  | case1 => trivial
  | case2 quote start | case3 quote start => exact ⟨quote, fits⟩
  | case5 depth at_ c t opens closes =>
    rw [beq_iff_eq] at closes
    exact ⟨⟨t, rfl⟩, [], by rw [closes]; rfl⟩
  | case7 depth at_ c t _ opens closes quote ih =>
    -- the quote itself is where the string starts
    have stands : s.Holds at_ [c] := rest.holds_of_begins ⟨t, rfl⟩
    exact (ih rest.cons ⟨quote, stands⟩).map fun e => .cons c
  | case4 depth at_ c t _ _ ih => exact (ih rest.cons trivial).map fun e => .cons c
  | case6 depth at_ c t _ _ _ _ ih => exact (ih rest.cons trivial).map fun e => .cons c
  | case8 depth at_ c t _ _ _ _ ih => exact (ih rest.cons trivial).map fun e => .cons c
  | case10 quote start depth at_ c t _ _ _ ih => exact (ih rest.cons trivial).map fun e => .cons c
  | case9 quote start depth at_ c t _ _ ih => exact (ih rest.cons fits).map fun e => .cons c
  | case11 quote start depth at_ c t _ _ _ ih => exact (ih rest.cons fits).map fun e => .cons c
  | case12 quote start depth at_ c t ih => exact (ih rest.cons fits).map fun e => .cons c

/-- An expression ends with a brace; if it does not end, that is found at its own brace or at the
quote of a string. -/
theorem read_outcome (rest : s.IsRest at_ ('{' :: t)) :
    Outcome (SyntaxError.Points s) (IsBraced ('{' :: t)) (read at_ ('{' :: t)) := by
  have outcome : Outcome (Fault.Fits s) (IsBraced ('{' :: t)) (scan .outside 0 at_ ('{' :: t)) :=
    scan_outcome rest trivial
  unfold read
  split
  · rename_i scanned
    rw [scanned] at outcome
    exact outcome
  · exact SyntaxError.points_of_holds rfl (rest.holds_of_begins ⟨t, rfl⟩) List.not_mem_nil rfl
  · rename_i start scanned
    rw [scanned] at outcome
    obtain ⟨quote, is_quote, stands⟩ := outcome
    exact SyntaxError.points_of_holds ⟨quote, is_quote, rfl⟩ stands List.not_mem_nil
      (isSkipped_of_isQuote is_quote)

end Expression
end Folio
