import Folio.Proofs.Markup.Sights
import Folio.Proofs.Markup.TagExtent

/-!
# The end of a widget and what comes after it

The search for a closing tag looks ahead where backticks and tags begin, and sees all of the document
there. So what comes after a widget may have a part in where the widget ends: it may close backticks, or
finish a tag, that were left open in the body.

* `ClosingTag.looks`: the places at which the search looks;
* `ClosingTag.Look.IsClosedBy`: what is left open at a place is closed by a text after it;
* `ClosingTag.find?_continued_iff`: a closing tag is still found with a text after it exactly when this
  text closes nothing that was left open before the closing tag.
-/

namespace Folio

/-! ### Patterns in a longer text -/

namespace Text

variable {p s : Text} {n : Nat}

/-- A pattern stands where it is found. -/
theorem take_append_prefix_of_find? (found : find? p s = some n) : s.take n ++ p <+: s := by
  induction s generalizing n with
  | nil =>
    unfold find? at found
    split at found
    · rename_i empty
      rw [List.isEmpty_iff.1 empty, List.take_nil]
      exact List.prefix_rfl
    · cases found
  | cons c s ih =>
    unfold find? at found
    split at found
    · rename_i begins
      cases found
      exact List.isPrefixOf_iff_prefix.1 begins
    · obtain ⟨n, later, rfl⟩ := Option.map_eq_some_iff.1 found
      exact (List.prefix_cons_inj c).2 (ih later)

/-- A pattern that is not found stands nowhere in the text. -/
theorem not_infix_of_find? (absent : find? p s = none) : ¬ p <:+: s := by
  induction s with
  | nil =>
    unfold find? at absent
    split at absent
    · cases absent
    · rename_i nonempty
      intro inside
      exact nonempty (List.isEmpty_iff.2 (List.infix_nil.1 inside))
  | cons c s ih =>
    unfold find? at absent
    split at absent
    · cases absent
    · rename_i other
      rw [List.infix_cons_iff, not_or]
      exact ⟨fun begins => other (List.isPrefixOf_iff_prefix.2 begins),
        ih (Option.map_eq_none_iff.1 absent)⟩

/-- A pattern is found at the same place when the text goes on. -/
theorem find?_append_of_some (found : find? p s = some n) (w : Text) : find? p (s ++ w) = some n := by
  induction s generalizing n with
  | nil =>
    unfold find? at found
    split at found
    · rename_i empty
      obtain rfl := List.isEmpty_iff.1 empty
      cases w <;> exact found
    · cases found
  | cons c s ih =>
    unfold find? at found
    rw [List.cons_append, find?]
    split at found
    · rename_i begins
      have begins' : p.isPrefixOf (c :: (s ++ w)) = true :=
        List.isPrefixOf_iff_prefix.2 ((List.isPrefixOf_iff_prefix.1 begins).trans ⟨w, rfl⟩)
      rw [if_pos begins', found]
    · rename_i other
      obtain ⟨n, later, rfl⟩ := Option.map_eq_some_iff.1 found
      have other' : ¬ p.isPrefixOf (c :: (s ++ w)) = true := by
        intro begins
        have short : p.length ≤ (c :: s).length := by
          have le := (take_append_prefix_of_find? later).length_le
          rw [List.length_append] at le
          rw [List.length_cons]
          omega
        have whole : c :: s <+: c :: (s ++ w) := ⟨w, rfl⟩
        exact other (List.isPrefixOf_iff_prefix.2
          (List.prefix_of_prefix_length_le (List.isPrefixOf_iff_prefix.1 begins) whole short))
      rw [if_neg other', ih later]
      rfl

end Text

/-! ### Fences -/

namespace Fence

variable {ls : List (Text × LineEnding)}

/-- A fenced block that ends before its text does ends there when the text goes on. -/
theorem extent_append (f : Fence) (divided : Line.Divided ls)
    (lt : f.extent ls < Text.bytes (ls.flatMap fun l => l.1 ++ l.2.text)) (w : Text) :
    f.extent (Line.divide ((ls.flatMap fun l => l.1 ++ l.2.text) ++ w)) = f.extent ls := by
  induction ls with
  | nil => cases lt
  | cons l ls ih =>
    obtain ⟨t, e⟩ := l
    obtain ⟨whole, last, more⟩ := divided
    have ended : e ≠ .none := by
      rintro rfl
      obtain ⟨-, rfl⟩ := last rfl
      simp [extent] at lt
    rw [List.flatMap_cons, Text.bytes_append, Text.bytes_append, extent] at lt
    rw [List.flatMap_cons, List.append_assoc, List.append_assoc, Line.divide_append whole ended,
      extent, extent]
    by_cases closes : f.closes t = true
    · rw [if_pos closes, if_pos closes]
    · rw [if_neg closes] at lt
      rw [if_neg closes, if_neg closes, ih more (by dsimp only at lt; omega)]

end Fence

namespace ClosingTag

variable {name s t w line : Text} {at_ stop : Nat}

theorem pastFence?_append_of_none (none : pastFence? at_ s = none) (w : Text) :
    pastFence? at_ (s ++ '\n' :: w) = Option.none := by
  by_cases eol : '\n' ∈ s
  · obtain ⟨line, t, rfl, first⟩ := List.eq_append_cons_of_mem eol
    rw [pastFence?_line first, Option.map_eq_none_iff] at none
    rw [List.append_assoc, List.cons_append, pastFence?_line first, none]
    rfl
  · rw [pastFence?_last eol, Option.map_eq_none_iff] at none
    rw [pastFence?_line eol, none]
    rfl

theorem pastFence?_append_of_lt (fence : pastFence? at_ s = some stop)
    (lt : stop < at_ + Text.bytes s) (w : Text) : pastFence? at_ (s ++ '\n' :: w) = some stop := by
  by_cases eol : '\n' ∈ s
  · obtain ⟨line, t, rfl, first⟩ := List.eq_append_cons_of_mem eol
    rw [pastFence?_line first, Option.map_eq_some_iff] at fence
    obtain ⟨fence, opened, rfl⟩ := fence
    rw [List.append_assoc, List.cons_append, pastFence?_line first, opened, Option.map_some, Fence.skip,
      Fence.skip]
    have text : ((Line.divide t).flatMap fun l => l.1 ++ l.2.text) = t := Line.join_divide t
    have short : fence.extent (Line.divide t) < Text.bytes t := by
      have size : '\n'.utf8Size = 1 := rfl
      rw [Fence.skip, Text.bytes_append, Text.bytes_cons, size] at lt
      omega
    have same := fence.extent_append (Line.divided_divide t) (by rwa [text]) ('\n' :: w)
    rw [text] at same
    rw [same]
  · rw [pastFence?_last eol, Option.map_eq_some_iff] at fence
    obtain ⟨fence, -, rfl⟩ := fence
    omega

/-! ### Backticks -/

/-- Backticks at the start of a text that close nothing in it, but in the text with `w` after it. -/
def IsOpenRun (s w : Text) : Prop :=
  let run := s.takeWhile (· == '\x60')
  let rest := s.drop run.length
  Text.find? run rest = none ∧ (Text.find? run (rest ++ w)).isSome = true

instance (s w : Text) : Decidable (IsOpenRun s w) := inferInstanceAs (Decidable (_ ∧ _))

theorem pastCode_append (shut : ¬ IsOpenRun s ('\n' :: w)) :
    pastCode at_ (s ++ '\n' :: w) = pastCode at_ s := by
  have le := (List.takeWhile_prefix (p := (· == '\x60')) (l := s)).length_le
  rw [IsOpenRun, not_and, Bool.not_eq_true, Option.isSome_eq_false_iff, Option.isNone_iff_eq_none]
    at shut
  unfold pastCode
  rw [Text.takeWhile_append_eol (by decide)]
  dsimp only
  rw [List.drop_append_of_le_length le]
  cases found : Text.find? (s.takeWhile (· == '\x60')) (s.drop (s.takeWhile (· == '\x60')).length) with
  | none => rw [shut found]
  | some n =>
    rw [Text.find?_append_of_some found]
    dsimp only
    rw [List.take_append_of_le_length (Text.le_length_of_find? found)]

theorem lt_pastCode (open_ : IsOpenRun s ('\n' :: w)) :
    at_ + Text.bytes s < pastCode at_ (s ++ '\n' :: w) := by
  obtain ⟨absent, found⟩ := open_
  have le := (List.takeWhile_prefix (p := (· == '\x60')) (l := s)).length_le
  have parts := List.takeWhile_append_dropWhile (p := (· == '\x60')) (l := s)
  have size : Text.bytes (s.takeWhile (· == '\x60')) = (s.takeWhile (· == '\x60')).length := by
    refine Text.bytes_eq_length fun c mem => ?_
    have tick := List.all_eq_true.1 (List.all_takeWhile (p := (· == '\x60')) (l := s)) c mem
    rw [beq_iff_eq.1 tick]
    rfl
  unfold pastCode
  rw [Text.takeWhile_append_eol (by decide)]
  dsimp only
  rw [List.drop_append_of_le_length le]
  rw [← Text.drop_length_takeWhile] at parts
  generalize s.takeWhile (· == '\x60') = run at *
  generalize s.drop run.length = rest at *
  obtain ⟨n, found⟩ := Option.isSome_iff_exists.1 found
  rw [found]
  dsimp only
  have stands := Text.take_append_prefix_of_find? found
  have far : Text.bytes rest < Text.bytes ((rest ++ '\n' :: w).take n ++ run) := by
    by_contra near
    obtain ⟨after, whole⟩ := stands
    obtain ⟨more, inside⟩ := Text.prefix_of_bytes_le whole (Nat.le_of_not_lt near)
    exact Text.not_infix_of_find? absent ⟨_, more, inside.symm⟩
  rw [Text.bytes_append] at far
  rw [← parts, Text.bytes_append]
  omega

/-! ### Tags -/

/-- Where a closing tag begins, it ends at the same place when the text goes on. -/
theorem size?_append_of_some {size : Nat} (found : size? name s = some size) (w : Text) :
    size? name (s ++ w) = some size := by
  obtain ⟨blanks, rest, blank, rfl, rfl⟩ := size?_eq_some_iff.1 found
  refine size?_eq_some_iff.2 ⟨blanks, rest ++ w, blank, ?_, rfl⟩
  simp only [List.append_assoc, List.cons_append]

/-- No closing tag that begins before an angle bracket is finished by the text after it. -/
theorem size?_append_of_none {c : Char} (named : ∀ d ∈ name, isNameChar d = true) (angle : '<' ∈ s)
    (absent : size? name (c :: s) = none) (w : Text) : size? name (c :: (s ++ w)) = none := by
  rw [Option.eq_none_iff_forall_ne_some] at absent ⊢
  intro size found
  obtain ⟨blanks, rest, blank, parts, rfl⟩ := size?_eq_some_iff.1 found
  rw [List.cons_append] at parts
  obtain ⟨rfl, parts⟩ := List.cons.inj parts
  have outside : '<' ∉ '/' :: name ++ blanks := by
    simp only [List.cons_append, List.mem_cons, List.mem_append, not_or]
    exact ⟨by decide, fun letter => absurd (named _ letter) (by decide),
      fun space => absurd (blank _ space) (by decide)⟩
  -- the text may end in the name or in the white space after it, or later
  have parts' : s ++ w = ('/' :: name ++ blanks) ++ '>' :: rest := by simpa using parts
  obtain ⟨more, text, -⟩ | ⟨more, text, after⟩ := List.append_eq_append_iff.1 parts'
  · exact absurd (text ▸ List.mem_append_left _ angle) outside
  · cases more with
    | nil =>
      rw [List.append_nil] at text
      exact absurd (text ▸ angle) outside
    | cons d more =>
      obtain ⟨rfl, -⟩ := List.cons.inj after
      refine absent _ (size?_eq_some_iff.2 ⟨blanks, more, blank, ?_, rfl⟩)
      rw [text, List.append_assoc]
      rfl

theorem reopening?_append_of_some {tag : OpenTag} (eol : '\n' ∉ name)
    (found : reopening? name at_ s = some tag) (w : Text) :
    reopening? name at_ (s ++ '\n' :: w) = some tag := by
  have lead : '\n' ∉ '<' :: name := by simp [eol]
  obtain ⟨after, read⟩ := reopening?_eq_some_iff.1 found
  rw [reopening?_eq_some_iff, after?_append_eol lead, Option.isSome_map]
  refine ⟨after, ?_⟩
  obtain ⟨t, after⟩ := Option.isSome_iff_exists.1 after
  obtain ⟨rfl, -⟩ := after?_eq_some_iff.1 after
  rw [List.cons_append] at read ⊢
  obtain ⟨own, rest, parts, -, same⟩ := OpenTag.exists_own_of_read read
  rw [parts, List.cons_append, List.append_assoc, same]

/-- A tag that is finished by the text after it ends there. -/
theorem lt_stop_of_reopening? {tag : OpenTag} (eol : '\n' ∉ name) (absent : reopening? name at_ s = none)
    (found : reopening? name at_ (s ++ '\n' :: w) = some tag) : at_ + Text.bytes s < tag.stop := by
  have lead : '\n' ∉ '<' :: name := by simp [eol]
  obtain ⟨after, read⟩ := reopening?_eq_some_iff.1 found
  rw [after?_append_eol lead, Option.isSome_map] at after
  obtain ⟨t, begins⟩ := Option.isSome_iff_exists.1 after
  obtain ⟨rfl, -⟩ := after?_eq_some_iff.1 begins
  by_contra near
  rw [List.cons_append, List.cons_append] at read
  obtain ⟨own, rest, parts, stop, same⟩ := OpenTag.exists_own_of_read read
  have short : Text.bytes own ≤ Text.bytes (name ++ t) := by
    rw [stop, List.cons_append, Text.bytes_cons, Text.bytes_cons] at near
    omega
  obtain ⟨more, inside⟩ := Text.prefix_of_bytes_le parts.symm short
  have read' : OpenTag.read at_ ('<' :: name ++ t) = .ok tag := by
    rw [List.cons_append, inside]
    exact same more
  rw [reopening?_eq_some_iff.2 ⟨after, read'⟩] at absent
  cases absent

/-! ### What the search meets -/

/-- A place at which the search looks: its offset, the text from there on and what is met. -/
structure Look where
  at_ : Nat
  rest : Text
  sight : Sight
  deriving DecidableEq, Repr

/-- What is left open at a place is closed by the text `w` after it: backticks, or an opening tag of the
same widget. -/
def Look.IsClosedBy (name w : Text) (look : Look) : Prop :=
  match look.sight with
  | .code _ => IsOpenRun look.rest w
  | .other => (reopening? name look.at_ (look.rest ++ w)).isSome = true
  | _ => False

instance (name w : Text) (look : Look) : Decidable (look.IsClosedBy name w) := by
  unfold Look.IsClosedBy
  split <;> infer_instance

/-- The places at which the search looks from an offset on, if it does not end before. -/
def looksFrom (name : Text) : Bool → Nat → Nat → Text → List Look
  | _, _, _, [] => []
  | lineStart, resume, at_, c :: s =>
    if at_ < resume then looksFrom name lineStart resume (at_ + c.utf8Size) s
    else
      let sight := sightAt name lineStart at_ c s
      { at_, rest := c :: s, sight } ::
        looksFrom name sight.lineStart (sight.stop at_ c) (at_ + c.utf8Size) s

/-- The places at which the search for a closing tag looks in the text `s` at offset `at_`. -/
def looks (name : Text) (lineStart : Bool) (at_ : Nat) (s : Text) : List Look :=
  looksFrom name lineStart at_ at_ s

variable {depth resume : Nat} {lineStart : Bool} {c : Char} {look : Look} {close : ClosingTag}

theorem le_at_of_mem_looksFrom (mem : look ∈ looksFrom name lineStart resume at_ s) : at_ ≤ look.at_ := by
  induction s generalizing lineStart resume at_ with
  | nil => cases mem
  | cons c s ih =>
    rw [looksFrom] at mem
    split at mem
    · exact Nat.le_of_add_right_le (ih mem)
    · obtain rfl | later := List.mem_cons.1 mem
      · exact Nat.le_refl at_
      · exact Nat.le_of_add_right_le (ih later)

section Continued

variable (named : ∀ d ∈ name, isNameChar d = true)

theorem fenceAt?_append_of_none (none : fenceAt? lineStart at_ s = none) (w : Text) :
    fenceAt? lineStart at_ (s ++ '\n' :: w) = Option.none := by
  cases lineStart with
  | false => rfl
  | true => exact pastFence?_append_of_none none w

theorem fenceAt?_append_of_lt (fence : fenceAt? lineStart at_ s = some stop)
    (lt : stop < at_ + Text.bytes s) (w : Text) :
    fenceAt? lineStart at_ (s ++ '\n' :: w) = some stop := by
  cases lineStart with
  | false => cases fence
  | true => exact pastFence?_append_of_lt fence lt w

include named in
/-- When the text goes on, the same is met at a place before an angle bracket, or something that was left
open there is closed and the search goes on past the end of the first text. -/
theorem sightAt_append (fenced : ∀ stop, fenceAt? lineStart at_ (c :: s) = some stop →
      stop < at_ + Text.bytes (c :: s)) (angle : '<' ∈ s) (w : Text) :
    Look.IsClosedBy name ('\n' :: w) ⟨at_, c :: s, sightAt name lineStart at_ c s⟩ ∧
        at_ + Text.bytes (c :: s) < (sightAt name lineStart at_ c (s ++ '\n' :: w)).stop at_ c ∨
      ¬ Look.IsClosedBy name ('\n' :: w) ⟨at_, c :: s, sightAt name lineStart at_ c s⟩ ∧
        sightAt name lineStart at_ c (s ++ '\n' :: w) = sightAt name lineStart at_ c s := by
  have eol_name := eol_not_mem_name named
  have goes_on : c :: (s ++ '\n' :: w) = c :: s ++ '\n' :: w := rfl
  cases fence : fenceAt? lineStart at_ (c :: s) with
  | some stop =>
    have fence' := fenceAt?_append_of_lt fence (fenced stop fence) w
    rw [List.cons_append] at fence'
    rw [sightAt_of_fenced fence, sightAt_of_fenced fence']
    exact .inr ⟨id, rfl⟩
  | none =>
    unfold sightAt
    rw [goes_on, fence, fenceAt?_append_of_none fence w]
    dsimp only
    by_cases eol : (c == '\n') = true
    · rw [if_pos eol, if_pos eol]
      exact .inr ⟨id, rfl⟩
    rw [if_neg eol, if_neg eol]
    by_cases tick : (c == '\x60') = true
    · rw [if_pos tick, if_pos tick]
      by_cases open_ : IsOpenRun (c :: s) ('\n' :: w)
      · exact .inl ⟨open_, lt_pastCode open_⟩
      · exact .inr ⟨open_, congrArg Sight.code (pastCode_append open_)⟩
    rw [if_neg tick, if_neg tick]
    cases sized : size? name (c :: s) with
    | some size =>
      rw [size?_append_of_some sized]
      exact .inr ⟨id, rfl⟩
    | none =>
      rw [← goes_on, size?_append_of_none named angle sized, goes_on]
      cases reopened : reopening? name at_ (c :: s) with
      | some tag =>
        rw [reopening?_append_of_some eol_name reopened]
        exact .inr ⟨id, rfl⟩
      | none =>
        cases found : reopening? name at_ (c :: s ++ '\n' :: w) with
        | some tag =>
          refine .inl ⟨Option.isSome_iff_exists.2 ⟨tag, found⟩, ?_⟩
          exact lt_stop_of_reopening? eol_name reopened found
        | none => exact .inr ⟨Option.not_isSome_iff_eq_none.2 found, rfl⟩

/-- A closing tag stays one when the text goes on. -/
theorem sightAt_append_closing {size : Nat} (sight : sightAt name lineStart at_ c s = .closing size)
    (w : Text) : sightAt name lineStart at_ c (s ++ '\n' :: w) = .closing size := by
  obtain ⟨fence, sized⟩ := size?_of_sightAt sight
  have angle : c = '<' := by
    by_contra other
    rw [size?_of_ne other] at sized
    cases sized
  subst angle
  have fence' := fenceAt?_append_of_none fence w
  have sized' := size?_append_of_some sized ('\n' :: w)
  rw [List.cons_append] at fence' sized'
  rw [sightAt, fence', sized']
  rfl

/-- A fence before a closing tag that is found ends before the text does. -/
theorem lt_of_fenceAt? (fence : fenceAt? lineStart at_ (c :: s) = some stop)
    (found : findFrom name depth (sightAt name lineStart at_ c s).lineStart
      ((sightAt name lineStart at_ c s).stop at_ c) (at_ + c.utf8Size) s = some close) :
    stop < at_ + Text.bytes (c :: s) := by
  by_contra past
  rw [sightAt_of_fenced fence] at found
  rw [Text.bytes_cons] at past
  have passed : findFrom name depth true stop (at_ + c.utf8Size) s = none :=
    findFrom_eq_none (by omega)
  exact absurd (passed.symm.trans found) (by simp)

include named in
theorem findFrom_continued_iff (found : findFrom name depth lineStart resume at_ s = some close)
    (w : Text) :
    findFrom name depth lineStart resume at_ (s ++ '\n' :: w) = some close ↔
      ∀ look ∈ looksFrom name lineStart resume at_ s, look.at_ < close.start →
        ¬ look.IsClosedBy name ('\n' :: w) := by
  induction s generalizing depth lineStart resume at_ with
  | nil => cases found
  | cons c s ih =>
    by_cases passed : at_ < resume
    · rw [findFrom, if_pos passed] at found
      rw [List.cons_append, findFrom, if_pos passed, looksFrom, if_pos passed]
      exact ih found
    have reached := Nat.le_of_not_lt passed
    have whole := found
    rw [findFrom_look reached] at found
    rw [List.cons_append, findFrom_look reached, looksFrom, if_neg passed]
    split at found
    · -- the closing tag is met here, and no later look counts
      rename_i last
      obtain ⟨rfl, size, sight⟩ := exists_of_depth?_eq_none last
      cases found
      rw [sightAt_append_closing sight, sight]
      refine iff_of_true rfl fun look mem before => ?_
      obtain rfl | later := List.mem_cons.1 mem
      · exact absurd before (Nat.lt_irrefl at_)
      · have le := le_at_of_mem_looksFrom later
        dsimp only at before
        omega
    · -- the closing tag is found later, by the same way or by none
      rename_i depth' open_
      have angle := angle_mem_of_findFrom found
      obtain ⟨le_start, lt_start⟩ := le_start_of_findFrom found
      have size := c.utf8Size_pos
      obtain ⟨before, after, parts, start⟩ := start_of_findFrom whole
      rw [List.forall_mem_cons]
      obtain ⟨closed, far⟩ | ⟨shut, same⟩ := sightAt_append named
        (fun _ fence => lt_of_fenceAt? fence found) angle w
      · refine iff_of_false (fun found' => ?_) fun none => none.1 ?_ closed
        · rw [parts, Text.bytes_append] at far
          split at found'
          · cases found'
            dsimp only at lt_start
            omega
          · obtain ⟨le, -⟩ := le_start_of_findFrom found'
            omega
        · show at_ < close.start
          omega
      · rw [same, open_]
        dsimp only
        rw [ih found]
        exact (and_iff_right fun _ => shut).symm

end Continued

/-- **Where a widget ends depends on what follows it exactly as far as that closes something the body left
open.** A closing tag that is found in a text is found with more lines after the text if and only if these
lines close no backticks, and finish no opening tag of the same name, at a place where the search looks
before the closing tag. -/
theorem find?_continued_iff (named : ∀ d ∈ name, isNameChar d = true)
    (found : find? name lineStart at_ s = some close) (w : Text) :
    find? name lineStart at_ (s ++ '\n' :: w) = some close ↔
      ∀ look ∈ looks name lineStart at_ s, look.at_ < close.start →
        ¬ look.IsClosedBy name ('\n' :: w) :=
  findFrom_continued_iff named found w

/-- A body with code and a widget of the same name, and a paragraph with backticks after it. -/
theorem find?_continued_by_paragraph :
    (∀ d ∈ "Box".toList, isNameChar d = true) ∧
      find? "Box".toList false 5 "`</Box>`<Box>a</Box></Box>".toList = some ⟨25, 31⟩ ∧
      find? "Box".toList false 5 ("`</Box>`<Box>a</Box></Box>".toList ++ '\n' :: "\n`b` ``".toList) =
        some ⟨25, 31⟩ := by
  have named : ∀ d ∈ "Box".toList, isNameChar d = true := List.all_eq_true.1 (by decide)
  have found : find? "Box".toList false 5 "`</Box>`<Box>a</Box></Box>".toList = some ⟨25, 31⟩ := by
    decide +kernel
  refine ⟨named, found, (find?_continued_iff named found "\n`b` ``".toList).2 ?_⟩
  decide +kernel

/-- Backticks in a paragraph after a widget close those that stand alone in its body: the closing tag is
not found any more. -/
theorem find?_openBacktick :
    find? "Box".toList false 5 "a ` b</Box>".toList = some ⟨10, 16⟩ ∧
      find? "Box".toList false 5 ("a ` b</Box>".toList ++ '\n' :: "\n`".toList) = none := by
  decide +kernel

end ClosingTag
end Folio
