import Folio.Proofs.Markup.WrittenTags

/-!
# What the search for a closing tag meets

The search for the closing tag of a body looks at one offset after another: at each it meets something,
which tells how many bodies are open after it and where to look next.

* `ClosingTag.Sight` and `ClosingTag.sightAt`: what is met at an offset;
* `ClosingTag.findFrom_look`: one look of the search, and `ClosingTag.findFrom_passed`: what is passed
  over between two looks;
* `ClosingTag.le_start_of_findFrom`: a closing tag is found where the search has come to, or later.
-/

namespace Folio

/-- Without its marks a line opens no fence. -/
theorem Fence.open?_of_not_mem {line : Text} (absent : '\x60' ∉ line ∧ '~' ∉ line) :
    Fence.open? line = none := by
  by_contra h
  obtain ⟨fence, h⟩ := Option.ne_none_iff_exists'.1 h
  have inside : ∀ c, (Text.trimStart line).head? = some c → c ∈ line := fun c first =>
    (List.dropWhile_suffix _).subset (List.mem_of_mem_head? first)
  rcases Fence.head?_of_open? h with first | first
  · exact absent.1 (inside _ first)
  · exact absent.2 (inside _ first)

namespace ClosingTag

/-! ### Tags and fences -/

section Marks

variable {name s t line : Text} {at_ : Nat}

theorem after?_eq_some_iff {lead : Text} :
    after? lead s = some t ↔ s = lead ++ t ∧ t.head?.any isNameChar = false := by
  unfold after?
  constructor
  · intro after
    split at after
    · rename_i begins
      cases after
      rw [Bool.and_eq_true, List.isPrefixOf_iff_prefix, Bool.not_eq_true'] at begins
      obtain ⟨⟨t, rfl⟩, ends⟩ := begins
      rw [List.drop_left] at ends ⊢
      exact ⟨rfl, ends⟩
    · cases after
  · rintro ⟨rfl, ends⟩
    rw [List.drop_left, ends, if_pos]
    rw [Bool.and_eq_true, List.isPrefixOf_iff_prefix]
    exact ⟨List.prefix_append _ _, rfl⟩

/-- No name goes on where a closing tag ends, or before white space. -/
theorem head?_any_closing {blanks : Text} (blank : ∀ c ∈ blanks, Text.isBlankChar c = true)
    (rest : Text) : (blanks ++ '>' :: rest).head?.any isNameChar = false := by
  cases blanks with
  | nil => rfl
  | cons c blanks =>
    have space := blank c List.mem_cons_self
    have other : ¬ isNameChar c = true := fun letter =>
      absurd (isBlankChar_of_isNameChar letter) (by simp [space])
    exact Bool.eq_false_iff.2 other

/-- A closing tag: white space may stand after its name. -/
theorem size?_eq_some_iff {size : Nat} :
    size? name s = some size ↔
      ∃ blanks rest, (∀ c ∈ blanks, Text.isBlankChar c = true) ∧
        s = ('<' :: '/' :: name) ++ (blanks ++ '>' :: rest) ∧
        size = Text.bytes ('<' :: '/' :: name) + Text.bytes blanks + 1 := by
  unfold size?
  dsimp only
  constructor
  · intro found
    cases after : after? ('<' :: '/' :: name) s with
    | none =>
      rw [after] at found
      cases found
    | some t =>
      obtain ⟨rfl, -⟩ := after?_eq_some_iff.1 after
      rw [after] at found
      simp only [bind, Option.bind] at found
      split at found
      · rename_i close
        cases found
        rw [Text.drop_length_takeWhile, beq_iff_eq] at close
        obtain ⟨rest, angle⟩ := List.head?_eq_some_iff.1 close
        refine ⟨t.takeWhile Text.isBlankChar, rest, fun c mem => ?_, ?_, rfl⟩
        · exact List.all_eq_true.1 List.all_takeWhile c mem
        · rw [← angle, List.takeWhile_append_dropWhile]
      · cases found
  · rintro ⟨blanks, rest, blank, rfl, rfl⟩
    have close : ¬ Text.isBlankChar '>' = true := by decide
    have ends := head?_any_closing blank rest
    have run : (blanks ++ '>' :: rest).takeWhile Text.isBlankChar = blanks := by
      rw [List.takeWhile_append_of_pos blank, List.takeWhile_cons_of_neg close, List.append_nil]
    rw [after?_eq_some_iff.2 ⟨rfl, ends⟩]
    simp only [bind, Option.bind, run, List.drop_left]
    rfl

theorem reopening?_eq_some_iff {tag : OpenTag} :
    reopening? name at_ s = some tag ↔
      (after? ('<' :: name) s).isSome = true ∧ OpenTag.read at_ s = .ok tag := by
  unfold reopening?
  cases after? ('<' :: name) s with
  | none => simp
  | some t => cases OpenTag.read at_ s <;> simp [Except.toOption]

/-- A fenced block may begin in a line that has lines after it. -/
theorem pastFence?_line (eol : '\n' ∉ line) (at_ : Nat) (t : Text) :
    pastFence? at_ (line ++ '\n' :: t) =
      (Fence.open? line).map fun fence => fence.skip (at_ + Text.bytes line + 1) t := by
  have first : (line ++ '\n' :: t).takeWhile (· != '\n') = line := by
    rw [Text.takeWhile_append_eol (by decide), Text.takeWhile_ne_eol eol]
  have rest : (line ++ '\n' :: t).drop (line.length + 1) = t := by
    rw [← List.drop_drop, List.drop_left]
    rfl
  rw [pastFence?, first, rest]
  cases Fence.open? line <;> rfl

/-- A fenced block may begin in the last line, and ends past it. -/
theorem pastFence?_last (eol : '\n' ∉ line) (at_ : Nat) :
    pastFence? at_ line = (Fence.open? line).map fun _ => at_ + Text.bytes line + 1 := by
  rw [pastFence?, Text.takeWhile_ne_eol eol, List.drop_eq_nil_of_le (Nat.le_succ _)]
  cases Fence.open? line <;> rfl

end Marks

/-! ### One look -/

/-- What is met at an offset: a fenced block, the end of a line, a code span or backticks that begin
none, a closing tag of some size, an opening tag of the same widget, or something else. -/
inductive Sight
  | fence (stop : Nat)
  | lineEnd
  | code (stop : Nat)
  | closing (size : Nat)
  | reopening (tag : OpenTag)
  | other
  deriving DecidableEq, Repr

namespace Sight

/-- The number of open bodies after what is met, unless it closes the last one. -/
def depth? : Sight → Nat → Option Nat
  | .closing _, 0 => none
  | .closing _, depth + 1 => some depth
  | .reopening tag, depth => some (if tag.selfClosing then depth else depth + 1)
  | _, depth => some depth

/-- Whether a line starts after what is met. -/
def lineStart : Sight → Bool
  | .fence _ | .lineEnd => true
  | _ => false

/-- The offset after what is met at an offset, where a character stands. -/
def stop (at_ : Nat) (c : Char) : Sight → Nat
  | .fence stop | .code stop => stop
  | .closing size => at_ + size
  | .reopening tag => tag.stop
  | .lineEnd | .other => at_ + c.utf8Size

end Sight

/-- The offset past a fenced block that may begin here. -/
def fenceAt? (lineStart : Bool) (at_ : Nat) (s : Text) : Option Nat :=
  if lineStart then pastFence? at_ s else none

/-- What is met at an offset before the text `c :: s`. -/
def sightAt (name : Text) (lineStart : Bool) (at_ : Nat) (c : Char) (s : Text) : Sight :=
  match fenceAt? lineStart at_ (c :: s) with
  | some stop => .fence stop
  | none =>
    if c == '\n' then .lineEnd
    else if c == '\x60' then .code (pastCode at_ (c :: s))
    else
      match size? name (c :: s), reopening? name at_ (c :: s) with
      | some size, _ => .closing size
      | none, some tag => .reopening tag
      | none, none => .other

variable {name w s : Text} {depth resume resume' at_ n : Nat} {lineStart : Bool} {c : Char}
  {close : ClosingTag}

/-- One look of the search. -/
theorem findFrom_look (reached : resume ≤ at_) :
    findFrom name depth lineStart resume at_ (c :: s) =
      match (sightAt name lineStart at_ c s).depth? depth with
      | none => some { start := at_, stop := (sightAt name lineStart at_ c s).stop at_ c }
      | some depth =>
        findFrom name depth (sightAt name lineStart at_ c s).lineStart
          ((sightAt name lineStart at_ c s).stop at_ c) (at_ + c.utf8Size) s := by
  rw [findFrom, if_neg (Nat.not_lt_of_le reached), sightAt, ← fenceAt?]
  cases fenceAt? lineStart at_ (c :: s) with
  | some stop => rfl
  | none =>
    by_cases eol : (c == '\n') = true
    · simp only [if_pos eol]
      rfl
    by_cases tick : (c == '\x60') = true
    · simp only [if_neg eol, if_pos tick]
      rfl
    simp only [if_neg eol, if_neg tick]
    cases size? name (c :: s) with
    | some size => cases depth <;> rfl
    | none => cases reopening? name at_ (c :: s) <;> rfl

/-- Characters before the next look are passed over. -/
theorem findFrom_passed (le : at_ + Text.bytes w ≤ resume) :
    findFrom name depth lineStart resume at_ (w ++ s) =
      findFrom name depth lineStart resume (at_ + Text.bytes w) s := by
  induction w generalizing at_ with
  | nil => rfl
  | cons c w ih =>
    have size := c.utf8Size_pos
    rw [Text.bytes_cons] at le
    rw [List.cons_append, findFrom, if_pos (by omega), ih (by omega), Text.bytes_cons, Nat.add_assoc]

/-- Nothing is found in a text that is passed over. -/
theorem findFrom_eq_none (le : at_ + Text.bytes s ≤ resume) :
    findFrom name depth lineStart resume at_ s = none := by
  rw [← List.append_nil s, findFrom_passed le]
  rfl

/-- A closing tag is found where the search has come to, or later. -/
theorem le_start_of_findFrom (found : findFrom name depth lineStart resume at_ s = some close) :
    resume ≤ close.start ∧ at_ ≤ close.start := by
  induction s generalizing depth lineStart resume at_ with
  | nil => cases found
  | cons c s ih =>
    by_cases passed : at_ < resume
    · rw [findFrom, if_pos passed] at found
      obtain ⟨le, le'⟩ := ih found
      exact ⟨le, Nat.le_of_add_right_le le'⟩
    · have reached := Nat.le_of_not_lt passed
      rw [findFrom_look reached] at found
      split at found
      · cases found
        exact ⟨reached, Nat.le_refl at_⟩
      · obtain ⟨-, le⟩ := ih found
        omega

theorem sightAt_of_fenced {stop : Nat} (fence : fenceAt? lineStart at_ (c :: s) = some stop) :
    sightAt name lineStart at_ c s = .fence stop := by
  rw [sightAt, fence]

/-- Only a closing tag ends the search. -/
theorem exists_of_depth?_eq_none {sight : Sight} (last : sight.depth? depth = none) :
    depth = 0 ∧ ∃ size, sight = .closing size := by
  cases sight with
  | closing size =>
    cases depth with
    | zero => exact ⟨rfl, size, rfl⟩
    | succ depth => cases last
  | _ => cases last

theorem size?_of_sightAt {size : Nat} (sight : sightAt name lineStart at_ c s = .closing size) :
    fenceAt? lineStart at_ (c :: s) = none ∧ size? name (c :: s) = some size := by
  unfold sightAt at sight
  split at sight
  · cases sight
  · rename_i unfenced
    split at sight
    · cases sight
    · split at sight
      · cases sight
      · split at sight
        · rename_i sized
          cases sight
          exact ⟨unfenced, sized⟩
        · cases sight
        · cases sight

/-- A text in which a closing tag is found holds an angle bracket. -/
theorem angle_mem_of_findFrom (found : findFrom name depth lineStart resume at_ s = some close) :
    '<' ∈ s := by
  induction s generalizing depth lineStart resume at_ with
  | nil => cases found
  | cons c s ih =>
    by_cases passed : at_ < resume
    · rw [findFrom, if_pos passed] at found
      exact List.mem_cons_of_mem c (ih found)
    · rw [findFrom_look (Nat.le_of_not_lt passed)] at found
      split at found
      · rename_i last
        obtain ⟨-, size, sight⟩ := exists_of_depth?_eq_none last
        by_cases angle : c = '<'
        · rw [angle]
          exact List.mem_cons_self
        · have none := (size?_of_sightAt sight).2
          rw [size?_of_ne angle] at none
          cases none
      · exact List.mem_cons_of_mem c (ih found)

end ClosingTag
end Folio
