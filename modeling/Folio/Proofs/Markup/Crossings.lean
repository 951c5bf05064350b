import Folio.Proofs.Markup.Sights
import Folio.Proofs.Markup.WrittenWidgets

/-!
# What the search for a closing tag goes through

The search for a closing tag goes through a text if it stops nowhere in it, whatever comes after the text.
Texts that it goes through can be put together.

* `ClosingTag.Crosses`: the search goes through a text, with so many bodies open before and after it;
* `ClosingTag.Crosses.unfenced_line`, `ClosingTag.Crosses.opening`, `ClosingTag.Crosses.closing`: lines of
  text and of tags;
* `ClosingTag.find?_of_crosses`: the closing tag after a body is found if the search goes through the body.
-/

namespace Folio

/-- A widget's name made of letters and digits. -/
structure PlainName where
  text : Text
  starts : text.head?.any isUpper = true
  chars : ∀ c ∈ text, c.isAlphanum = true

theorem PlainName.isTagName (name : PlainName) : IsTagName name.text where
  starts := name.starts
  chars := fun c mem => by rw [isNameChar, name.chars c mem]; rfl

/-- The name of the widgets in the samples. -/
def PlainName.box : PlainName := ⟨"Box".toList, rfl, List.all_eq_true.1 (by decide)⟩

theorem IsTagName.exists_cons {name : Text} (named : IsTagName name) :
    ∃ c w, name = c :: w ∧ isUpper c = true := by
  obtain ⟨starts, -⟩ := named
  cases name with
  | nil => cases starts
  | cons c w => exact ⟨c, w, rfl, starts⟩

/-! ### Crossing -/

namespace ClosingTag

variable {name n w w' s t : Text} {lineStart lineStart' lineStart'' : Bool} {depth depth' depth'' : Nat}

/-- The search goes through a text, whatever comes after it: how many bodies are open and whether a line
starts, before and after. -/
def Crosses (name : Text) (lineStart : Bool) (depth : Nat) (w : Text) (lineStart' : Bool)
    (depth' : Nat) : Prop :=
  ∀ at_ s, findFrom name depth lineStart at_ at_ (w ++ s) =
    findFrom name depth' lineStart' (at_ + Text.bytes w) (at_ + Text.bytes w) s

namespace Crosses

theorem nil : Crosses name lineStart depth [] lineStart depth := fun _ _ => rfl

theorem append (h : Crosses name lineStart depth w lineStart' depth')
    (h' : Crosses name lineStart' depth' w' lineStart'' depth'') :
    Crosses name lineStart depth (w ++ w') lineStart'' depth'' := by
  intro at_ s
  rw [List.append_assoc, h, h', Text.bytes_append, Nat.add_assoc]

/-- What is met at the first character tells how the search goes on. -/
theorem of_look {c : Char} (h : Crosses name lineStart' depth' w' lineStart'' depth'')
    (look : ∀ at_ s, ∃ sight, sightAt name lineStart at_ c (w ++ (w' ++ s)) = sight ∧
      sight.depth? depth = some depth' ∧ sight.lineStart = lineStart' ∧
      sight.stop at_ c = at_ + Text.bytes (c :: w)) :
    Crosses name lineStart depth (c :: (w ++ w')) lineStart'' depth'' := by
  intro at_ s
  obtain ⟨_, rfl, open_, start, stop⟩ := look at_ s
  rw [List.cons_append, List.append_assoc, findFrom_look (Nat.le_refl at_), open_, start, stop]
  dsimp only
  have le : at_ + c.utf8Size + Text.bytes w ≤ at_ + Text.bytes (c :: w) := by
    rw [Text.bytes_cons, Nat.add_assoc]
  have size : at_ + c.utf8Size + Text.bytes w = at_ + Text.bytes (c :: w) := by
    rw [Text.bytes_cons, Nat.add_assoc]
  rw [findFrom_passed le, size, h, ← List.cons_append, Text.bytes_append, Nat.add_assoc]

/-- Lines that the search goes through one by one. -/
theorem lines {ts : List Text} (h : ∀ t ∈ ts, Crosses name true depth (t ++ ['\n']) true depth) :
    Crosses name true depth (ts.flatMap (· ++ ['\n'])) true depth := by
  induction ts with
  | nil => exact .nil
  | cons t ts ih =>
    rw [List.forall_mem_cons] at h
    rw [List.flatMap_cons]
    exact h.1.append (ih h.2)

/-- A character that begins nothing. -/
theorem first {c : Char} (h : Crosses name false depth w lineStart'' depth'')
    (opens : ∀ s, after? ('<' :: name) (c :: (w ++ s)) = none)
    (closes : ∀ s, after? ('<' :: '/' :: name) (c :: (w ++ s)) = none) (tick : c ≠ '\x60') (eol : c ≠ '\n')
    (unfenced : ∀ at_ s, fenceAt? lineStart at_ (c :: (w ++ s)) = none) :
    Crosses name lineStart depth (c :: w) lineStart'' depth'' := by
  refine h.of_look (w := []) fun at_ s => ⟨.other, ?_, rfl, rfl, rfl⟩
  have sized : size? name (c :: (w ++ s)) = none := by
    rw [size?, closes]
    rfl
  have reopened : reopening? name at_ (c :: (w ++ s)) = none := by
    rw [reopening?, opens]
    rfl
  rw [List.nil_append, sightAt, unfenced]
  dsimp only
  rw [if_neg (by simpa using eol), if_neg (by simpa using tick), sized, reopened]

/-- The end of a line. -/
theorem lineEnd (name : Text) (lineStart : Bool) (depth : Nat) :
    Crosses name lineStart depth ['\n'] true depth := by
  intro at_ s
  have unfenced : fenceAt? lineStart at_ ('\n' :: s) = none := by
    cases lineStart with
    | false => rfl
    | true =>
      show pastFence? at_ ([] ++ '\n' :: s) = none
      exact pastFence?_line List.not_mem_nil at_ s
  have sight : sightAt name lineStart at_ '\n' s = .lineEnd := by
    rw [sightAt, unfenced]
    rfl
  rw [List.singleton_append, findFrom_look (Nat.le_refl at_), sight]
  rfl

/-- A line without backticks, without tags of the widget and without a fence, or the rest of a line. -/
theorem unfenced_line (eol_name : '\n' ∉ name) (opens : ¬ '<' :: name <:+: w)
    (closes : ¬ '<' :: '/' :: name <:+: w) (tick : '\x60' ∉ w) (eol : '\n' ∉ w)
    (unfenced : lineStart = true → Fence.open? w = none) :
    Crosses name lineStart depth (w ++ ['\n']) true depth := by
  have unfenced_at : ∀ at_ s, fenceAt? lineStart at_ (w ++ '\n' :: s) = none := by
    intro at_ s
    cases lineStart with
    | false => rfl
    | true =>
      show pastFence? at_ (w ++ '\n' :: s) = none
      rw [pastFence?_line eol, unfenced rfl]
      rfl
  induction w generalizing lineStart with
  | nil => exact .lineEnd name lineStart depth
  | cons c w ih =>
    rw [List.mem_cons, not_or] at tick eol
    rw [List.infix_cons_iff, not_or] at opens closes
    have rest : Crosses name false depth (w ++ ['\n']) true depth :=
      ih opens.2 closes.2 tick.2 eol.2 nofun fun _ _ => rfl
    -- what is no beginning of the line is none of the line with more after it
    have absent : ∀ lead : Text, '\n' ∉ lead → ¬ lead <+: c :: w →
        ∀ s, after? lead (c :: (w ++ ['\n'] ++ s)) = none := by
      intro lead eol other s
      have text : c :: (w ++ ['\n'] ++ s) = c :: w ++ '\n' :: s := by simp
      have begins : lead.isPrefixOf (c :: w) = false := by
        rw [← Bool.not_eq_true, List.isPrefixOf_iff_prefix]
        exact other
      rw [text, after?_append_eol eol, after?, begins]
      rfl
    refine rest.first (absent _ (by simp [eol_name]) opens.1) (absent _ (by simp [eol_name]) closes.1)
      (Ne.symm tick.1) (Ne.symm eol.1) fun at_ s => ?_
    rw [List.append_assoc, ← List.cons_append]
    exact unfenced_at at_ s

/-- A line without tags and code, or the rest of one. -/
theorem line (eol_name : '\n' ∉ name) (bare : IsBare w) (eol : '\n' ∉ w) :
    Crosses name lineStart depth (w ++ ['\n']) true depth := by
  have absent : ∀ lead : Text, ¬ '<' :: lead <:+: w := fun lead inside =>
    bare.1 (inside.subset List.mem_cons_self)
  exact .unfenced_line eol_name (absent _) (absent _) bare.2.1 eol fun _ => Fence.open?_of_not_mem bare.2

end Crosses

section Tags

variable (named : IsTagName name) (named' : IsTagName n)

/-- Nothing is fenced where a tag begins. -/
theorem fenceAt?_angle (lineStart : Bool) (at_ : Nat) (s : Text) :
    fenceAt? lineStart at_ ('<' :: s) = none := by
  cases lineStart with
  | false => rfl
  | true => exact pastFence?_bare (w := []) (by decide)

theorem sightAt_angle (name : Text) (lineStart : Bool) (at_ : Nat) (s : Text) :
    sightAt name lineStart at_ '<' s =
      match size? name ('<' :: s), reopening? name at_ ('<' :: s) with
      | some size, _ => .closing size
      | none, some tag => .reopening tag
      | none, none => .other := by
  rw [sightAt, fenceAt?_angle]
  rfl

/-- What is met at a closing tag. -/
theorem sightAt_closing (name : Text) (lineStart : Bool) (at_ : Nat) (s : Text) :
    sightAt name lineStart at_ '<' ('/' :: (name ++ '>' :: s)) = .closing (Text.bytes (write name)) := by
  have sized := size?_write name s
  rw [write] at sized
  simp only [List.cons_append, List.append_assoc, List.nil_append] at sized
  rw [sightAt_angle, sized]
  rfl

/-- A name ends where its characters do. -/
theorem eq_of_name_append (chars : ∀ c ∈ name, isNameChar c = true) (chars' : ∀ c ∈ n, isNameChar c = true)
    (ends : s.head?.any isNameChar = false) (ends' : t.head?.any isNameChar = false)
    (same : n ++ s = name ++ t) : n = name := by
  have all_not : ∀ u : Text, u.head?.any isNameChar = false → u.head?.all (!isNameChar ·) = true := by
    intro u none
    cases u with
    | nil => rfl
    | cons c u =>
      have other : isNameChar c = false := none
      simp [other]
  rw [← TagToken.takeWhile_name chars' (all_not s ends), same,
    TagToken.takeWhile_name chars (all_not t ends')]

/-- An opening tag is no closing tag. -/
theorem size?_opening (named : IsTagName n) (name s : Text) : size? name ('<' :: (n ++ s)) = none := by
  obtain ⟨c, u, rfl, upper⟩ := named.exists_cons
  rw [Option.eq_none_iff_forall_ne_some]
  intro size found
  obtain ⟨blanks, rest, -, text, -⟩ := size?_eq_some_iff.1 found
  obtain ⟨rfl, -⟩ := List.cons.inj (List.cons.inj text).2
  cases upper

/-- What is met at an opening tag of the same widget. -/
theorem exists_sightAt_opening (named : IsTagName name) (lineStart : Bool) (at_ : Nat) (s : Text) :
    ∃ tag : OpenTag, sightAt name lineStart at_ '<' (name ++ '>' :: s) = .reopening tag ∧
      tag.selfClosing = false ∧ tag.stop = at_ + Text.bytes (OpenTag.write name [] false) := by
  obtain ⟨props, -, read⟩ :=
    OpenTag.exists_read_write at_ named (List.forall_mem_nil _) false s
  have text : OpenTag.write name [] false ++ s = '<' :: (name ++ '>' :: s) := by
    simp [OpenTag.write, OpenTag.ending]
  rw [text] at read
  have after : after? ('<' :: name) ('<' :: (name ++ '>' :: s)) = some ('>' :: s) :=
    after?_eq_some_iff.2 ⟨rfl, rfl⟩
  have reopened := reopening?_eq_some_iff.2 ⟨Option.isSome_of_eq_some after, read⟩
  refine ⟨_, by rw [sightAt_angle, size?_opening named, reopened], rfl, rfl⟩

include named named' in
/-- A tag of one widget is no tag of another. -/
theorem sightAt_other (other : n ≠ name) (lineStart : Bool) (at_ : Nat) (s : Text) :
    sightAt name lineStart at_ '<' (n ++ '>' :: s) = .other ∧
      sightAt name lineStart at_ '<' ('/' :: (n ++ '>' :: s)) = .other := by
  obtain ⟨c, v, rfl, upper⟩ := named.exists_cons
  have closed : ('>' :: s).head?.any isNameChar = false := rfl
  constructor
  · have reopened : reopening? (c :: v) at_ ('<' :: (n ++ '>' :: s)) = none := by
      rw [Option.eq_none_iff_forall_ne_some]
      intro tag found
      obtain ⟨t, after⟩ := Option.isSome_iff_exists.1 (reopening?_eq_some_iff.1 found).1
      obtain ⟨text, ends⟩ := after?_eq_some_iff.1 after
      exact other (eq_of_name_append named.chars named'.chars closed ends (List.cons.inj text).2)
    rw [sightAt_angle, size?_opening named', reopened]
  · have sized : size? (c :: v) ('<' :: '/' :: (n ++ '>' :: s)) = none := by
      rw [Option.eq_none_iff_forall_ne_some]
      intro size found
      obtain ⟨blanks, rest, blank, text, -⟩ := size?_eq_some_iff.1 found
      have ends : (blanks ++ '>' :: rest).head?.any isNameChar = false := head?_any_closing blank rest
      exact other (eq_of_name_append named.chars named'.chars closed ends
        (List.cons.inj (List.cons.inj text).2).2)
    have reopened : reopening? (c :: v) at_ ('<' :: '/' :: (n ++ '>' :: s)) = none := by
      rw [Option.eq_none_iff_forall_ne_some]
      intro tag found
      obtain ⟨t, after⟩ := Option.isSome_iff_exists.1 (reopening?_eq_some_iff.1 found).1
      obtain ⟨text, -⟩ := after?_eq_some_iff.1 after
      obtain ⟨rfl, -⟩ := List.cons.inj (List.cons.inj text).2
      cases upper
    rw [sightAt_angle, sized, reopened]

end Tags

section Lines

variable (named : IsTagName name) (named' : IsTagName n)

theorem isBare_name (named : IsTagName n) : IsBare (n ++ ['>']) ∧ '\n' ∉ n ++ ['>'] := by
  have absent : ∀ c, isNameChar c = false → c ≠ '>' → c ∉ n ++ ['>'] := by
    intro c other close mem
    rcases List.mem_append.1 mem with letter | last
    · rw [named.chars c letter] at other
      cases other
    · exact close (List.mem_singleton.1 last)
  exact ⟨⟨absent _ rfl (by decide), absent _ rfl (by decide), absent _ rfl (by decide)⟩,
    absent _ rfl (by decide)⟩

include named named' in
/-- The line of an opening tag: one more body is open if it is of the same name. -/
theorem Crosses.opening (depth : Nat) :
    Crosses name true depth (OpenTag.write n [] false ++ ['\n']) true
      (if n = name then depth + 1 else depth) := by
  obtain ⟨bare, eol⟩ := isBare_name named'
  have text : OpenTag.write n [] false ++ ['\n'] = '<' :: ((n ++ ['>']) ++ ['\n']) := by
    simp [OpenTag.write, OpenTag.ending]
  rw [text]
  by_cases same : n = name
  · subst same
    rw [if_pos rfl]
    refine (lineEnd n false (depth + 1)).of_look fun at_ s => ?_
    obtain ⟨tag, sight, open_, stop⟩ := exists_sightAt_opening named true at_ ('\n' :: s)
    refine ⟨.reopening tag, ?_, by simp [Sight.depth?, open_], rfl, ?_⟩
    · rw [← sight]
      simp
    · rw [Sight.stop, stop]
      simp [OpenTag.write, OpenTag.ending]
  · have next : Crosses name false depth (n ++ ['>'] ++ ['\n']) true depth :=
      .line (eol_not_mem_name named.chars) bare eol
    rw [if_neg same]
    refine next.of_look (w := []) fun at_ s => ⟨.other, ?_, rfl, rfl, rfl⟩
    rw [← (sightAt_other named named' same true at_ ('\n' :: s)).1]
    simp

include named named' in
/-- The line of a closing tag. -/
theorem Crosses.closing (depth : Nat) :
    Crosses name true (if n = name then depth + 1 else depth) (write n ++ ['\n']) true depth := by
  obtain ⟨bare, eol⟩ := isBare_name named'
  have text : write n ++ ['\n'] = '<' :: (('/' :: (n ++ ['>'])) ++ ['\n']) := by
    simp [write]
  rw [text]
  by_cases same : n = name
  · subst same
    rw [if_pos rfl]
    refine (lineEnd n false depth).of_look fun at_ s => ⟨.closing (Text.bytes (write n)), ?_, rfl, rfl, rfl⟩
    rw [← sightAt_closing n true at_ ('\n' :: s)]
    simp
  · have bare' : IsBare ('/' :: (n ++ ['>'])) := by
      simpa [IsBare] using bare
    have next : Crosses name false depth ('/' :: (n ++ ['>']) ++ ['\n']) true depth :=
      .line (eol_not_mem_name named.chars) bare' (by simpa using eol)
    rw [if_neg same]
    refine next.of_look (w := []) fun at_ s => ⟨.other, ?_, rfl, rfl, rfl⟩
    rw [← (sightAt_other named named' same true at_ ('\n' :: s)).2]
    simp

end Lines

/-- The closing tag after a body is found if the search goes through the body. -/
theorem find?_of_crosses {ts : List Text} (body : Crosses name true 0 (ts.flatMap (· ++ ['\n'])) true 0)
    (at_ : Nat) (after : Text) :
    find? name false at_ (bodyText ts ++ (write name ++ after)) =
      some { start := at_ + Text.bytes (bodyText ts)
             stop := at_ + Text.bytes (bodyText ts) + Text.bytes (write name) } := by
  have whole : Crosses name false 0 (bodyText ts) true 0 := (Crosses.lineEnd name false 0).append body
  have text : write name ++ after = '<' :: '/' :: (name ++ '>' :: after) := by
    simp [write]
  rw [find?, whole, text, findFrom_look (Nat.le_refl _), sightAt_closing]
  rfl

end ClosingTag

end Folio
