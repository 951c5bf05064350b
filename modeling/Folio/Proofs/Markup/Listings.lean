import Folio.Proofs.Markup.Crossings

/-!
# The search for a closing tag in fenced code

Fenced code may be indented. The search for the closing tag of a widget goes through the text as it stands:
it sees a fence only if at most three characters indent it, and reads what is indented further as any other
text.

* `Listing`: lines of code between two lines of marks;
* `Listing.crosses_fence`, `Listing.crosses_backticks`, `Listing.crosses_tildes`: what the search goes
  through;
* `Listing.crosses_of_isSheltered`: listings that the search goes through.
-/

namespace Folio

/-! ### Indented lines -/

/-- A line after some spaces. -/
def indented (k : Nat) (t : Text) : Text := List.replicate k ' ' ++ t

section Indented

variable {k : Nat} {t u : Text} {ts us : List Text}

@[simp] theorem indentation_indented (k : Nat) (t : Text) :
    indentation (indented k t) = k + indentation t := by
  rw [indentation, indented, List.takeWhile_append_of_pos, List.length_append, List.length_replicate,
    indentation]
  intro c mem
  rw [List.eq_of_mem_replicate mem]
  rfl

theorem isBlank_indented (k : Nat) (t : Text) : Text.isBlank (indented k t) = Text.isBlank t := by
  have blank : (List.replicate k ' ').all Text.isBlankChar = true := by
    rw [List.all_eq_true]
    intro c mem
    rw [List.eq_of_mem_replicate mem]
    rfl
  rw [Text.isBlank, indented, List.all_append, blank, Bool.true_and, Text.isBlank]

theorem mem_indented {c : Char} (other : c ≠ ' ') : c ∈ indented k t ↔ c ∈ t := by
  rw [indented, List.mem_append, List.mem_replicate]
  exact or_iff_right fun h => other h.2

/-- What starts with something else than a space stands in the line without its spaces. -/
theorem infix_indented {c : Char} (other : c ≠ ' ') {w : Text} : c :: w <:+: indented k t ↔ c :: w <:+: t := by
  induction k with
  | zero => rfl
  | succ k ih =>
    have cons : indented (k + 1) t = ' ' :: indented k t := rfl
    rw [cons, List.infix_cons_iff, ih]
    refine or_iff_right fun begins => other ?_
    exact (List.cons_prefix_cons.1 begins).1

/-- A pattern that does not start with a space is found after the spaces. -/
theorem Text.find?_indented {c : Char} (other : c ≠ ' ') (w : Text) (k : Nat) (t : Text) :
    Text.find? (c :: w) (indented k t) = (Text.find? (c :: w) t).map (· + k) := by
  induction k with
  | zero =>
    rw [indented, List.replicate_zero, List.nil_append]
    cases Text.find? (c :: w) t <;> rfl
  | succ k ih =>
    have cons : indented (k + 1) t = ' ' :: indented k t := rfl
    have begins : (c :: w).isPrefixOf (' ' :: indented k t) = false := by
      rw [List.isPrefixOf, beq_eq_false_iff_ne.2 other, Bool.false_and]
    rw [cons, Text.find?, begins, ih, if_neg Bool.false_ne_true, Option.map_map]
    rfl

section Patterns

variable {p : Text} (eol : '\n' ∉ p) (filled : p ≠ [])

include eol filled

/-- A pattern without line feeds is found after a line that does not have it. -/
theorem Text.find?_line (absent : ¬ p <:+: t) (s : Text) :
    Text.find? p (t ++ '\n' :: s) = (Text.find? p s).map (· + (t.length + 1)) := by
  have step : ∀ {c : Char} {v : Text}, p.isPrefixOf (c :: v) = false →
      Text.find? p (c :: v) = (Text.find? p v).map (· + 1) := by
    intro c v begins
    rw [Text.find?, begins, if_neg Bool.false_ne_true]
  induction t with
  | nil =>
    refine step ?_
    rw [← List.nil_append ('\n' :: s), Text.isPrefixOf_append_eol eol, ← Bool.not_eq_true,
      List.isPrefixOf_iff_prefix, List.prefix_nil]
    exact filled
  | cons c t ih =>
    rw [List.infix_cons_iff, not_or] at absent
    rw [List.cons_append, step, ih absent.2, Option.map_map]
    · rfl
    · rw [← List.cons_append, Text.isPrefixOf_append_eol eol, ← Bool.not_eq_true,
        List.isPrefixOf_iff_prefix]
      exact absent.1

/-- It is found after all lines that do not have it. -/
theorem Text.find?_lines (absent : ∀ t ∈ ts, ¬ p <:+: t) (s : Text) :
    Text.find? p (ts.flatMap (· ++ ['\n']) ++ s) =
      (Text.find? p s).map (· + (ts.flatMap (· ++ ['\n'])).length) := by
  induction ts with
  | nil =>
    rw [List.flatMap_nil, List.nil_append]
    cases Text.find? p s <;> rfl
  | cons t ts ih =>
    rw [List.forall_mem_cons] at absent
    have text : (t :: ts).flatMap (· ++ ['\n']) ++ s = t ++ '\n' :: (ts.flatMap (· ++ ['\n']) ++ s) := by
      simp
    rw [text, Text.find?_line eol filled absent.1, ih absent.2, Option.map_map]
    congr 1
    funext n
    simp only [Function.comp_apply, List.flatMap_cons, List.length_append, List.length_singleton]
    omega

end Patterns

theorem isWhole_indented (whole : Line.IsWhole t .lf) : Line.IsWhole (indented k t) .lf where
  eol := by
    rw [indented, List.mem_append, List.mem_replicate]
    rintro (⟨-, space⟩ | mem)
    · cases space
    · exact whole.eol mem
  ending := by
    intro lf last
    rw [indented, List.getLast?_append, Option.or_eq_some_iff] at last
    rcases last with last | ⟨-, last⟩
    · exact whole.ending lf last
    · have space := List.eq_of_mem_replicate (List.mem_of_getLast? last)
      cases space

end Indented

/-- The search goes through spaces before a text, if they do not lead to a fence. -/
theorem ClosingTag.Crosses.indented {name w : Text} {lineStart lineStart' : Bool} {k depth depth' : Nat}
    (h : Crosses name false depth w lineStart' depth') (filled : 0 < k)
    (unfenced : ∀ at_ s, pastFence? at_ (Folio.indented k (w ++ s)) = none) :
    Crosses name lineStart depth (Folio.indented k w) lineStart' depth' := by
  have absent : ∀ lead s : Text, after? ('<' :: lead) (' ' :: s) = none := after?_of_ne (by decide)
  have spaces : ∀ n, Crosses name false depth (Folio.indented n w) lineStart' depth' := by
    intro n
    induction n with
    | zero => exact h
    | succ n ih =>
      exact ih.first (fun _ => absent _ _) (fun _ => absent _ _) (by decide) (by decide) fun _ _ => rfl
  obtain ⟨n, rfl⟩ := Nat.exists_eq_add_of_lt filled
  rw [Nat.zero_add] at unfenced ⊢
  refine (spaces n).first (fun _ => absent _ _) (fun _ => absent _ _) (by decide) (by decide) fun at_ s => ?_
  have text : ' ' :: (Folio.indented n w ++ s) = Folio.indented (n + 1) (w ++ s) := by
    rw [Folio.indented, Folio.indented, List.replicate_succ, List.append_assoc, List.cons_append]
  cases lineStart with
  | false => rfl
  | true => exact text ▸ unfenced at_ s

/-! ### Fences -/

namespace Fence

variable {fence : Fence} {marker : Char} {n k : Nat} {t u : Text} {ts : List Text}

theorem dropWhile_indented (k : Nat) (t : Text) :
    (indented k t).dropWhile isIndent = t.dropWhile isIndent := by
  rw [indented, List.dropWhile_append_of_pos]
  intro c mem
  rw [List.eq_of_mem_replicate mem]
  rfl

theorem trimStart_indented (k : Nat) (t : Text) : Text.trimStart (indented k t) = Text.trimStart t := by
  rw [indented, Text.trimStart, List.dropWhile_append_of_pos, Text.trimStart]
  intro c mem
  rw [List.eq_of_mem_replicate mem]
  rfl

/-- A line that is indented by more than three characters opens no fence. -/
theorem open?_of_deep (deep : 3 < k) (t : Text) : open? (indented k t) = none := by
  have far : 3 < indentation (indented k t) := by
    rw [indentation_indented]
    omega
  rw [open?, unindent?, if_pos far]
  rfl

theorem takeWhile_replicate_append (n : Nat) (other : t.head? ≠ some marker) :
    (List.replicate n marker ++ t).takeWhile (· == marker) = List.replicate n marker := by
  rw [List.takeWhile_append_of_pos]
  · cases t with
    | nil => simp
    | cons c t =>
      have differs : ¬ (c == marker) = true := by simpa using other
      rw [List.takeWhile_cons_of_neg (p := (· == marker)) differs, List.append_nil]
  · intro c mem
    rw [List.eq_of_mem_replicate mem, beq_self_eq_true]

section Marks

variable (marks : marker = '\x60' ∨ marker = '~') (long : 3 ≤ n)

include marks in
theorem visible_mark : isIndent marker = false ∧ Text.isBlankChar marker = false := by
  rcases marks with rfl | rfl <;> decide

include long in
theorem exists_replicate (marker : Char) : ∃ m, List.replicate n marker = marker :: List.replicate m marker := by
  obtain ⟨m, rfl⟩ := Nat.exists_eq_add_of_le' (Nat.le_trans (by decide : 1 ≤ 3) long)
  exact ⟨m, List.replicate_succ⟩

include marks long in
theorem indentation_marks : indentation (List.replicate n marker) = 0 := by
  obtain ⟨m, cons⟩ := exists_replicate long marker
  rw [indentation, cons, List.takeWhile_cons_of_neg (by simp [visible_mark marks])]
  rfl

include marks long in
theorem isBlank_marks : Text.isBlank (List.replicate n marker) = false := by
  obtain ⟨m, cons⟩ := exists_replicate long marker
  rw [Text.isBlank, cons, List.all_cons, (visible_mark marks).2, Bool.false_and]

theorem takeWhile_marks (marker : Char) (n : Nat) :
    (List.replicate n marker).takeWhile (· == marker) = List.replicate n marker := by
  have run : (List.replicate n marker ++ []).takeWhile (· == marker) = List.replicate n marker :=
    takeWhile_replicate_append n nofun
  rwa [List.append_nil] at run

include marks long in
/-- Some marks after at most three spaces open a fence. -/
theorem open?_marks (le : k ≤ 3) :
    open? (indented k (List.replicate n marker)) = some { marker, length := n, indent := k, info := none } := by
  have indent : indentation (indented k (List.replicate n marker)) = k := by
    rw [indentation_indented, indentation_marks marks long, Nat.add_zero]
  obtain ⟨m, cons⟩ := exists_replicate long marker
  have rest : (List.replicate n marker).dropWhile isIndent = List.replicate n marker := by
    rw [cons, List.dropWhile_cons_of_neg (by simp [visible_mark marks])]
  have unindented : unindent? (indented k (List.replicate n marker)) = some (List.replicate n marker) := by
    rw [unindent?, indent, if_neg (by omega), dropWhile_indented, rest]
  have first : (List.replicate n marker).head? = some marker := by
    rw [cons]
    rfl
  have known : (marker != '\x60' && marker != '~') = false := by
    rcases marks with rfl | rfl <;> rfl
  unfold open?
  rw [unindented]
  simp only [Option.bind_eq_bind, Option.bind_some, first, known, takeWhile_marks, List.length_replicate,
    indent]
  have short : ¬ n < 3 := by omega
  have no_info : Text.trim [] = [] := rfl
  simp [short, no_info]

include marks long in
/-- The marks of a fence close it. -/
theorem closes_marks (le : k ≤ 3) (alike : fence.marker = marker) (enough : fence.length ≤ n) :
    fence.closes (indented k (List.replicate n marker)) = true := by
  obtain ⟨m, cons⟩ := exists_replicate long marker
  have rest : Text.trimStart (List.replicate n marker) = List.replicate n marker := by
    rw [Text.trimStart, cons, List.dropWhile_cons_of_neg (by simp [visible_mark marks])]
  unfold Fence.closes
  rw [trimStart_indented, rest, indentation_indented, indentation_marks marks long, alike]
  dsimp only
  rw [takeWhile_marks, List.length_replicate, List.drop_eq_nil_of_le (by rw [List.length_replicate])]
  simp [le, enough, Text.isBlank]

/-- A line that closes a fence closes it without its spaces. -/
theorem closes_of_indented (closes : fence.closes (indented k t) = true) : fence.closes t = true := by
  unfold Fence.closes at closes ⊢
  rw [trimStart_indented, indentation_indented] at closes
  simp only [Bool.and_eq_true, decide_eq_true_eq] at closes ⊢
  exact ⟨⟨by omega, closes.1.2⟩, closes.2⟩

/-- A fenced block ends with the first line that closes it. -/
theorem extent_lines (whole : ∀ t ∈ ts, Line.IsWhole t .lf) (whole' : Line.IsWhole u .lf)
    (open_ : ∀ t ∈ ts, fence.closes t = false) (closed : fence.closes u = true) (s : Text) :
    fence.extent (Line.divide (ts.flatMap (· ++ ['\n']) ++ (u ++ '\n' :: s))) =
      Text.bytes (ts.flatMap (· ++ ['\n'])) + Text.bytes (u ++ ['\n']) := by
  have line : ∀ {t}, Line.IsWhole t .lf → ∀ s, Line.divide (t ++ '\n' :: s) = (t, .lf) :: Line.divide s :=
    fun whole s => Line.divide_append whole LineEnding.noConfusion s
  induction ts with
  | nil =>
    rw [List.flatMap_nil, List.nil_append, line whole', extent, if_pos closed, Text.bytes_append]
    simp
  | cons t ts ih =>
    rw [List.forall_mem_cons] at whole open_
    have closes : ¬ fence.closes t = true := by
      rw [open_.1]
      exact Bool.false_ne_true
    have text : (t :: ts).flatMap (· ++ ['\n']) ++ (u ++ '\n' :: s) =
        t ++ '\n' :: (ts.flatMap (· ++ ['\n']) ++ (u ++ '\n' :: s)) := by simp
    rw [text, line whole.1, extent, if_neg closes, ih whole.2 open_.2, List.flatMap_cons,
      Text.bytes_append _ (ts.flatMap _), Text.bytes_append t]
    simp only [LineEnding.text_lf]
    omega

end Marks

end Fence

/-! ### Listings -/

/-- Fenced code: lines of code between two lines of marks, the first of which no line of code closes. -/
structure Listing where
  marker : Char
  length : Nat
  code : List Text
  marks : marker = '\x60' ∨ marker = '~'
  long : 3 ≤ length
  whole : ∀ t ∈ code, '\n' ∉ t ∧ '\r' ∉ t
  unclosed : ∀ t ∈ code, Fence.closes { marker, length, indent := 0, info := none } t = false

namespace Listing

variable (x : Listing) (name : PlainName) (k : Nat)

/-- The line of marks. -/
def bar : Text := List.replicate x.length x.marker

/-- The fence that the marks open after some spaces. -/
def fence : Fence := { marker := x.marker, length := x.length, indent := k, info := none }

/-- The lines of the code with its fences. -/
def lines : List Text := x.bar :: (x.code ++ [x.bar])

/-! ### The search in a listing -/

open ClosingTag (Crosses fenceAt?)

variable {x k}

theorem isWhole_of_mem_code {t : Text} (mem : t ∈ x.code) : Line.IsWhole t .lf where
  eol := (x.whole t mem).1
  ending := fun _ last => (x.whole t mem).2 (List.mem_of_getLast? last)

theorem isWhole_bar (x : Listing) : Line.IsWhole x.bar .lf where
  eol := by
    rw [bar, List.mem_replicate]
    rintro ⟨-, eol⟩
    rcases x.marks with mark | mark <;> rw [← eol] at mark <;> cases mark
  ending := by
    intro _ last
    have mark := List.eq_of_mem_replicate (List.mem_of_getLast? last)
    rcases x.marks with mark' | mark' <;> rw [← mark] at mark' <;> cases mark'

theorem text_lines (x : Listing) (k : Nat) :
    (x.lines.map (indented k)).flatMap (· ++ ['\n']) =
      indented k x.bar ++ '\n' :: ((x.code.map (indented k)).flatMap (· ++ ['\n']) ++
        (indented k x.bar ++ ['\n'])) := by
  simp [lines]

theorem not_closes_indented (x : Listing) (k : Nat) :
    ∀ t ∈ x.code.map (indented k), (x.fence k).closes t = false := by
  refine List.forall_mem_map.2 fun t mem => ?_
  rw [← Bool.not_eq_true]
  intro closes
  have closes' : (x.fence k).closes t = true := Fence.closes_of_indented closes
  have unclosed : (x.fence k).closes t = false := x.unclosed t mem
  rw [unclosed] at closes'
  cases closes'

/-- A fence that is indented by at most three characters goes to its other marks. -/
theorem fenceAt?_lines (x : Listing) (le : k ≤ 3) (at_ : Nat) (s : Text) :
    fenceAt? true at_ ((x.lines.map (indented k)).flatMap (· ++ ['\n']) ++ s) =
      some (at_ + Text.bytes ((x.lines.map (indented k)).flatMap (· ++ ['\n']))) := by
  have opened : Fence.open? (indented k x.bar) = some (x.fence k) := Fence.open?_marks x.marks x.long le
  have closed : (x.fence k).closes (indented k x.bar) = true :=
    Fence.closes_marks x.marks x.long le rfl (Nat.le_refl _)
  have whole : ∀ t ∈ x.code.map (indented k), Line.IsWhole t .lf :=
    List.forall_mem_map.2 fun t mem => isWhole_indented (isWhole_of_mem_code mem)
  have bar_whole : Line.IsWhole (indented k x.bar) .lf := isWhole_indented (isWhole_bar x)
  have parts : (x.lines.map (indented k)).flatMap (· ++ ['\n']) ++ s =
      indented k x.bar ++ '\n' :: ((x.code.map (indented k)).flatMap (· ++ ['\n']) ++
        (indented k x.bar ++ '\n' :: s)) := by
    rw [text_lines]
    simp
  have size := Fence.extent_lines whole bar_whole (not_closes_indented x k) closed s
  have total : Text.bytes ((x.lines.map (indented k)).flatMap (· ++ ['\n'])) =
      Text.bytes (indented k x.bar) + 1 + (Text.bytes ((x.code.map (indented k)).flatMap (· ++ ['\n'])) +
        Text.bytes (indented k x.bar ++ ['\n'])) := by
    rw [text_lines, Text.bytes_append, Text.bytes_cons, Text.bytes_append, Nat.add_assoc]
    rfl
  show ClosingTag.pastFence? at_ _ = _
  rw [parts, ClosingTag.pastFence?_line bar_whole.eol, opened, Option.map_some, Fence.skip, size, total]
  simp only [Nat.add_assoc]

/-- The search sees a fence that is indented by at most three characters. -/
theorem crosses_fence (name : Text) (depth : Nat) (le : k ≤ 3) :
    Crosses name true depth ((x.lines.map (indented k)).flatMap (· ++ ['\n'])) true depth := by
  have fenced := fenceAt?_lines x le
  obtain ⟨c, w, text⟩ : ∃ c w, (x.lines.map (indented k)).flatMap (· ++ ['\n']) = c :: w := by
    refine List.exists_cons_of_ne_nil ?_
    rw [text_lines]
    simp
  rw [text] at fenced ⊢
  rw [← List.append_nil w]
  exact Crosses.nil.of_look fun at_ s => ⟨_, ClosingTag.sightAt_of_fenced (fenced at_ s), rfl, rfl, rfl⟩

section Backticks

variable {n : Nat} {us : List Text} (filled : 0 < n)
  (absent : ∀ t ∈ us, ¬ List.replicate n '\x60' <:+: t) (k at_ : Nat) (s : Text)

include filled absent

/-- The next backticks after some lines that do not have as many. -/
theorem find?_backticks :
    Text.find? (List.replicate n '\x60') ('\n' :: (us.flatMap (· ++ ['\n']) ++
      indented k (List.replicate n '\x60' ++ s))) =
      some ('\n' :: (us.flatMap (· ++ ['\n']) ++ List.replicate k ' ')).length := by
  obtain ⟨m, rfl⟩ := Nat.exists_eq_add_of_lt filled
  rw [Nat.zero_add, List.replicate_succ] at absent ⊢
  have here : Text.find? ('\x60' :: List.replicate m '\x60')
      ('\x60' :: List.replicate m '\x60' ++ s) = some 0 := by
    rw [List.cons_append, Text.find?, if_pos]
    rw [List.isPrefixOf_iff_prefix]
    exact List.prefix_append _ _
  have spaces := Text.find?_indented (show '\x60' ≠ ' ' by decide) (List.replicate m '\x60') k
    ('\x60' :: List.replicate m '\x60' ++ s)
  have eol : '\n' ∉ '\x60' :: List.replicate m '\x60' := by
    rw [List.mem_cons, List.mem_replicate]
    simp
  have gap : ∀ t ∈ [] :: us, ¬ '\x60' :: List.replicate m '\x60' <:+: t := by
    rw [List.forall_mem_cons]
    exact ⟨by simp, absent⟩
  have lines := Text.find?_lines eol (List.cons_ne_nil _ _) gap
    (indented k ('\x60' :: List.replicate m '\x60' ++ s))
  rw [spaces, here, List.flatMap_cons] at lines
  refine lines.trans ?_
  simp only [Option.map_some, List.length_append, List.length_cons, List.length_replicate,
    List.length_nil, Option.some.injEq]
  omega

/-- Backticks before such lines begin a code span that ends with the backticks after them. -/
theorem pastCode_lines :
    ClosingTag.pastCode at_ (List.replicate n '\x60' ++ ('\n' :: (us.flatMap (· ++ ['\n']) ++
      indented k (List.replicate n '\x60' ++ s)))) =
      at_ + Text.bytes (List.replicate n '\x60' ++ ('\n' :: (us.flatMap (· ++ ['\n']) ++
        indented k (List.replicate n '\x60')))) := by
  have size : Text.bytes (List.replicate n '\x60') = n := by
    rw [Text.bytes_eq_length, List.length_replicate]
    intro c mem
    rw [List.eq_of_mem_replicate mem]
    rfl
  unfold ClosingTag.pastCode
  rw [Fence.takeWhile_replicate_append n (by simp)]
  dsimp only
  rw [List.drop_left, find?_backticks filled absent]
  dsimp only
  have parts : ∀ w, '\n' :: (us.flatMap (· ++ ['\n']) ++ indented k w) =
      '\n' :: (us.flatMap (· ++ ['\n']) ++ List.replicate k ' ') ++ w := by
    intro w
    rw [indented, List.cons_append, List.append_assoc]
  rw [parts, parts, List.take_left, List.length_replicate, Text.bytes_append, Text.bytes_append, size]
  omega

end Backticks

/-- The search takes a fence of backticks that is indented further for a code span, which ends at the next
one. -/
theorem crosses_backticks (name : Text) (depth : Nat) (deep : 3 < k) (ticks : x.marker = '\x60')
    (inside : ∀ t ∈ x.code, ¬ x.bar <:+: t) :
    Crosses name true depth ((x.lines.map (indented k)).flatMap (· ++ ['\n'])) true depth := by
  have filled : 0 < x.length := Nat.lt_of_lt_of_le (by decide) x.long
  have bar : x.bar = List.replicate x.length '\x60' := by rw [Listing.bar, ticks]
  obtain ⟨m, cons⟩ := Fence.exists_replicate x.long '\x60'
  have bar_whole := isWhole_bar x
  have absent : ∀ t ∈ x.code.map (indented k), ¬ List.replicate x.length '\x60' <:+: t := by
    refine List.forall_mem_map.2 fun t mem => ?_
    rw [cons, infix_indented (by decide), ← cons, ← bar]
    exact inside t mem
  -- from the first marks to the last ones, and the end of that line
  have span : Crosses name false depth (x.bar ++ '\n' :: ((x.code.map (indented k)).flatMap (· ++ ['\n']) ++
      indented k (x.bar ++ ['\n']))) true depth := by
    have text : x.bar ++ '\n' :: ((x.code.map (indented k)).flatMap (· ++ ['\n']) ++
        indented k (x.bar ++ ['\n'])) = '\x60' :: ((List.replicate m '\x60' ++
          ('\n' :: ((x.code.map (indented k)).flatMap (· ++ ['\n']) ++ indented k x.bar))) ++ ['\n']) := by
      rw [bar, cons]
      simp [indented]
    rw [text]
    refine (Crosses.lineEnd name false depth).of_look fun at_ s => ⟨.code _, rfl, rfl, rfl, ?_⟩
    have code := pastCode_lines filled absent k at_ ('\n' :: s)
    have source : '\x60' :: (List.replicate m '\x60' ++ ('\n' :: ((x.code.map (indented k)).flatMap
        (· ++ ['\n']) ++ indented k x.bar)) ++ (['\n'] ++ s)) =
        List.replicate x.length '\x60' ++ '\n' :: ((x.code.map (indented k)).flatMap (· ++ ['\n']) ++
          indented k (List.replicate x.length '\x60' ++ '\n' :: s)) := by
      rw [bar, cons]
      simp [indented]
    rw [ClosingTag.Sight.stop, source, code, bar, cons]
    rfl
  have text : (x.lines.map (indented k)).flatMap (· ++ ['\n']) = indented k (x.bar ++
      '\n' :: ((x.code.map (indented k)).flatMap (· ++ ['\n']) ++ indented k (x.bar ++ ['\n']))) := by
    rw [text_lines]
    simp [indented]
  rw [text]
  refine span.indented (Nat.lt_of_le_of_lt (Nat.zero_le 3) deep) fun at_ s => ?_
  have line : indented k (x.bar ++ '\n' :: ((x.code.map (indented k)).flatMap (· ++ ['\n']) ++
      indented k (x.bar ++ ['\n'])) ++ s) =
      indented k x.bar ++ '\n' :: ((x.code.map (indented k)).flatMap (· ++ ['\n']) ++
        indented k (x.bar ++ ['\n']) ++ s) := by
    simp [indented]
  rw [line, ClosingTag.pastFence?_line (isWhole_indented bar_whole).eol, Fence.open?_of_deep deep]
  rfl

/-- The search goes through a fence of tildes that is indented further as through any other text. -/
theorem crosses_tildes (name : PlainName) (depth : Nat) (deep : 3 < k) (tildes : x.marker = '~')
    (plain : ∀ t ∈ x.code, '\x60' ∉ t ∧ ¬ '<' :: name.text <:+: t ∧ ¬ '<' :: '/' :: name.text <:+: t) :
    Crosses name.text true depth ((x.lines.map (indented k)).flatMap (· ++ ['\n'])) true depth := by
  have eol_name : '\n' ∉ name.text := eol_not_mem_name name.isTagName.chars
  have line : ∀ {t}, '\x60' ∉ t → '\n' ∉ t → ¬ '<' :: name.text <:+: t → ¬ '<' :: '/' :: name.text <:+: t →
      Crosses name.text true depth (indented k t ++ ['\n']) true depth := by
    intro t tick eol opens closes
    refine .unfenced_line eol_name ?_ ?_ ?_ ?_ fun _ => Fence.open?_of_deep deep t
    · rwa [infix_indented (by decide)]
    · rwa [infix_indented (by decide)]
    · rwa [mem_indented (by decide)]
    · rwa [mem_indented (by decide)]
  have absent : ∀ c, c ≠ '~' → c ∉ x.bar := by
    intro c other mem
    rw [bar, tildes] at mem
    exact other (List.eq_of_mem_replicate mem)
  have no_tag : ∀ w : Text, ¬ '<' :: w <:+: x.bar := fun w inside =>
    absent '<' (by decide) (inside.subset List.mem_cons_self)
  refine .lines (List.forall_mem_map.2 fun t mem => ?_)
  rw [lines, List.mem_cons, List.mem_append, List.mem_singleton] at mem
  rcases mem with rfl | mem | rfl
  · exact line (absent _ (by decide)) (absent _ (by decide)) (no_tag _) (no_tag _)
  · exact line (plain t mem).1 (x.whole t mem).1 (plain t mem).2.1 (plain t mem).2.2
  · exact line (absent _ (by decide)) (absent _ (by decide)) (no_tag _) (no_tag _)

/-- A listing that the search for the closing tag goes through: its fence is indented by at most three
characters, or is of backticks that stand nowhere in the code, or the code has no backticks and no tags of
the widget. -/
def IsSheltered (x : Listing) (name : PlainName) (k : Nat) : Prop :=
  k ≤ 3 ∨ (x.marker = '\x60' ∧ ∀ t ∈ x.code, ¬ x.bar <:+: t) ∨
    ∀ t ∈ x.code, '\x60' ∉ t ∧ ¬ '<' :: name.text <:+: t ∧ ¬ '<' :: '/' :: name.text <:+: t

/-- The search goes through such a listing. -/
theorem crosses_of_isSheltered (h : x.IsSheltered name k) :
    Crosses name.text true 0 ((x.lines.map (indented k)).flatMap (· ++ ['\n'])) true 0 := by
  by_cases le : k ≤ 3
  · exact crosses_fence name.text 0 le
  have deep := Nat.lt_of_not_le le
  obtain le | ⟨ticks, inside⟩ | plain := h
  · exact crosses_fence name.text 0 le
  · exact crosses_backticks name.text 0 deep ticks inside
  · rcases x.marks with ticks | tildes
    · refine crosses_backticks name.text 0 deep ticks fun t mem inside => (plain t mem).1 ?_
      obtain ⟨m, cons⟩ := Fence.exists_replicate x.long x.marker
      refine inside.subset ?_
      rw [bar, cons, ticks]
      exact List.mem_cons_self
    · exact crosses_tildes name 0 deep tildes plain

end Listing

end Folio
