import Folio.Proofs.Markup.Lines
import Folio.Proofs.Markup.Marks
import Folio.Proofs.Region.Parts
import Folio.Proofs.Text.Divide

/-!
# Lines in a text

The lines of a text stand in it one after another, with line endings between. So the ends of lines
are pieces that can be joined, and the offsets of a line that is not blank are visible. Main
statements:

* `Line.isRest`: what follows the start of a line;
* `Line.pairwise_gap`: white space follows each line before the next one;
* `Line.isPiece` and `Line.isVisible`;
* `Line.map_pair_split_replace`: the lines of a text in which a line is replaced.
-/

namespace Folio.Line

variable {s : Text} {l m : Line} {ls : List Line} {n : Nat}

/-! ### The lines after a line -/

theorem Divided.of_suffix {ps qs : List (Text × LineEnding)} (h : Divided ps)
    (suffix : qs <:+ ps) : Divided qs := by
  obtain ⟨front, rfl⟩ := suffix
  induction front with
  | nil => exact h
  | cons p front ih => exact ih h.2.2

theorem exists_of_suffix_place {start : Nat} {ps : List (Text × LineEnding)}
    (suffix : l :: ls <:+ place start ps) :
    ∃ qs, (l.text, l.ending) :: qs <:+ ps ∧ ls = place l.next qs := by
  induction ps generalizing start with
  | nil => exact absurd (List.suffix_nil.1 suffix) (List.cons_ne_nil l ls)
  | cons p ps ih =>
    rcases List.suffix_cons_iff.1 suffix with eq | suffix
    · obtain ⟨rfl, rfl⟩ := List.cons.inj eq
      exact ⟨ps, List.suffix_refl _, rfl⟩
    · obtain ⟨qs, suffix, eq⟩ := ih suffix
      exact ⟨qs, suffix.trans (List.suffix_cons p ps), eq⟩

theorem le_start_of_mem_place {start : Nat} {ps : List (Text × LineEnding)}
    (mem : m ∈ place start ps) : start ≤ m.start := by
  induction ps generalizing start with
  | nil => cases mem
  | cons p ps ih =>
    rcases List.mem_cons.1 mem with rfl | mem
    · exact Nat.le_refl _
    · exact Nat.le_trans (Nat.le_trans (Nat.le_add_right ..) (Nat.le_add_right ..)) (ih mem)

/-- The lines after a line of a text: the line is whole, has an ending if a line comes after it, and
all of these start after it. -/
theorem whole_of_suffix (suffix : l :: ls <:+ split s) :
    IsWhole l.text l.ending ∧ (l.ending = .none → l.text ≠ [] ∧ ls = []) ∧
      ∀ m ∈ ls, l.next ≤ m.start := by
  obtain ⟨qs, divided, rfl⟩ := exists_of_suffix_place suffix
  obtain ⟨whole, last, -⟩ := (divided_divide s).of_suffix divided
  refine ⟨whole, fun none => ⟨(last none).1, ?_⟩, fun m mem => le_start_of_mem_place mem⟩
  rw [(last none).2, place]

theorem exists_suffix (mem : l ∈ split s) : ∃ ls, l :: ls <:+ split s := by
  obtain ⟨before, after, eq⟩ := List.append_of_mem mem
  exact ⟨after, before, eq.symm⟩

theorem eol_not_mem (mem : l ∈ split s) : '\n' ∉ l.text := by
  obtain ⟨ls, suffix⟩ := exists_suffix mem
  exact (whole_of_suffix suffix).1.eol

theorem le_stop (l : Line) : l.start ≤ l.stop := Nat.le_add_right ..

theorem stop_le_next (l : Line) : l.stop ≤ l.next := Nat.le_add_right ..

/-- The lines from a line on do not start before it. -/
theorem start_le_of_mem (suffix : l :: ls <:+ split s) (mem : m ∈ l :: ls) :
    l.start ≤ m.start := by
  rcases List.mem_cons.1 mem with rfl | later
  · exact Nat.le_refl _
  · have le := (whole_of_suffix suffix).2.2 m later
    exact Nat.le_trans (Nat.le_trans l.le_stop l.stop_le_next) le

/-- What follows the start of a line. -/
theorem isRest (suffix : l :: ls <:+ split s) :
    s.IsRest l.start (l.text ++ (l.ending.text ++ join ls)) := by
  obtain ⟨before, lines⟩ := suffix
  refine ⟨join before, ?_, (start_of_split lines.symm).symm⟩
  rw [eq_join_append lines.symm, join, join, List.flatMap_cons, raw, List.append_assoc]
  rfl

theorem holds (mem : l ∈ split s) : s.Holds l.start l.text := by
  obtain ⟨ls, suffix⟩ := exists_suffix mem
  exact ⟨_, isRest suffix⟩

/-! ### Between lines -/

/-- White space follows a line before the next one starts, and a blank line is white space. -/
theorem gap (suffix : l :: ls <:+ split s) (mem : m ∈ ls) :
    s.Gap l.stop m.start ∧ (Text.isBlank l.text = true → s.Gap l.start m.start) := by
  obtain ⟨whole, last, after⟩ := whole_of_suffix suffix
  have rest := isRest suffix
  have le : l.next ≤ m.start := after m mem
  rw [next, stop] at le
  -- the ending of the line is the white space
  have ends : ∃ c e, l.ending.text = c :: e ∧ Text.isBlankChar c = true := by
    cases ending : l.ending with
    | none =>
      rw [(last ending).2] at mem
      cases mem
    | lf => exact ⟨'\n', [], rfl, rfl⟩
    | crlf => exact ⟨'\r', ['\n'], rfl, rfl⟩
  obtain ⟨c, e, ending, blank⟩ := ends
  rw [ending] at rest le
  rw [Text.bytes_cons] at le
  constructor
  · exact ⟨c, blank, rest.append.holds_of_begins ⟨_, rfl⟩, by rw [stop]; omega⟩
  · intro is_blank
    cases text : l.text with
    | nil =>
      rw [text] at rest le
      exact ⟨c, blank, rest.holds_of_begins ⟨_, rfl⟩, by rw [Text.bytes_nil] at le; omega⟩
    | cons d t =>
      rw [text] at rest le is_blank
      rw [Text.isBlank, List.all_cons, Bool.and_eq_true] at is_blank
      exact ⟨d, is_blank.1, rest.holds_of_begins ⟨_, rfl⟩, by rw [Text.bytes_cons] at le; omega⟩

/-- The lines of a text are in order, with white space between. -/
theorem pairwise_gap (suffix : ls <:+ split s) :
    ls.Pairwise fun l m =>
      s.Gap l.stop m.start ∧ (Text.isBlank l.text = true → s.Gap l.start m.start) := by
  induction ls with
  | nil => exact .nil
  | cons l ls ih =>
    have tail := ih ((List.suffix_cons l ls).trans suffix)
    exact .cons (fun m mem => gap suffix mem) tail

theorem holds_raw (mem : l ∈ split s) : s.Holds l.start l.raw := by
  obtain ⟨ls, suffix⟩ := exists_suffix mem
  refine ⟨join ls, ?_⟩
  rw [raw, List.append_assoc]
  exact isRest suffix

theorem bytes_raw (l : Line) : l.start + Text.bytes l.raw = l.next := by
  rw [raw, Text.bytes_append, next, stop, Nat.add_assoc]

theorem getLast?_raw (ends : l.ending ≠ .none) : l.raw.getLast? = some '\n' := by
  rw [raw]
  cases ending : l.ending with
  | none => contradiction
  | lf => rw [LineEnding.text_lf, List.getLast?_concat]
  | crlf =>
    have text_eq : l.text ++ ['\r', '\n'] = (l.text ++ ['\r']) ++ ['\n'] := by simp
    rw [LineEnding.text_crlf, text_eq, List.getLast?_concat]

theorem exists_of_join_place {start : Nat} {ps : List (Text × LineEnding)} {b u after : Text}
    (suffix : place start ps <:+ split s) (text_eq : join (place start ps) = b ++ (u ++ after))
    (nonempty : u ≠ []) (eol : '\n' ∉ u) :
    ∃ l ∈ place start ps, ∃ v w, l.raw = v ++ (u ++ w) ∧
      l.start + Text.bytes v = start + Text.bytes b := by
  induction ps generalizing start b with
  | nil => simp [place, join, nonempty] at text_eq
  | cons p ps ih =>
    rw [place] at suffix text_eq ⊢
    generalize line_eq : (⟨start, p.1, p.2⟩ : Line) = l at suffix text_eq ⊢
    have start_eq : start = l.start := by rw [← line_eq]
    have suffix' := (List.suffix_cons l _).trans suffix
    -- further on, when the line ends before the text starts
    have further : ∀ t, b = l.raw ++ t → join (place l.next ps) = t ++ (u ++ after) →
        ∃ m ∈ l :: place l.next ps, ∃ v w, m.raw = v ++ (u ++ w) ∧
          m.start + Text.bytes v = start + Text.bytes b := by
      rintro t rfl rest
      obtain ⟨m, mem, v, w, raw_eq, size⟩ := ih suffix' rest
      refine ⟨m, List.mem_cons_of_mem l mem, v, w, raw_eq, ?_⟩
      rw [size, Text.bytes_append, start_eq, ← bytes_raw, Nat.add_assoc]
    rw [join, List.flatMap_cons, ← join] at text_eq
    rcases List.append_eq_append_iff.1 text_eq with ⟨t, b_eq, rest⟩ | ⟨t, raw_eq, tail⟩
    · exact further t b_eq rest
    · rcases List.append_eq_append_iff.1 tail with ⟨t', t_eq, -⟩ | ⟨t', u_eq, rest⟩
      · exact ⟨l, List.mem_cons_self, b, t', by rw [raw_eq, t_eq], by rw [start_eq]⟩
      · by_cases whole : t' = []
        · refine ⟨l, List.mem_cons_self, b, [], ?_, by rw [start_eq]⟩
          rw [raw_eq, u_eq, whole, List.append_nil, List.append_nil]
        · by_cases past : t = []
          · rw [past, List.append_nil] at raw_eq
            rw [past, List.nil_append] at u_eq
            refine further [] ?_ ?_
            · rw [raw_eq, List.append_nil]
            · rw [rest, u_eq, List.nil_append]
          · -- the line feed that ends the line would be in the text
            have ends : l.ending ≠ .none := by
              intro none
              rw [((whole_of_suffix suffix).2.1 none).2] at rest
              cases t' with
              | nil => contradiction
              | cons c t' => cases rest
            have last := getLast?_raw ends
            rw [raw_eq, List.getLast?_append, List.getLast?_eq_some_getLast past,
              Option.some_or] at last
            refine absurd ?_ eol
            rw [u_eq, ← Option.some.inj last]
            exact List.mem_append_left _ (List.getLast_mem past)

/-- A part of a line stands in a line. -/
theorem exists_of_holds {pos : Nat} {u : Text} (held : s.Holds pos u) (nonempty : u ≠ [])
    (eol : '\n' ∉ u) :
    ∃ l ∈ split s, ∃ v w, l.raw = v ++ (u ++ w) ∧ l.start + Text.bytes v = pos := by
  obtain ⟨after, before, text_eq, size⟩ := held
  rw [← join_split s] at text_eq
  obtain ⟨l, mem, v, w, raw_eq, start⟩ :=
    exists_of_join_place (List.suffix_refl (split s)) text_eq nonempty eol
  exact ⟨l, mem, v, w, raw_eq, by rw [start, Nat.zero_add, size]⟩

/-- Two lines of a text are the same, or one of them ends before the other one starts. -/
theorem eq_or_lt (l_mem : l ∈ split s) (m_mem : m ∈ split s) :
    l = m ∨ l.stop < m.start ∨ m.stop < l.start := by
  obtain ⟨before, ls, lines⟩ := List.append_of_mem l_mem
  rw [lines] at m_mem
  rcases List.mem_append.1 m_mem with earlier | among
  · obtain ⟨front, back, rfl⟩ := List.append_of_mem earlier
    have suffix : m :: (back ++ l :: ls) <:+ split s := ⟨front, by rw [lines]; simp⟩
    have l_later : l ∈ back ++ l :: ls := List.mem_append_right back List.mem_cons_self
    exact .inr (.inr (gap suffix l_later).1.lt)
  · rcases List.mem_cons.1 among with rfl | later
    · exact .inl rfl
    · exact .inr (.inl (gap ⟨before, lines.symm⟩ later).1.lt)

/-! ### Parts of a line -/

/-- What comes after an offset in a line is a piece. -/
theorem isPiece (mem : l ∈ split s) (cut : s.IsCut n l.stop) (le : l.start ≤ n) :
    s.IsPiece (n, l.stop) := by
  obtain ⟨w, held, size⟩ := cut.exists_holds
  obtain ⟨i, rfl⟩ := Nat.exists_eq_add_of_le le
  rw [stop] at size
  have within : l.text.Holds i w := (holds mem).inside held (by omega)
  exact ⟨w, held, fun eol => eol_not_mem mem (within.mem eol), size⟩

theorem exists_visible (filled : Text.isBlank l.text = false) :
    ∃ c ∈ l.text, TagToken.isSkipped c = false := by
  rw [Text.isBlank, List.all_eq_false] at filled
  obtain ⟨c, mem, visible⟩ := filled
  refine ⟨c, mem, ?_⟩
  rw [← Bool.not_eq_true]
  intro skipped
  simp only [TagToken.isSkipped, Bool.or_eq_true, beq_iff_eq] at skipped
  rcases skipped with ((rfl | rfl) | rfl) | rfl <;> exact visible rfl

/-- An offset in a line that is not blank. -/
theorem isVisible (mem : l ∈ split s) (filled : Text.isBlank l.text = false)
    (boundary : Text.isBoundary l.text n = true) : s.IsVisible (l.start + n) := by
  obtain ⟨v, w, text_eq, rfl⟩ := Text.isBoundary_iff.1 boundary
  have visible := exists_visible filled
  have eol := eol_not_mem mem
  rw [text_eq] at visible eol
  exact ⟨l.start, v, w, text_eq ▸ holds mem, eol, visible, rfl⟩

/-- The last character of a line that is not empty. -/
theorem exists_last (mem : l ∈ split s) (nonempty : l.text ≠ []) :
    ∃ n c, l.start ≤ n ∧ s.Holds n [c] ∧ c ≠ '\n' ∧ n + c.utf8Size = l.stop := by
  obtain ⟨init, c, text_eq⟩ : ∃ init c, l.text = init ++ [c] :=
    ⟨_, _, (List.dropLast_concat_getLast nonempty).symm⟩
  have held := holds mem
  rw [text_eq] at held
  refine ⟨_, c, Nat.le_add_right .., (Text.holds_append_iff.1 held).2, ?_, ?_⟩
  · rintro rfl
    exact eol_not_mem mem (by simp [text_eq])
  · rw [stop, text_eq, Text.bytes_append, Text.bytes_cons, Text.bytes_nil]
    omega

/-! ### Lines that are replaced -/

section Replaced

variable {ps qs qs' : List (Text × LineEnding)} {q : Text × LineEnding} {earlier later : List Line}

/-- A line as its characters and its ending. -/
def pair (l : Line) : Text × LineEnding := (l.text, l.ending)

theorem map_pair_place (start : Nat) (ps : List (Text × LineEnding)) :
    (place start ps).map pair = ps := by
  induction ps generalizing start with
  | nil => rfl
  | cons p ps ih => rw [place, List.map_cons, ih]; rfl

theorem divide_eq_map_pair (s : Text) : divide s = (split s).map pair :=
  (map_pair_place 0 (divide s)).symm

theorem join_eq_flatMap_pair (ls : List Line) :
    join ls = (ls.map pair).flatMap fun p => p.1 ++ p.2.text := by
  rw [List.flatMap_map]
  rfl

theorem map_text_eq_map_pair (ls : List Line) : ls.map text = (ls.map pair).map Prod.fst := by
  rw [List.map_map]
  rfl

/-- The lines of a text that is written line by line, up to some lines at its end. -/
theorem map_pair_split_append {ts : List Text} (whole : ∀ t ∈ ts, IsWhole t .lf) (divided : Divided qs) :
    (split (ts.flatMap (· ++ ['\n']) ++ qs.flatMap fun q => q.1 ++ q.2.text)).map pair =
      ts.map (·, LineEnding.lf) ++ qs := by
  have all : Divided (ts.map (·, LineEnding.lf) ++ qs) := by
    induction ts with
    | nil => exact divided
    | cons t ts ih =>
      rw [List.forall_mem_cons] at whole
      exact ⟨whole.1, LineEnding.noConfusion, ih whole.2⟩
  have text := divide_eq all
  rw [List.flatMap_append, List.flatMap_map] at text
  rw [← divide_eq_map_pair]
  exact text

/-- The lines of a text that is written line by line. -/
theorem map_pair_split_lines {ts : List Text} (whole : ∀ t ∈ ts, IsWhole t .lf) :
    (split (ts.flatMap (· ++ ['\n']))).map pair = ts.map (·, LineEnding.lf) := by
  have lines := map_pair_split_append whole (show Divided [] from trivial)
  rwa [List.flatMap_nil, List.append_nil, List.append_nil] at lines

/-- Lines from one on can be replaced by others. -/
theorem Divided.replace (h : Divided (ps ++ q :: qs)) (h' : Divided qs') : Divided (ps ++ qs') := by
  induction ps with
  | nil => exact h'
  | cons p ps ih =>
    obtain ⟨whole, last, more⟩ := h
    refine ⟨whole, fun none => ?_, ih more⟩
    exact absurd (last none).2 (by simp)

/-- The lines of a text in which one line is replaced. -/
theorem map_pair_split_replace (lines : split s = earlier ++ l :: later)
    (divided : Divided (qs ++ later.map pair)) :
    (split (join earlier ++ ((qs.flatMap fun q => q.1 ++ q.2.text) ++ join later))).map pair =
      earlier.map pair ++ (qs ++ later.map pair) := by
  have whole : Divided (earlier.map pair ++ (qs ++ later.map pair)) := by
    have all := divided_divide s
    rw [divide_eq_map_pair, lines, List.map_append, List.map_cons] at all
    exact all.replace divided
  have text := divide_eq whole
  rw [List.flatMap_append, List.flatMap_append, ← join_eq_flatMap_pair, ← join_eq_flatMap_pair] at text
  rw [← divide_eq_map_pair, text]

end Replaced

end Folio.Line
