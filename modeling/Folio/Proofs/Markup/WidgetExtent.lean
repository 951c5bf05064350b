import Folio.Proofs.Markup.ContainerSpans
import Folio.Proofs.Markup.Scan

/-!
# Where a widget ends

Both a reading and a scan look for the tags of a widget: the former takes what lies between them,
the latter passes over the lines that they are in. Main statements:

* `Block.widgetAt_eq` and `Block.pastWidget?_eq`: both find the same end of a widget;
* `Block.encloses_of_widgetStop?`: this end is just past a visible character;
* `Declaration.exists_lineAt?`: the line that an offset lies in;
* `Block.exists_textFrom`: what follows a widget on its last line.
-/

namespace Folio

variable {source : Text} {l m : Line} {ls chunk after : List Line} {n : Nat}

/-- What comes before the end of a range ends with a visible character. -/
theorem Text.Closes.exists_getLast? {s p q : Text} {start stop : Nat} (h : s.Closes start stop)
    (text : s = p ++ q) (size : bytes p = stop) :
    ∃ c, p.getLast? = some c ∧ TagToken.isSkipped c = false := by
  obtain ⟨n, c, -, ⟨after, before, text', size'⟩, one, visible, stop_eq⟩ := h.last
  have first : split? (p ++ q) (bytes p) = some (p, q) := split?_append p q
  have same : bytes p = bytes (before ++ [c]) := by
    rw [bytes_append, bytes_cons, bytes_nil]
    omega
  rw [← text, text', ← List.append_assoc, same, split?_append] at first
  cases first
  exact ⟨c, List.getLast?_concat .., visible⟩

namespace Declaration

/-- The line that an offset lies in. -/
theorem exists_lineAt? (suffix : l :: ls <:+ Line.split source) (le : l.start ≤ n)
    (lt : n < Text.bytes source) :
    ∃ chunk after, ls = chunk ++ after ∧
      lineAt? n (l :: ls) = some ((l :: chunk).getLast?.getD l) ∧
      ((l :: chunk).getLast?.getD l).start ≤ n ∧ n < ((l :: chunk).getLast?.getD l).next := by
  induction ls generalizing l with
  | nil =>
    obtain ⟨before, lines⟩ := suffix
    have text := Line.eq_join_append lines.symm
    have size : Text.bytes source = l.next := by
      rw [text, Text.bytes_append, ← Line.start_of_split lines.symm, Line.join, List.flatMap_cons,
        List.flatMap_nil, List.append_nil, Line.bytes_raw]
    rw [size] at lt
    refine ⟨[], [], rfl, ?_, le, lt⟩
    rw [lineAt?, if_pos (by simp [lt])]
    rfl
  | cons c ls ih =>
    have suffix' : c :: ls <:+ Line.split source := (List.suffix_cons l _).trans suffix
    by_cases within : n < l.next
    · refine ⟨[], c :: ls, rfl, ?_, le, within⟩
      rw [lineAt?, if_pos (by simp [within])]
      rfl
    · have ends : l.ending ≠ .none := by
        intro none
        cases ((Line.whole_of_suffix suffix).2.1 none).2
      obtain ⟨ps, -, lines⟩ := Line.exists_divided suffix
      have start : c.start = l.next := by
        cases ps with
        | nil => cases lines
        | cons p ps =>
          cases lines
          rfl
      obtain ⟨chunk, after, rfl, found, ge, lt'⟩ := ih suffix' (by omega)
      have last : (l :: c :: chunk).getLast?.getD l = (c :: chunk).getLast?.getD c := by
        rw [List.getLast?_cons, List.getLast?_cons]
        rfl
      refine ⟨c :: chunk, after, rfl, ?_, last ▸ ge, last ▸ lt'⟩
      rw [lineAt?, if_neg (by simp [within, ends]), found, last]

/-- Blanking out lines does not change where they are. -/
theorem lineAt?_blanked (ds : List Declaration) (n : Nat) (ls : List Line) :
    lineAt? n (ls.map (Line.blanked ds)) = (lineAt? n ls).map (Line.blanked ds) := by
  induction ls with
  | nil => rfl
  | cons l ls ih =>
    rw [List.map_cons, lineAt?, lineAt?, Line.next_blanked, Line.ending_blanked, ih]
    split <;> rfl

end Declaration

namespace Block

/-- The opening tag at the start of some lines. -/
def tagAt (l : Line) (ls : List Line) : Except SyntaxError OpenTag :=
  OpenTag.read (l.start + indentation l.text) ((Line.join (l :: ls)).drop (indentation l.text))

/-- The text of some lines from an offset on that is not in the indentation of the first one. -/
def textFrom (l : Line) (ls : List Line) (n : Nat) : Text :=
  Text.dropBytes ((Line.join (l :: ls)).drop (indentation l.text))
    (n - (l.start + indentation l.text))

/-- The closing tag that follows an opening tag at the start of some lines. -/
def closeOf? (tag : OpenTag) (l : Line) (ls : List Line) : Option ClosingTag :=
  ClosingTag.find? tag.name.toList false tag.stop (textFrom l ls tag.stop)

/-- The offset after the widget with an opening tag at the start of some lines. -/
def widgetStop? (tag : OpenTag) (l : Line) (ls : List Line) : Option Nat :=
  if tag.selfClosing then some tag.stop else (closeOf? tag l ls).map ClosingTag.stop

/-- What follows an offset on its line. -/
def tailAt (l : Line) (ls : List Line) (n : Nat) : Text := (textFrom l ls n).takeWhile (· != '\n')

theorem widgetAt_eq (inner : Inner) (r : Region) (l : Line) (ls : List Line) :
    widgetAt inner r l ls =
      (match tagAt l ls with
      | .error e => .error (.mistake (e.relocate r.toSource))
      | .ok tag => do
        let (children, stop) ←
          bodyOf inner r (l.start + indentation l.text) tag (textFrom l ls tag.stop)
        if Text.isBlank (tailAt l ls stop) then
          return (.widget (Inline.tagIn r tag (l.start + indentation l.text) stop) tag.selfClosing
            children, stop)
        else if tag.selfClosing then paragraphAt r l ls
        else
          mistake (r.toSource (stop + indentation (tailAt l ls stop)))
            (.invalid s!"unexpected text after </{tag.name}>")) := rfl

/-- A widget starts after the indentation of the first line. -/
theorem takeWhile_join (kind : isWidgetStart l.text = true) (ls : List Line) :
    ((Line.join (l :: ls)).takeWhile isIndent).length = indentation l.text := by
  obtain ⟨c, t, tag_eq, -⟩ := exists_of_isWidgetStart kind
  rw [indentation, Text.drop_length_takeWhile] at tag_eq
  have text_eq : Line.join (l :: ls) =
      l.text.takeWhile isIndent ++ '<' :: (c :: t ++ (l.ending.text ++ Line.join ls)) := by
    conv_lhs =>
      rw [Line.join, List.flatMap_cons, Line.raw,
        ← List.takeWhile_append_dropWhile (p := isIndent) (l := l.text), tag_eq]
    simp [Line.join]
  have visible : ¬ isIndent '<' = true := by decide
  rw [text_eq, List.takeWhile_append_of_pos fun c mem =>
    List.all_eq_true.1 List.all_takeWhile c mem, List.takeWhile_cons_of_neg visible,
    List.append_nil, indentation]

theorem pastWidget?_eq (kind : isWidgetStart l.text = true) (ls : List Line) :
    Declaration.pastWidget? (l :: ls) =
      match tagAt l ls with
      | .error _ => none
      | .ok tag =>
        some (((Declaration.lineAt? ((widgetStop? tag l ls).getD
          (l.start + Text.bytes (Line.join (l :: ls))) - 1) (l :: ls)).map Line.next).getD
            (l.start + Text.bytes (Line.join (l :: ls)))) := by
  have indent := takeWhile_join kind ls
  unfold Declaration.pastWidget?
  dsimp [bind, Option.bind]
  rw [indent]
  cases opened : tagAt l ls with
  | error e =>
    rw [tagAt] at opened
    rw [opened]
  | ok tag =>
    have opened' := opened
    rw [tagAt] at opened'
    rw [opened']
    dsimp only
    rw [widgetStop?, closeOf?, textFrom]
    by_cases selfClosing : tag.selfClosing = true
    · rw [if_pos selfClosing, if_pos selfClosing]
      rfl
    · rw [if_neg selfClosing, if_neg selfClosing]
      cases ClosingTag.find? tag.name.toList false tag.stop (Text.dropBytes
        ((Line.join (l :: ls)).drop (indentation l.text))
        (tag.stop - (l.start + indentation l.text))) <;> rfl

variable {tag : OpenTag} {stop : Nat}

/-- A widget ends with a visible character, after its opening tag and its body. -/
structure Encloses (source : Text) (tag : OpenTag) (l : Line) (ls : List Line) (stop : Nat) :
    Prop where
  fits : tag.Fits source (l.start + indentation l.text)
  le : tag.stop ≤ stop
  closes : source.Closes (l.start + indentation l.text) stop
  body : tag.selfClosing = false → ∀ close, closeOf? tag l ls = some close → close.start ≤ stop

theorem encloses_of_widgetStop? (suffix : l :: ls <:+ Line.split source)
    (kind : isWidgetStart l.text = true) (opened : tagAt l ls = .ok tag)
    (ended : widgetStop? tag l ls = some stop) : Encloses source tag l ls stop := by
  have lines : l :: ls <:+ (Region.root source).lines := by
    rwa [Region.lines, Region.text_root]
  obtain ⟨rest, outcome⟩ := widgetTag_outcome lines kind
  rw [Region.text_root] at rest outcome
  rw [tagAt] at opened
  rw [opened] at outcome
  have fits : tag.Fits source (l.start + indentation l.text) := outcome
  unfold widgetStop? at ended
  split at ended
  · rename_i selfClosing
    cases ended
    refine ⟨fits, Nat.le_refl _, fits.closes, fun other => ?_⟩
    rw [selfClosing] at other
    cases other
  · obtain ⟨close, found, rfl⟩ := Option.map_eq_some_iff.1 ended
    have body := rest.dropBytes fits.closes.isCut.stop (Nat.le_of_lt fits.closes.lt)
    obtain ⟨le, closes⟩ := ClosingTag.closes_of_find? body found
    have lt := closes.lt
    have lt' := fits.closes.lt
    refine ⟨fits, by omega, closes.extend fits.closes.boundary (by omega), fun _ close' found' => ?_⟩
    rw [found] at found'
    cases found'
    exact Nat.le_of_lt lt

/-- A body that nothing closes is not read. -/
theorem bodyOf_unclosed {inner : Inner} {r : Region} {at_ : Nat}
    (unclosed : widgetStop? tag l ls = none) :
    bodyOf inner r at_ tag (textFrom l ls tag.stop) =
      mistake (r.toSource at_) (.unclosedWidget tag.name) := by
  unfold widgetStop? at unclosed
  unfold bodyOf
  split at unclosed
  · cases unclosed
  · rename_i selfClosing
    rw [Option.map_eq_none_iff, closeOf?] at unclosed
    rw [if_neg selfClosing, unclosed]

/-- A body is read up to the end of its widget. -/
theorem bodyOf_stop (inner : Inner) (r : Region) (at_ : Nat)
    (ended : widgetStop? tag l ls = some stop) :
    Outcome (fun _ => True) (fun read => read.2 = stop)
      (bodyOf inner r at_ tag (textFrom l ls tag.stop)) := by
  unfold widgetStop? at ended
  unfold bodyOf
  split at ended
  · rename_i selfClosing
    rw [if_pos selfClosing]
    exact Option.some.inj ended
  · rename_i selfClosing
    obtain ⟨close, found, rfl⟩ := Option.map_eq_some_iff.1 ended
    rw [closeOf?] at found
    rw [if_neg selfClosing, found]
    dsimp only
    exact Outcome.bind_any fun _ => Outcome.bind_any fun _ => Outcome.bind_any fun _ => rfl

/-- What follows a widget: the rest of its last line, and the lines after it. -/
theorem exists_textFrom (suffix : l :: (chunk ++ after) <:+ Line.split source)
    (closes : source.Closes (l.start + indentation l.text) stop)
    (le : stop ≤ ((l :: chunk).getLast?.getD l).next) :
    ∃ v, (∀ ls, textFrom l (chunk ++ ls) stop = v ++ Line.join ls) ∧ (after ≠ [] → '\n' ∈ v) := by
  have next := Line.next_eq_add_bytes suffix
  have lt := closes.lt
  have boundary := closes.isCut.stop
  have ended : after ≠ [] → (Line.join (l :: chunk)).getLast? = some '\n' := by
    intro nonempty
    obtain ⟨init, last, init_eq, -⟩ := Line.exists_init l chunk
    rw [← List.cons_append, init_eq, List.append_assoc, List.singleton_append] at suffix
    have ends : last.ending ≠ .none := fun none =>
      nonempty ((Line.whole_of_suffix ((List.suffix_append init _).trans suffix)).2.1 none).2
    rw [init_eq, Line.join_append, Line.join, Line.join, List.flatMap_singleton,
      List.getLast?_append, Line.getLast?_raw ends]
    rfl
  obtain ⟨before, lines⟩ := suffix
  have start := Line.start_of_split lines.symm
  have text := Line.eq_join_append lines.symm
  rw [← List.cons_append, Line.join_append] at text
  obtain ⟨k, rfl⟩ : ∃ k, stop = Text.bytes (Line.join before) + k :=
    Nat.exists_eq_add_of_le (by omega)
  rw [text, Text.isBoundary_append_iff] at boundary
  -- the lines of the widget are divided where it ends, after their indentation
  obtain ⟨w, v, divided, rfl⟩ := Text.isBoundary_iff.1
    (Text.isBoundary_of_append boundary (by omega))
  have size : Text.bytes (l.text.takeWhile isIndent) = indentation l.text :=
    Text.bytes_eq_length fun c => utf8Size_of_mem_indent
  have indented : l.text.takeWhile isIndent ++
      (l.text.dropWhile isIndent ++ (l.ending.text ++ Line.join chunk)) = w ++ v := by
    rw [← divided, Line.join_cons, Line.raw, ← List.append_assoc, List.takeWhile_append_dropWhile,
      List.append_assoc]
  obtain ⟨u, rfl⟩ := Text.prefix_of_bytes_le indented (by omega)
  refine ⟨v, fun ls => ?_, fun nonempty => ?_⟩
  · rw [Text.bytes_append] at lt ⊢
    have rest : Text.bytes (Line.join before) + (Text.bytes (l.text.takeWhile isIndent) +
        Text.bytes u) - (l.start + indentation l.text) = Text.bytes u := by omega
    rw [textFrom, ← List.cons_append, Line.join_append, divided, rest, List.append_assoc,
      List.append_assoc, indentation, List.drop_left, Text.dropBytes_append]
  · have ended := ended nonempty
    rw [divided] at ended
    cases v with
    | nil =>
      rw [List.append_nil] at ended divided
      rw [divided, ← List.append_assoc] at text
      obtain ⟨c, last, visible⟩ := closes.exists_getLast? text (Text.bytes_append ..)
      rw [List.getLast?_append, ended, Option.some_or] at last
      cases last
      cases visible
    | cons c v =>
      rw [List.getLast?_append, List.getLast?_cons, Option.some_or, ← List.getLast?_cons] at ended
      exact List.mem_of_getLast? ended

/-- Lines after a widget do not change what follows it on its last line. -/
theorem tailAt_map (suffix : l :: (chunk ++ after) <:+ Line.split source)
    (closes : source.Closes (l.start + indentation l.text) stop)
    (le : stop ≤ ((l :: chunk).getLast?.getD l).next) (f : Line → Line) :
    tailAt l (chunk ++ after.map f) stop = tailAt l (chunk ++ after) stop := by
  obtain ⟨v, text, ended⟩ := exists_textFrom suffix closes le
  rw [tailAt, tailAt, text, text]
  by_cases nonempty : after = []
  · rw [nonempty]
    rfl
  · have short : ¬ (v.takeWhile (· != '\n')).length = v.length := by
      intro eq
      have whole := List.takeWhile_prefix (p := (· != '\n')) (l := v) |>.eq_of_length eq
      have eol := List.mem_takeWhile_imp (whole.symm ▸ ended nonempty)
      simp at eol
    rw [List.takeWhile_append, if_neg short, List.takeWhile_append, if_neg short]

end Block
end Folio
