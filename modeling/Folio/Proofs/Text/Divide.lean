import Folio.Text.Line

/-!
# How a text is divided into lines

`Line.Divided` says of characters and endings that they are the lines of a text: no text holds a
line feed, only the last one may lack an ending, and a carriage return before a line feed belongs to
the ending. `Line.divided_divide` and `Line.divide_eq` say that the lines of a text are the only
ones that are divided in this way and make up the text. `Line.divide_append_eol` says what becomes
of the lines when a line feed is added at the end.
-/

namespace Folio.Line

variable {c : Char} {s t : Text} {e : LineEnding} {ls : List (Text × LineEnding)}

/-- The characters of a line and its ending. -/
structure IsWhole (text : Text) (ending : LineEnding) : Prop where
  eol : '\n' ∉ text
  ending : ending = .lf → text.getLast? ≠ some '\r'

/-- Lines as a text is divided into them. -/
def Divided : List (Text × LineEnding) → Prop
  | [] => True
  | (text, ending) :: ls =>
    IsWhole text ending ∧ (ending = .none → text ≠ [] ∧ ls = []) ∧ Divided ls

/-- A line goes on with a character, unless that ends a line or completes an ending. -/
theorem IsWhole.cons (h : IsWhole t e) (eol : c ≠ '\n') (crlf : c = '\r' → t = [] → e ≠ .lf) :
    IsWhole (c :: t) e where
  eol := by
    rw [List.mem_cons, not_or]
    exact ⟨eol.symm, h.eol⟩
  ending := by
    intro lf last
    cases t with
    | nil =>
      obtain rfl : c = '\r' := Option.some.inj last
      exact crlf rfl rfl lf
    | cons d t => exact h.ending lf last

theorem IsWhole.of_cons (h : IsWhole (c :: t) e) : IsWhole t e where
  eol := fun mem => h.eol (List.mem_cons_of_mem c mem)
  ending := by
    intro lf last
    cases t with
    | nil => cases last
    | cons d t => exact h.ending lf last

theorem divided_divide (s : Text) : Divided (divide s) := by
  fun_induction divide s with
  | case1 => trivial
  | case2 s ih =>
    exact ⟨⟨List.not_mem_nil, fun _ last => by cases last⟩, LineEnding.noConfusion, ih⟩
  | case3 s ih => exact ⟨⟨List.not_mem_nil, LineEnding.noConfusion⟩, LineEnding.noConfusion, ih⟩
  | case4 c s eol crlf rest ih =>
    have empty : IsWhole [] .none := ⟨List.not_mem_nil, LineEnding.noConfusion⟩
    refine ⟨empty.cons eol fun _ _ => LineEnding.noConfusion, fun _ => ?_, trivial⟩
    exact ⟨List.cons_ne_nil _ _, rfl⟩
  | case5 c s eol crlf t e ls rest ih =>
    rw [rest] at ih
    obtain ⟨whole, last, more⟩ := ih
    refine ⟨whole.cons eol ?_, fun none => ⟨List.cons_ne_nil _ _, (last none).2⟩, more⟩
    -- a carriage return before an empty line that ends is no character of its own
    rintro is_cr rfl rfl
    have text_eq := join_divide s
    rw [rest] at text_eq
    exact crlf _ is_cr text_eq.symm

theorem divide_cons (eol : c ≠ '\n') (crlf : ∀ s', c = '\r' → s ≠ '\n' :: s')
    (rest : divide s = (t, e) :: ls) : divide (c :: s) = (c :: t, e) :: ls := by
  rw [divide, rest]
  · exact eol
  · exact crlf

/-- The first line of a text that begins with a line and its ending. -/
theorem divide_append (whole : IsWhole t e) (ends : e ≠ .none) (s : Text) :
    divide (t ++ (e.text ++ s)) = (t, e) :: divide s := by
  induction t with
  | nil =>
    cases e with
    | none => contradiction
    | lf => rfl
    | crlf => rfl
  | cons c t ih =>
    refine divide_cons ?_ ?_ (ih whole.of_cons)
    · rintro rfl
      exact whole.eol List.mem_cons_self
    · rintro s' rfl next
      cases t with
      | nil =>
        cases e with
        | none => contradiction
        | lf => exact whole.ending rfl rfl
        | crlf => cases next
      | cons d t =>
        obtain ⟨rfl, -⟩ := List.cons.inj next
        exact whole.eol (by simp)

theorem divide_of_eol_not_mem (eol : '\n' ∉ t) (nonempty : t ≠ []) : divide t = [(t, .none)] := by
  induction t with
  | nil => contradiction
  | cons c t ih =>
    rw [List.mem_cons, not_or] at eol
    have crlf : ∀ s', c = '\r' → t ≠ '\n' :: s' := by
      rintro s' - rfl
      exact eol.2 List.mem_cons_self
    cases t with
    | nil =>
      rw [divide, divide]
      · exact eol.1 ∘ Eq.symm
      · exact crlf
    | cons d t => exact divide_cons (eol.1 ∘ Eq.symm) crlf (ih eol.2 (List.cons_ne_nil d t))

/-- A text without line feeds is one line. -/
theorem split_of_eol_not_mem (eol : '\n' ∉ t) (nonempty : t ≠ []) :
    split t = [{ start := 0, text := t, ending := .none }] := by
  rw [split, divide_of_eol_not_mem eol nonempty]
  rfl

/-- Lines that are divided are those of the text that they make up. -/
theorem divide_eq (h : Divided ls) : divide (ls.flatMap fun l => l.1 ++ l.2.text) = ls := by
  induction ls with
  | nil => rfl
  | cons l ls ih =>
    obtain ⟨whole, last, more⟩ := h
    rw [List.flatMap_cons, List.append_assoc]
    by_cases none : l.2 = .none
    · obtain ⟨nonempty, rfl⟩ := last none
      rw [none, List.flatMap_nil, LineEnding.text_none, List.append_nil, List.append_nil,
        divide_of_eol_not_mem whole.eol nonempty, ← none]
    · rw [divide_append whole none, ih more]

/-! ### A line feed at the end -/

/-- Lines after which there is a line feed more: it ends the last line, or an empty one. -/
def ended : List (Text × LineEnding) → List (Text × LineEnding)
  | [] => [([], .lf)]
  | (t, .none) :: _ => [(t, .lf)]
  | l :: ls => l :: ended ls

theorem ended_cons (ends : e ≠ .none) : ended ((t, e) :: ls) = (t, e) :: ended ls := by
  cases e with
  | none => contradiction
  | lf => rfl
  | crlf => rfl

theorem divide_append_eol (cr : '\r' ∉ s) : divide (s ++ ['\n']) = ended (divide s) := by
  fun_induction divide s with
  | case1 => rfl
  | case2 s ih =>
    rw [List.mem_cons, not_or] at cr
    exact congrArg (([], .lf) :: ·) (ih cr.2)
  | case3 s => exact absurd List.mem_cons_self cr
  | case4 c s eol _ rest ih =>
    rw [List.mem_cons, not_or] at cr
    have ih := ih cr.2
    rw [rest] at ih
    exact divide_cons eol (fun _ is_cr => absurd is_cr.symm cr.1) ih
  | case5 c s eol _ t e ls rest ih =>
    rw [List.mem_cons, not_or] at cr
    have ih := ih cr.2
    rw [rest] at ih
    have crlf : ∀ s', c = '\r' → s ++ ['\n'] ≠ '\n' :: s' :=
      fun _ is_cr => absurd is_cr.symm cr.1
    by_cases ends : e = .none
    · subst ends
      exact divide_cons eol crlf ih
    · rw [ended_cons ends] at ih ⊢
      exact divide_cons eol crlf ih

end Folio.Line
