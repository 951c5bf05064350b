import Folio.Proofs.Markup.LinePieces
import Mathlib.Order.Monotone.Basic

/-!
# Line endings

A text that is written with carriage returns before its line feeds has the same lines, with other
offsets and endings. Main statements:

* `Text.crlf` is that text, and `Text.widen` says where offsets move;
* `Line.split_crlf`: the lines of the text;
* `Line.next_widened`: the line after a line moves as the line does.
-/

namespace Folio

namespace Text

variable {s t : Text}

/-- A text with a carriage return before every line feed. -/
def crlf (s : Text) : Text := s.flatMap fun c => if c == '\n' then ['\r', '\n'] else [c]

@[simp] theorem crlf_nil : crlf [] = [] := rfl

@[simp] theorem crlf_append (s t : Text) : crlf (s ++ t) = crlf s ++ crlf t := List.flatMap_append

theorem crlf_cons_eol (s : Text) : crlf ('\n' :: s) = '\r' :: '\n' :: crlf s := rfl

theorem crlf_cons {c : Char} (other : c ≠ '\n') (s : Text) : crlf (c :: s) = c :: crlf s := by
  rw [crlf, List.flatMap_cons, if_neg (by simpa using other)]
  rfl

theorem crlf_of_eol_not_mem (eol : '\n' ∉ s) : crlf s = s := by
  induction s with
  | nil => rfl
  | cons c s ih =>
    rw [List.mem_cons, not_or] at eol
    rw [crlf_cons (Ne.symm eol.1), ih eol.2]

theorem bytes_crlf (s : Text) : bytes (crlf s) = bytes s + s.count '\n' := by
  induction s with
  | nil => rfl
  | cons c s ih =>
    by_cases eol : c = '\n'
    · have sizes : '\r'.utf8Size = 1 ∧ '\n'.utf8Size = 1 := ⟨rfl, rfl⟩
      rw [eol, crlf_cons_eol, bytes_cons, bytes_cons, bytes_cons, ih, List.count_cons_self, sizes.1,
        sizes.2]
      omega
    · rw [crlf_cons eol, bytes_cons, bytes_cons, ih, List.count_cons_of_ne eol, Nat.add_assoc]

/-- Where an offset moves when carriage returns are added: past those that are added before it. -/
def widen (s : Text) (n : Nat) : Nat := n + (takeBytes s n).count '\n'

theorem count_takeBytes_le (s : Text) (c : Char) {m n : Nat} (le : m ≤ n) :
    (takeBytes s m).count c ≤ (takeBytes s n).count c := by
  induction s generalizing m n with
  | nil => exact Nat.le_refl _
  | cons d s ih =>
    rw [takeBytes, takeBytes]
    by_cases fits : d.utf8Size ≤ m
    · rw [if_pos fits, if_pos (Nat.le_trans fits le), List.count_cons, List.count_cons]
      exact Nat.add_le_add_right (ih (Nat.sub_le_sub_right le _)) _
    · rw [if_neg fits]
      exact Nat.zero_le _

theorem strictMono_widen (s : Text) : StrictMono (widen s) := fun _ _ lt =>
  Nat.add_lt_add_of_lt_of_le lt (count_takeBytes_le s '\n' (Nat.le_of_lt lt))

/-- A boundary moves to the end of what comes before it. -/
theorem widen_append (s t : Text) : widen (s ++ t) (bytes s) = bytes (crlf s) := by
  rw [widen, takeBytes_append, bytes_crlf]

end Text

/-- An ending with a carriage return. -/
def LineEnding.widened : LineEnding → LineEnding
  | .none => .none
  | .lf => .crlf
  | .crlf => .crlf

theorem LineEnding.widened_eq_none_iff {e : LineEnding} : e.widened = .none ↔ e = .none := by
  cases e <;> simp [widened]

theorem LineEnding.widened_ne_lf (e : LineEnding) : e.widened ≠ .lf := by
  cases e <;> simp [widened]

namespace Line

variable {s : Text} {l : Line} {ls : List Line}

/-- A line that moves, with a carriage return in its ending. -/
def widened (f : Nat → Nat) (l : Line) : Line where
  start := f l.start
  text := l.text
  ending := l.ending.widened

@[simp] theorem start_widened (f : Nat → Nat) (l : Line) : (l.widened f).start = f l.start := rfl

@[simp] theorem text_widened (f : Nat → Nat) (l : Line) : (l.widened f).text = l.text := rfl

/-- A line can get a carriage return. -/
structure IsBare (l : Line) : Prop where
  eol : '\n' ∉ l.text
  ending : l.ending ≠ .crlf

theorem isBare (cr : '\r' ∉ s) (mem : l ∈ split s) : l.IsBare where
  eol := eol_not_mem mem
  ending := by
    intro crlf
    refine cr ((holds_raw mem).mem ?_)
    rw [raw, crlf]
    simp

theorem raw_widened (f : Nat → Nat) (bare : l.IsBare) : (l.widened f).raw = Text.crlf l.raw := by
  rw [raw, raw, text_widened, Text.crlf_append, Text.crlf_of_eol_not_mem bare.eol]
  cases ending : l.ending with
  | none => simp [widened, ending, LineEnding.widened]
  | lf => simp [widened, ending, LineEnding.widened, Text.crlf_cons_eol]
  | crlf => exact absurd ending bare.ending

theorem join_widened (f : Nat → Nat) (bare : ∀ l ∈ ls, l.IsBare) :
    join (ls.map (widened f)) = Text.crlf (join ls) := by
  induction ls with
  | nil => rfl
  | cons l ls ih =>
    rw [List.forall_mem_cons] at bare
    rw [List.map_cons, join_cons, join_cons, Text.crlf_append, raw_widened f bare.1, ih bare.2]

/-- The line after a line moves as the line does. -/
theorem next_widened (cr : '\r' ∉ s) (mem : l ∈ split s) :
    (l.widened (Text.widen s)).next = Text.widen s l.next := by
  obtain ⟨before, after, lines⟩ := List.append_of_mem mem
  have start := start_of_split lines
  have text_eq : s = join before ++ (l.raw ++ join after) := by
    rw [← join_cons]
    exact eq_join_append lines
  have here : Text.widen s l.start = Text.bytes (Text.crlf (join before)) := by
    conv_lhs => rw [start, text_eq]
    exact Text.widen_append ..
  have there : Text.widen s l.next =
      Text.bytes (Text.crlf (join before)) + Text.bytes (Text.crlf l.raw) := by
    rw [← bytes_raw, start, ← Text.bytes_append, ← Text.bytes_append, ← Text.crlf_append]
    conv_lhs => rw [text_eq, ← List.append_assoc]
    exact Text.widen_append ..
  rw [← bytes_raw, raw_widened _ (isBare cr mem), start_widened, here, there]

theorem map_widened_place {start : Nat} {ps : List (Text × LineEnding)} (cr : '\r' ∉ s)
    (suffix : place start ps <:+ split s) :
    (place start ps).map (widened (Text.widen s)) =
      place (Text.widen s start) (ps.map fun p => (p.1, p.2.widened)) := by
  induction ps generalizing start with
  | nil => rfl
  | cons p ps ih =>
    rw [place] at suffix
    have next := next_widened cr (suffix.subset List.mem_cons_self)
    have rest := ih ((List.suffix_cons _ _).trans suffix)
    rw [← next] at rest
    rw [place, List.map_cons, rest]
    rfl

theorem divided_widened {ps : List (Text × LineEnding)} (h : Divided ps) :
    Divided (ps.map fun p => (p.1, p.2.widened)) := by
  induction ps with
  | nil => trivial
  | cons p ps ih =>
    obtain ⟨whole, last, more⟩ := h
    refine ⟨⟨whole.eol, fun lf => absurd lf p.2.widened_ne_lf⟩, fun none => ?_, ih more⟩
    obtain ⟨nonempty, rfl⟩ := last (LineEnding.widened_eq_none_iff.1 none)
    exact ⟨nonempty, rfl⟩

/-- With carriage returns, a text has the same lines with other offsets and endings. -/
theorem split_crlf (cr : '\r' ∉ s) :
    split (Text.crlf s) = (split s).map (widened (Text.widen s)) := by
  have start : Text.widen s 0 = 0 := Text.widen_append [] s
  have moved := map_widened_place cr (List.suffix_refl (split s))
  rw [← split, start] at moved
  have text_eq : Text.crlf s =
      (((divide s).map fun p => (p.1, p.2.widened)).flatMap fun p => p.1 ++ p.2.text) := by
    rw [← join_place 0, ← moved, join_widened _ fun l mem => isBare cr mem, join_split]
  rw [split, text_eq, divide_eq (divided_widened (divided_divide s)), moved]

end Line
end Folio
