import Folio.Editor.Command
import Folio.Proofs.Markup.LinePieces
import Folio.Proofs.Markup.Quoting
import Folio.Proofs.Render.Failures

/-!
# Inserting around a selection

A selection in a line of a text divides the text into what comes before, inside and after. What the
three ways to insert do is said in terms of these parts, and so is what becomes of the lines.

* `Selection.exists_divides`: every selection divides a text;
* `Edit.wrap_parts` and `Edit.insert_parts`;
* `Pick` is what a line is divided into by a selection of words in it, and
  `Pick.exists_selection_eq_iff` says which selections are of that kind.
-/

namespace Folio

/-! ### Texts in parts -/

namespace Text

theorem floor_append (u v : Text) : floor (u ++ v) (bytes u) = bytes u :=
  floor_of_isBoundary (isBoundary_append u v)

end Text

namespace Selection

variable {s : Selection} {text u w v : Text}

theorem clamp_of_fits (fits : s.Fits text) : s.clamp text = s := by
  rw [clamp, Text.floor_of_isBoundary fits.start, Text.floor_of_isBoundary fits.stop, between,
    if_pos fits.ordered]

/-- A selection that is clamped already stays as it is. -/
theorem clamp_clamp (s : Selection) (text : Text) : (s.clamp text).clamp text = s.clamp text :=
  clamp_of_fits (s.clamp_fits text)

theorem text_parts (u w v : Text) :
    Selection.text ⟨Text.bytes u, Text.bytes u + Text.bytes w⟩ (u ++ (w ++ v)) = w := by
  have upto := Text.takeBytes_append (u ++ w) v
  rw [Text.bytes_append, List.append_assoc] at upto
  rw [text, upto, Text.dropBytes_append]

/-- A selection divides a text, once it is clamped, into what comes before, inside and after. -/
structure Divides (s : Selection) (text u w v : Text) : Prop where
  parts : text = u ++ (w ++ v)
  clamp : s.clamp text = ⟨Text.bytes u, Text.bytes u + Text.bytes w⟩

theorem exists_divides (s : Selection) (text : Text) : ∃ u w v, s.Divides text u w v := by
  have fits := s.clamp_fits text
  obtain ⟨u, w, v, parts, start, stop⟩ := fits.exists_parts
  refine ⟨u, w, v, parts, ?_⟩
  rw [stop, start]

end Selection

namespace Edit

variable (u w v before after piece : Text)

theorem clamp_parts : Selection.clamp ⟨Text.bytes u, Text.bytes u + Text.bytes w⟩ (u ++ (w ++ v)) =
    ⟨Text.bytes u, Text.bytes u + Text.bytes w⟩ := by
  have start := Text.floor_append u (w ++ v)
  have stop := Text.floor_append (u ++ w) v
  rw [List.append_assoc, Text.bytes_append] at stop
  rw [Selection.clamp, start, stop, Selection.between, if_pos (Nat.le_add_right ..)]

theorem put_append : put (u ++ v) (Text.bytes u) piece = u ++ (piece ++ v) := by
  rw [put, Text.takeBytes_append, Text.dropBytes_append, List.append_assoc]

/-- Markers are put directly around the selection. -/
theorem wrap_parts :
    wrap before after (u ++ (w ++ v)) ⟨Text.bytes u, Text.bytes u + Text.bytes w⟩ =
      { text := (u ++ before) ++ (w ++ (after ++ v))
        selection :=
          ⟨Text.bytes (u ++ before), Text.bytes (u ++ before) + Text.bytes w⟩ } := by
  have inner := put_append (u ++ w) v after
  rw [Text.bytes_append, List.append_assoc, List.append_assoc] at inner
  have outer := put_append u (w ++ (after ++ v)) before
  unfold wrap
  dsimp only
  rw [clamp_parts]
  dsimp only
  rw [inner, outer, List.append_assoc, Selection.shift, Text.bytes_append, Nat.add_right_comm]

/-- A piece is put directly after the selection. -/
theorem insert_parts :
    (insert piece (u ++ (w ++ v)) ⟨Text.bytes u, Text.bytes u + Text.bytes w⟩).text =
      u ++ (w ++ (piece ++ v)) := by
  have put := put_append (u ++ w) v piece
  rw [Text.bytes_append, List.append_assoc, List.append_assoc] at put
  unfold insert
  dsimp only
  rw [clamp_parts, put]

/-- After text in a line a piece that has to start a line comes after an empty line. -/
theorem ownLine_parts (ends : ∃ c, w.getLast? = some c ∧ c ≠ '\n') :
    ownLine piece (u ++ (w ++ v)) ⟨Text.bytes u, Text.bytes u + Text.bytes w⟩ =
      '\n' :: '\n' :: piece := by
  obtain ⟨c, last, other⟩ := ends
  have before := Text.takeBytes_append (u ++ w) v
  rw [Text.bytes_append, List.append_assoc] at before
  have last' : (u ++ w).getLast? = some c := by rw [List.getLast?_append, last, Option.some_or]
  have filled : (u ++ w).isEmpty = false := by
    rw [List.isEmpty_eq_false_iff]
    intro empty
    rw [empty] at last'
    cases last'
  unfold ownLine
  dsimp only
  rw [clamp_parts, before, filled, Text.endsWith, last']
  simp [other]

end Edit

/-! ### A selection in a line -/

/-- A selection in one line of a text that starts and ends on a letter: the lines around, and the
parts of the line. -/
structure Pick (s : Text) where
  earlier : List Line
  line : Line
  later : List Line
  before : Text
  inside : Text
  after : Text
  lines : Line.split s = earlier ++ line :: later
  text : line.text = before ++ (inside ++ after)
  starts : inside.head?.any Char.isAlpha = true
  stops : inside.getLast?.any Char.isAlpha = true

namespace Pick

variable {s : Text} (p : Pick s)

/-- The selection. -/
def selection : Selection where
  start := p.line.start + Text.bytes p.before
  stop := p.line.start + Text.bytes p.before + Text.bytes p.inside

/-- The text before the selection. -/
def front : Text := Line.join p.earlier ++ p.before

/-- The text after the selection. -/
def back : Text := p.after ++ (p.line.ending.text ++ Line.join p.later)

theorem source_eq : s = p.front ++ (p.inside ++ p.back) := by
  conv => lhs; rw [Line.eq_join_append p.lines, Line.join_cons, Line.raw, p.text]
  simp [front, back]

theorem selection_eq :
    p.selection = ⟨Text.bytes p.front, Text.bytes p.front + Text.bytes p.inside⟩ := by
  have start := Line.start_of_split p.lines
  rw [selection, front, Text.bytes_append, start]

theorem wholeLine : Line.IsWhole p.line.text p.line.ending :=
  (Line.whole_of_suffix ⟨p.earlier, p.lines.symm⟩).1

theorem divided_later : Line.Divided (p.later.map Line.pair) := by
  have all := Line.divided_divide s
  rw [Line.divide_eq_map_pair, p.lines, List.map_append, List.map_cons] at all
  exact (all.of_suffix (List.suffix_append _ _)).2.2

theorem later_eq_nil (none : p.line.ending = .none) : p.later = [] :=
  ((Line.whole_of_suffix ⟨p.earlier, p.lines.symm⟩).2.1 none).2

end Pick

/-! ### Selections in one line -/

/-- What goes on with a line ending but holds no line feed is its carriage return. -/
theorem Line.getLast?_of_past {e : LineEnding} {d : Char} {w v rest : Text}
    (text : e.text ++ rest = d :: w ++ v) (last : e = .none → rest = []) (eol : '\n' ∉ d :: w) :
    (d :: w).getLast? = some '\r' := by
  cases e with
  | none =>
    rw [last rfl] at text
    cases text
  | lf =>
    obtain ⟨rfl, -⟩ := List.cons.inj text
    exact absurd List.mem_cons_self eol
  | crlf =>
    obtain ⟨rfl, more⟩ := List.cons.inj text
    cases w with
    | nil => rfl
    | cons e w =>
      obtain ⟨rfl, -⟩ := List.cons.inj more
      exact absurd (List.mem_cons_of_mem _ List.mem_cons_self) eol

/-- A letter is not in the ending of a line. -/
theorem LineEnding.not_mem_text_of_isAlpha {c : Char} (letter : c.isAlpha = true) (e : LineEnding) :
    c ∉ e.text := by
  intro mem
  cases e with
  | none => cases mem
  | lf =>
    obtain rfl := List.mem_singleton.1 mem
    cases letter
  | crlf =>
    obtain rfl | rfl : c = '\r' ∨ c = '\n' := by simpa using mem
    · cases letter
    · cases letter

/-- A part without a line feed that starts in a line, on a letter, and ends on one is in the line. -/
theorem Line.exists_eq_of_starts {q : Text × LineEnding} {u m w v rest : Text}
    (raw : q.1 ++ q.2.text = u ++ m) (filled : m ≠ []) (parts : w ++ v = m ++ rest)
    (last : q.2 = .none → rest = []) (eol : '\n' ∉ w) (starts : w.head?.any Char.isAlpha = true)
    (stops : w.getLast?.any Char.isAlpha = true) : ∃ after, q.1 = u ++ (w ++ after) := by
  obtain ⟨c, first, letter⟩ := (Option.any_eq_true _ _).1 starts
  have head : m.head? = some c := by
    obtain ⟨d, m, rfl⟩ := List.exists_cons_of_ne_nil filled
    obtain ⟨w, rfl⟩ := List.head?_eq_some_iff.1 first
    rw [(List.cons.inj parts).1]
    rfl
  obtain ⟨u', -, ending⟩ | ⟨b, line, rfl⟩ := List.append_eq_append_iff.1 raw
  · -- it does not start in the ending
    have mem : c ∈ q.2.text := by
      rw [ending]
      exact List.mem_append_right _ (List.mem_of_mem_head? head)
    exact absurd mem (q.2.not_mem_text_of_isAlpha letter)
  · rw [List.append_assoc] at parts
    obtain ⟨after, rfl, -⟩ | ⟨w', rfl, past⟩ := List.append_eq_append_iff.1 parts
    · exact ⟨after, line⟩
    · -- nor does it end there
      cases w' with
      | nil => exact ⟨[], by simpa using line⟩
      | cons d w' =>
        have cr := getLast?_of_past past last fun mem => eol (List.mem_append_right _ mem)
        rw [List.getLast?_append, cr] at stops
        cases stops

/-- A part of a text without a line feed, which starts and ends on a letter, is a part of a line. -/
theorem Line.exists_line_of_parts {ps : List (Text × LineEnding)} {u w v : Text}
    (divided : Divided ps) (text : (ps.flatMap fun q => q.1 ++ q.2.text) = u ++ (w ++ v))
    (eol : '\n' ∉ w) (starts : w.head?.any Char.isAlpha = true)
    (stops : w.getLast?.any Char.isAlpha = true) :
    ∃ earlier q later before after, ps = earlier ++ q :: later ∧ q.1 = before ++ (w ++ after) ∧
      u = (earlier.flatMap fun q => q.1 ++ q.2.text) ++ before := by
  induction ps generalizing u with
  | nil =>
    obtain ⟨-, empty⟩ := List.append_eq_nil_iff.1 text.symm
    rw [(List.append_eq_nil_iff.1 empty).1] at starts
    cases starts
  | cons q ps ih =>
    obtain ⟨-, last, more⟩ := divided
    have later : ∀ u', u = q.1 ++ q.2.text ++ u' →
        (ps.flatMap fun q => q.1 ++ q.2.text) = u' ++ (w ++ v) →
        ∃ earlier q' later before after, q :: ps = earlier ++ q' :: later ∧
          q'.1 = before ++ (w ++ after) ∧
          u = (earlier.flatMap fun q => q.1 ++ q.2.text) ++ before := by
      intro u' front rest
      obtain ⟨earlier, q', later, before, after, rfl, line, rfl⟩ := ih more rest
      exact ⟨q :: earlier, q', later, before, after, rfl, line, by rw [front]; simp⟩
    rw [List.flatMap_cons] at text
    obtain ⟨u', front, rest⟩ | ⟨m, raw, parts⟩ := List.append_eq_append_iff.1 text
    · exact later u' front rest
    · by_cases empty : m = []
      · subst empty
        exact later [] (by rw [raw, List.append_nil, List.append_nil]) parts.symm
      · obtain ⟨after, line⟩ := exists_eq_of_starts raw empty parts
          (fun none => by rw [(last none).2]; rfl) eol starts stops
        exact ⟨[], q, ps, u, after, rfl, line, rfl⟩

/-- **Every part of a line that starts and ends on a letter can be picked.** -/
theorem Pick.exists_of_parts {s u w v : Text} (text : s = u ++ (w ++ v)) (eol : '\n' ∉ w)
    (starts : w.head?.any Char.isAlpha = true) (stops : w.getLast?.any Char.isAlpha = true) :
    ∃ p : Pick s, p.inside = w ∧ p.selection = ⟨Text.bytes u, Text.bytes u + Text.bytes w⟩ := by
  have whole : ((Line.split s).map Line.pair).flatMap (fun q => q.1 ++ q.2.text) = u ++ (w ++ v) := by
    rw [← Line.join_eq_flatMap_pair, Line.join_split, text]
  have divided : Line.Divided ((Line.split s).map Line.pair) := by
    rw [← Line.divide_eq_map_pair]
    exact Line.divided_divide s
  obtain ⟨earlier, q, later, before, after, lines, line, front⟩ :=
    Line.exists_line_of_parts divided whole eol starts stops
  obtain ⟨ls, more, split, rfl, pairs⟩ := List.map_eq_append_iff.1 lines
  obtain ⟨l, ls', rfl, rfl, -⟩ := List.map_eq_cons_iff.1 pairs
  let p : Pick s := ⟨ls, l, ls', before, w, after, split, line, starts, stops⟩
  refine ⟨p, rfl, ?_⟩
  have same : p.front = u := by rw [front, ← Line.join_eq_flatMap_pair]; rfl
  rw [p.selection_eq, same]

/-- Something in one line is selected, and it starts and ends on a letter. -/
structure Selection.IsLettered (selection : Selection) (s : Text) : Prop where
  fits : selection.Fits s
  eol : '\n' ∉ selection.text s
  starts : (selection.text s).head?.any Char.isAlpha = true
  stops : (selection.text s).getLast?.any Char.isAlpha = true

/-- The selections that can be picked are those in one line that start and end on a letter. -/
theorem Pick.exists_selection_eq_iff {s : Text} {selection : Selection} :
    (∃ p : Pick s, p.selection = selection) ↔ selection.IsLettered s := by
  constructor
  · rintro ⟨p, rfl⟩
    have inside := Selection.text_parts p.front p.inside p.back
    have cut := Text.isCut_of_parts p.front p.inside p.back
    rw [← p.source_eq, ← p.selection_eq] at inside
    rw [← p.source_eq] at cut
    have fits : p.selection.Fits s := by
      rw [p.selection_eq]
      exact cut
    refine ⟨fits, ?_, inside ▸ p.starts, inside ▸ p.stops⟩
    rw [inside]
    exact fun mem => p.wholeLine.1 (by rw [p.text]; simp [mem])
  · intro lettered
    obtain ⟨u, w, v, text, start, stop⟩ := lettered.fits.exists_parts
    have parts : selection = ⟨Text.bytes u, Text.bytes u + Text.bytes w⟩ := by rw [stop, start]
    have inside : selection.text s = w := by rw [parts, text, Selection.text_parts]
    obtain ⟨-, eol, starts, stops⟩ := lettered
    rw [inside] at eol starts stops
    obtain ⟨p, -, picked⟩ := exists_of_parts text eol starts stops
    exact ⟨p, picked.trans parts.symm⟩

end Folio
