import Folio.Proofs.Markup.BlockAgreement
import Folio.Proofs.Markup.TagEnds
import Mathlib.Data.List.Forall2

/-!
# Lines of a text with a line feed more

With a line feed more at its end, a text has the same lines, but that the last one has an ending or
that an empty line comes after it. What a block takes of them is the same, unless it takes empty
lines. Main statements:

* `Line.ended_split`: how the lines of a text and of the text with a line feed more are related;
* `Line.Ended.takeWhile`: lines that are taken up to an empty one;
* `Block.itemLines_ended`: the lines of a list item.
-/

namespace Folio

/-! ### Lines -/

namespace Line

variable {stop n : Nat} {l l' : Line} {ls ls' : List Line} {s : Text}

/-- Lines, and the same lines with a line feed more at the offset `stop`. -/
inductive Ended (stop : Nat) : Nat → List Line → List Line → Prop
  | empty : Ended stop stop [] [⟨stop, [], .lf⟩]
  | last {n : Nat} {t : Text} (nonempty : t ≠ []) (ends : n + Text.bytes t = stop) :
    Ended stop n [⟨n, t, .none⟩] [⟨n, t, .lf⟩]
  | cons {l : Line} {ls ls' : List Line} (lt : l.start < l.next) (rest : Ended stop l.next ls ls') :
    Ended stop l.start (l :: ls) (l :: ls')

/-- Lines with the same start and the same text, after which reading goes on at the same offset or
with nothing. -/
structure Matches (stop : Nat) (l l' : Line) : Prop where
  start : l.start = l'.start
  text : l.text = l'.text
  next : Resumes stop l.next l'.next

namespace Matches

theorem refl (stop : Nat) (l : Line) : Matches stop l l := ⟨rfl, rfl, .inl rfl⟩

theorem stop_eq (h : Matches stop l l') : l.stop = l'.stop := by
  rw [Line.stop, Line.stop, h.start, h.text]

theorem last {t : Text} (ends : n + Text.bytes t = stop) :
    Matches stop ⟨n, t, .none⟩ ⟨n, t, .lf⟩ where
  start := rfl
  text := rfl
  next := .inr ⟨Nat.le_of_eq ends.symm, Nat.le_add_right_of_le (Nat.le_of_eq ends.symm)⟩

/-- What is made of the starts and the texts of lines. -/
theorem map_eq {α : Type} {f : Line → α} (h : List.Forall₂ (Matches stop) ls ls')
    (same : ∀ l l' : Line, l.start = l'.start → l.text = l'.text → f l = f l') :
    ls.map f = ls'.map f := by
  induction h with
  | nil => rfl
  | cons first _ ih => rw [List.map_cons, List.map_cons, ih, same _ _ first.start first.text]

theorem getLast? (h : List.Forall₂ (Matches stop) (l :: ls) (l' :: ls')) :
    Matches stop ((l :: ls).getLast?.getD l) ((l' :: ls').getLast?.getD l') := by
  rw [List.forall₂_cons] at h
  obtain ⟨first, rest⟩ := h
  induction rest generalizing l l' with
  | nil => exact first
  | cons next rest ih =>
    have last := ih next
    rw [List.getLast?_cons, List.getLast?_cons, Option.getD_some] at last ⊢
    rw [List.getLast?_cons, List.getLast?_cons]
    exact last

end Matches

namespace Ended

theorem le (h : Ended stop n ls ls') : n ≤ stop := by
  induction h with
  | empty => exact Nat.le_refl _
  | last _ ends => exact ends ▸ Nat.le_add_right ..
  | cons lt _ ih => exact Nat.le_trans (Nat.le_of_lt lt) ih

theorem nonempty (h : Ended stop n ls ls') : ls' ≠ [] := by
  cases h <;> exact List.cons_ne_nil _ _

/-- Lines without the final line feed lie before it. -/
theorem lt_of_mem (h : Ended stop n ls ls') : ∀ m ∈ ls, m.start < stop ∧ m.stop ≤ stop := by
  induction h with
  | empty => exact nofun
  | @last n t nonempty ends =>
    refine List.forall_mem_singleton.2 ⟨?_, Nat.le_of_eq ends⟩
    cases t with
    | nil => contradiction
    | cons c t =>
      have := c.utf8Size_pos
      rw [Text.bytes_cons] at ends
      dsimp only
      omega
  | @cons l _ _ lt rest ih =>
    have := rest.le
    have := l.stop_le_next
    exact List.forall_mem_cons.2 ⟨⟨by omega, by omega⟩, ih⟩

/-- Of the lines with the final line feed, all but an empty one lie before it. -/
theorem lt_or_empty_of_mem (h : Ended stop n ls ls') :
    ∀ m ∈ ls', m.start < stop ∨ m.text = [] := by
  induction h with
  | empty => exact List.forall_mem_singleton.2 (.inr rfl)
  | last nonempty ends =>
    have short := (Ended.last nonempty ends).lt_of_mem _ List.mem_cons_self
    exact List.forall_mem_singleton.2 (.inl short.1)
  | cons lt rest ih => exact List.forall_mem_cons.2 ⟨.inl (Nat.lt_of_lt_of_le lt rest.le), ih⟩

theorem join_eq (h : Ended stop n ls ls') : join ls' = join ls ++ ['\n'] := by
  induction h with
  | empty => rfl
  | last => simp [join, raw]
  | cons _ _ ih => rw [join_cons, join_cons, ih, List.append_assoc]

/-- The first line of both. -/
theorem head (h : Ended stop n (l :: ls) (l' :: ls')) : Matches stop l l' := by
  cases h with
  | last _ ends => exact .last ends
  | cons => exact .refl stop l

/-- Lines that are taken up to an empty one. -/
theorem takeWhile {p : Line → Bool} (h : Ended stop n ls ls')
    (texts : ∀ l l' : Line, l.text = l'.text → p l = p l')
    (stops : ∀ l : Line, l.text = [] → p l = false) :
    List.Forall₂ (Matches stop) (ls.takeWhile p) (ls'.takeWhile p) := by
  induction h with
  | empty =>
    rw [List.takeWhile_cons_of_neg (by simp [stops])]
    exact .nil
  | @last n t _ ends =>
    have same := texts ⟨n, t, .none⟩ ⟨n, t, .lf⟩ rfl
    rw [List.takeWhile_cons, List.takeWhile_cons, same]
    split
    · exact .cons (.last ends) .nil
    · exact .nil
  | @cons l _ _ _ _ ih =>
    rw [List.takeWhile_cons, List.takeWhile_cons]
    split
    · exact .cons (.refl stop l) ih
    · exact .nil

/-- The same after the first line. -/
theorem cons_takeWhile {p : Line → Bool} (h : Ended stop n (l :: ls) (l' :: ls'))
    (texts : ∀ l l' : Line, l.text = l'.text → p l = p l')
    (stops : ∀ l : Line, l.text = [] → p l = false) :
    List.Forall₂ (Matches stop) (l :: ls.takeWhile p) (l' :: ls'.takeWhile p) := by
  cases h with
  | last _ ends => exact .cons (.last ends) .nil
  | cons _ rest => exact .cons (.refl stop l) (rest.takeWhile texts stops)

end Ended

/-- The lines of a text, and those of the text with a line feed more. -/
theorem ended_place {ps : List (Text × LineEnding)} (divided : Divided ps) (start : Nat) :
    Ended (start + Text.bytes (ps.flatMap fun l => l.1 ++ l.2.text)) start (place start ps)
      (place start (ended ps)) := by
  induction ps generalizing start with
  | nil => exact .empty
  | cons p ps ih =>
    obtain ⟨t, e⟩ := p
    obtain ⟨-, last, more⟩ := divided
    by_cases none : e = .none
    · obtain ⟨nonempty, rfl⟩ := last none
      subst none
      exact .last nonempty (by simp)
    · have size : start + Text.bytes (((t, e) :: ps).flatMap fun l => l.1 ++ l.2.text) =
          Line.next ⟨start, t, e⟩ + Text.bytes (ps.flatMap fun l => l.1 ++ l.2.text) := by
        rw [List.flatMap_cons, Text.bytes_append, Text.bytes_append]
        simp only [Line.next, Line.stop]
        omega
      have ends : 0 < Text.bytes e.text := by
        cases e with
        | none => contradiction
        | lf => exact Nat.one_pos
        | crlf => exact Nat.two_pos
      rw [ended_cons none, size]
      refine .cons ?_ (ih more _)
      simp only [Line.next, Line.stop]
      omega

theorem ended_split (cr : '\r' ∉ s) :
    Ended (Text.bytes s) 0 (split s) (split (s ++ ['\n'])) := by
  have ended := ended_place (divided_divide s) 0
  rwa [join_divide, Nat.zero_add, ← divide_append_eol cr] at ended

end Line

/-! ### The lines of an item -/

namespace Block

open Line (Ended Matches)

variable {stop n : Nat} {l l' : Line} {ls ls' : List Line}

/-- Items with the same content. -/
structure SameItem (stop : Nat) (item item' : ItemLines) : Prop where
  pieces : dropEmpty item.pieces = dropEmpty item'.pieces
  last : item.last.stop = item'.last.stop
  loose : item.loose = item'.loose
  apart : ∀ ordered, item.isApart ordered = item'.isApart ordered
  resume : Resumes stop item.resume item'.resume

/-- An item without further lines is not set apart from what follows. -/
theorem isApart_of_rest {item : ItemLines} (rest : item.rest = []) (ordered : Bool) :
    item.isApart ordered = false := by
  rw [ItemLines.isApart, rest, List.head?_nil, Option.any_none, Bool.and_false]

/-- An item takes a last line with an ending and one without in the same way. -/
theorem itemLines_last {column : Nat} {item : ItemLines} {t : Text}
    (ends : n + Text.bytes t = stop) :
    SameItem stop (itemLines column item [⟨n, t, .none⟩]) (itemLines column item [⟨n, t, .lf⟩]) := by
  have next := (Matches.last ends).next
  have taken : ∀ {item item' : ItemLines}, item.pieces = item'.pieces →
      item.last.stop = item'.last.stop → item.loose = item'.loose →
      Resumes stop item.resume item'.resume →
      SameItem stop (itemLines column item []) (itemLines column item' []) := by
    intro item item' pieces last loose resume
    refine ⟨congrArg dropEmpty pieces, last, loose, fun ordered => ?_, resume⟩
    rw [isApart_of_rest rfl, isApart_of_rest rfl]
  rw [itemLines_cons, itemLines_cons, takeLine?, takeLine?]
  by_cases blank : Text.isBlank t = true
  · simp only [if_pos blank]
    exact taken rfl rfl rfl next
  · simp only [if_neg blank]
    by_cases deep : column ≤ indentation t
    · simp only [if_pos deep]
      exact taken rfl rfl rfl next
    · simp only [if_neg deep]
      by_cases lazy : (!item.blanksAfter && !startsBlock t) = true
      · simp only [if_pos lazy]
        exact taken rfl rfl rfl next
      · simp only [if_neg lazy]
        exact ⟨rfl, rfl, rfl, fun _ => rfl, .inl rfl⟩

theorem itemLines_ended {column : Nat} {item : ItemLines} (h : Ended stop n ls ls')
    (nonempty : item.pieces ≠ []) (resume : item.resume = n) :
    SameItem stop (itemLines column item ls) (itemLines column item ls') := by
  induction h generalizing item with
  | empty =>
    have blank : takeLine? column item ⟨stop, [], .lf⟩ = some { item with
        pieces := (stop, stop) :: item.pieces, blanksAfter := true, resume := stop + 1 } := rfl
    rw [itemLines_cons, blank]
    refine ⟨(dropEmpty_cons_empty nonempty).symm, rfl, rfl, fun ordered => ?_, ?_⟩
    · rw [isApart_of_rest rfl, isApart_of_rest rfl]
    · exact .inr ⟨Nat.le_of_eq resume.symm, Nat.le_add_right ..⟩
  | last _ ends => exact itemLines_last ends
  | @cons l ls ls' lt rest ih =>
    rw [itemLines_cons, itemLines_cons]
    cases step : takeLine? column item l with
    | none => exact ⟨rfl, rfl, rfl, fun _ => rfl, .inl rfl⟩
    | some item' =>
      obtain ⟨⟨piece, pieces, -⟩, -, resume⟩ := of_takeLine? step
      exact ih (by rw [pieces]; exact List.cons_ne_nil _ _) resume

end Block
end Folio
