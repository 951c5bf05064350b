import Folio.Proofs.Markup.EndedBlocks

/-!
# Where fenced code ends

Fenced code is passed over in two ways. A scan for declarations goes through the text after the opening line; a
reading takes lines that are already divided. What a scan looks for can also be found in the raw text, from one
line feed to the next, without the carriage returns before it.

* `Fence.walk`: the end of fenced code in raw text;
* `Fence.walk_eq_skip`: it is the end that a scan finds;
* `Fence.ends_agree`: both are the start of the line after the one that closes the fence.
-/

namespace Folio

namespace Text

variable {s w : Text}

/-- A run is the same when the text goes on with other characters. -/
theorem takeWhile_append_of_all {p : Char → Bool} (stops : ∀ c ∈ w, p c = false) (s : Text) :
    (s ++ w).takeWhile p = s.takeWhile p := by
  have nothing : w.takeWhile p = [] := by
    cases w with
    | nil => rfl
    | cons c w => exact List.takeWhile_cons_of_neg (by simp [stops c List.mem_cons_self])
  rw [List.takeWhile_append]
  split
  · rename_i whole
    rw [nothing, List.append_nil, (List.takeWhile_prefix p).eq_of_length whole]
  · rfl

/-- A text is its end of a kind after what is left without it. -/
theorem exists_of_trimEndOf (p : Char → Bool) (s : Text) :
    ∃ w, s = trimEndOf p s ++ w ∧ ∀ c ∈ w, p c = true := by
  refine ⟨(s.reverse.takeWhile p).reverse, ?_, fun c mem => ?_⟩
  · rw [trimEndOf, ← List.reverse_append, List.takeWhile_append_dropWhile, List.reverse_reverse]
  · exact List.mem_takeWhile_imp (List.mem_reverse.1 mem)

end Text

namespace Fence

variable {f : Fence} {line s t w text : Text} {at_ : Nat}

/-! ### Carriage returns -/

/-- Carriage returns at the end of a line have no part in whether it closes a fence. -/
theorem closes_append (mark : f.marker ≠ '\r') (returns : ∀ c ∈ w, c = '\r') :
    f.closes (t ++ w) = f.closes t := by
  have blank : Text.isBlank w = true := List.all_eq_true.2 fun c mem => returns c mem ▸ rfl
  have indent : indentation (t ++ w) = indentation t := by
    rw [indentation, Text.takeWhile_append_of_all (fun c mem => returns c mem ▸ rfl), indentation]
  have run : ∀ r : Text, (r ++ w).takeWhile (· == f.marker) = r.takeWhile (· == f.marker) :=
    Text.takeWhile_append_of_all fun c mem => by
      rw [returns c mem]
      exact beq_eq_false_iff_ne.2 mark.symm
  have start : Text.trimStart (t ++ w) = Text.trimStart t ∨
      Text.trimStart (t ++ w) = Text.trimStart t ++ w := by
    rw [Text.trimStart, List.dropWhile_append]
    split
    · rename_i empty
      left
      rw [Text.trimStart, List.isEmpty_iff.1 empty]
      exact List.dropWhile_eq_nil_iff.2 (List.all_eq_true.1 blank)
    · exact .inr rfl
  unfold closes
  rw [indent]
  rcases start with same | longer
  · rw [same]
  · rw [longer]
    dsimp only
    rw [run, List.drop_append_of_le_length (List.takeWhile_prefix _).length_le, Text.isBlank, List.all_append,
      ← Text.isBlank, ← Text.isBlank, blank, Bool.and_true]

theorem closes_trimEnd (mark : f.marker ≠ '\r') (t : Text) :
    f.closes (Text.trimEndOf (· == '\r') t) = f.closes t := by
  obtain ⟨w, parts, returns⟩ := Text.exists_of_trimEndOf (· == '\r') t
  conv_rhs => rw [parts]
  exact (closes_append mark fun c mem => beq_iff_eq.1 (returns c mem)).symm

/-! ### Raw text -/

/-- The offset just past fenced code, in the text `s` at offset `at_` after the opening line. Lines go from one
line feed to the next and are looked at without the carriage returns at their end. -/
def walk (f : Fence) (at_ : Nat) (s : Text) : Nat :=
  if s = [] then at_
  else
    let line := s.takeWhile (· != '\n')
    let next := at_ + Text.bytes line + Text.bytes ((s.drop line.length).take 1)
    if f.closes (Text.trimEndOf (· == '\r') line) then next else f.walk next (s.drop (line.length + 1))
termination_by s.length
decreasing_by
  rename_i nonempty _
  have filled := List.length_pos_of_ne_nil nonempty
  rw [List.length_drop]
  omega

theorem walk_line (eol : '\n' ∉ line) (f : Fence) (at_ : Nat) (t : Text) :
    f.walk at_ (line ++ '\n' :: t) =
      if f.closes (Text.trimEndOf (· == '\r') line) then at_ + Text.bytes line + 1
      else f.walk (at_ + Text.bytes line + 1) t := by
  have first : (line ++ '\n' :: t).takeWhile (· != '\n') = line := by
    rw [Text.takeWhile_append_eol (by decide), Text.takeWhile_ne_eol eol]
  have rest : (line ++ '\n' :: t).drop (line.length + 1) = t := by
    rw [← List.drop_drop, List.drop_left]
    rfl
  rw [walk, if_neg (by simp), first]
  dsimp only
  rw [rest, List.drop_left]
  rfl

/-- The last line ends the walk, whether it closes the fence or not. -/
theorem walk_last (eol : '\n' ∉ line) (f : Fence) (at_ : Nat) :
    f.walk at_ line = at_ + Text.bytes line := by
  rw [walk]
  split
  · rename_i empty
    rw [empty]
    rfl
  · rw [Text.takeWhile_ne_eol eol]
    dsimp only
    rw [List.drop_length, List.drop_eq_nil_of_le (Nat.le_succ _), walk, if_pos rfl]
    simp

/-- The first line of a text has the carriage return before its line feed in its ending. -/
theorem exists_divide_line (eol : '\n' ∉ line) (t : Text) :
    ∃ u e w, Line.divide (line ++ '\n' :: t) = (u, e) :: Line.divide t ∧ line = u ++ w ∧
      (∀ c ∈ w, c = '\r') ∧ Text.bytes u + Text.bytes e.text = Text.bytes line + 1 := by
  by_cases cr : line.getLast? = some '\r'
  · obtain ⟨u, rfl⟩ := List.getLast?_eq_some_iff.1 cr
    have whole : Line.IsWhole u .crlf :=
      ⟨fun mem => eol (List.mem_append_left _ mem), LineEnding.noConfusion⟩
    refine ⟨u, .crlf, ['\r'], ?_, rfl, by simp, ?_⟩
    · rw [List.append_assoc]
      exact Line.divide_append whole LineEnding.noConfusion t
    · rw [Text.bytes_append]
      rfl
  · have whole : Line.IsWhole line .lf := ⟨eol, fun _ => cr⟩
    exact ⟨line, .lf, [], Line.divide_append whole LineEnding.noConfusion t, (List.append_nil _).symm, nofun, rfl⟩

/-- In raw text fenced code ends where it does among lines that are divided. -/
theorem walk_eq_skip (mark : f.marker ≠ '\r') (at_ : Nat) (s : Text) : f.walk at_ s = f.skip at_ s := by
  induction length : s.length using Nat.strong_induction_on generalizing s at_ with
  | _ n ih =>
    by_cases eol : '\n' ∈ s
    · obtain ⟨line, t, rfl, first⟩ := List.eq_append_cons_of_mem eol
      obtain ⟨u, e, w, divided, rfl, returns, size⟩ := exists_divide_line first t
      have shorter : t.length < n := by
        rw [← length, List.length_append, List.length_cons]
        omega
      rw [walk_line first, closes_trimEnd mark, closes_append mark returns, ih _ shorter _ t rfl, skip, skip,
        divided, extent, size]
      split <;> omega
    · rw [walk_last eol, skip]
      by_cases empty : s = []
      · rw [empty]
        rfl
      · rw [Line.divide_of_eol_not_mem eol empty, extent]
        simp [extent]

/-- The offset just past fenced code of which the opening line ends at the offset `stop` of a text. -/
def walkFrom (f : Fence) (text : Text) (stop : Nat) : Nat :=
  let start := min (stop + 1) (Text.bytes text)
  f.walk start (Text.dropBytes text start)

end Fence

/-! ### Lines that are divided -/

namespace Line

variable {s : Text} {before after ls : List Line} {l : Line}

/-- The offset where the line with an index starts, and the end of the text when there is none. -/
def offsetAt (s : Text) (i : Nat) : Nat :=
  ((split s)[i]?.map start).getD (Text.bytes s)

/-- A line starts where the lines before it end. -/
theorem offsetAt_length (parts : split s = before ++ after) :
    offsetAt s before.length = Text.bytes (join before) := by
  rw [offsetAt, parts, List.getElem?_append_right (Nat.le_refl _), Nat.sub_self]
  cases after with
  | nil => exact congrArg Text.bytes ((eq_join_append parts).trans (List.append_nil _))
  | cons l after => exact start_of_split parts

/-- The last of some lines ends where the line after them starts. -/
theorem next_eq_offsetAt (parts : split s = before ++ l :: (ls ++ after)) :
    ((l :: ls).getLast?.getD l).next = offsetAt s (before.length + (ls.length + 1)) := by
  have lines : split s = (before ++ l :: ls) ++ after := by rw [parts, List.append_assoc, List.cons_append]
  have index := offsetAt_length lines
  rw [List.length_append, List.length_cons] at index
  rw [next_eq_add_bytes ⟨before, parts.symm⟩, start_of_split parts, index, join_append, Text.bytes_append]

end Line

namespace Fence

open Block (fenceLines fenceLines_cons)

variable {f : Fence} {s u : Text} {before ls : List Line} {l : Line} {i stop : Nat}

/-- The index of the line after fenced code that the line with the index `i` opens: it follows the first line
after that one that closes the fence, or all lines. -/
def nextIndex (f : Fence) (lines : List Line) (i : Nat) : Nat :=
  match (lines.drop (i + 1)).findIdx? fun m => f.closes m.text with
  | some k => i + 1 + k + 1
  | none => lines.length

theorem length_fenceLines (f : Fence) (ls : List Line) :
    (fenceLines f ls).length =
      match ls.findIdx? fun m => f.closes m.text with
      | some k => k + 1
      | none => ls.length := by
  induction ls with
  | nil => rfl
  | cons m ms ih =>
    rw [fenceLines_cons, List.findIdx?_cons]
    split
    · rfl
    · rw [List.length_cons, ih]
      cases ms.findIdx? fun m => f.closes m.text <;> rfl

/-- Reading goes on after the lines of fenced code. -/
theorem nextIndex_append (f : Fence) (before ls : List Line) (l : Line) :
    f.nextIndex (before ++ l :: ls) before.length = before.length + ((fenceLines f ls).length + 1) := by
  have rest : (before ++ l :: ls).drop (before.length + 1) = ls := by
    rw [← List.drop_drop, List.drop_left]
    rfl
  rw [nextIndex, rest, length_fenceLines]
  cases ls.findIdx? fun m => f.closes m.text with
  | none => exact List.length_append
  | some k =>
    show before.length + 1 + k + 1 = before.length + (k + 1 + 1)
    omega

/-! ### The end of the opening line -/

theorem walkFrom_append (size : Text.bytes u = stop + 1) (f : Fence) (t : Text) :
    f.walkFrom (u ++ t) stop = f.walk (stop + 1) t := by
  have start : min (stop + 1) (Text.bytes (u ++ t)) = Text.bytes u := by
    rw [Text.bytes_append]
    omega
  rw [walkFrom, start, Text.dropBytes_append, size]

theorem walkFrom_of_le (past : Text.bytes s ≤ stop + 1) (f : Fence) : f.walkFrom s stop = Text.bytes s := by
  have nothing : Text.dropBytes s (Text.bytes s) = [] := by
    have dropped := Text.dropBytes_append s []
    rwa [List.append_nil] at dropped
  rw [walkFrom, Nat.min_eq_right past, nothing, walk, if_pos rfl]

/-- After the end of a line the walk reads the lines that follow. Between the two characters of an ending it
reads an empty line, which closes nothing. -/
theorem walkFrom_eq_skip (parts : Line.split s = before ++ l :: ls) (opens : open? l.text = some f) :
    f.walkFrom s l.stop = f.skip l.next (Line.join ls) := by
  have mark : f.marker ≠ '\r' := by
    rcases (marks_of_open? opens).1 with mark | mark <;> rw [mark] <;> decide
  have stop : Text.bytes (Line.join before ++ l.text) = l.stop := by
    rw [Text.bytes_append, Line.stop, Line.start_of_split parts]
  have text : s = Line.join before ++ l.text ++ (l.ending.text ++ Line.join ls) := by
    rw [Line.eq_join_append parts, Line.join_cons, Line.raw, List.append_assoc, List.append_assoc]
  rw [← walk_eq_skip mark, Line.next]
  cases ending : l.ending with
  | none =>
    obtain rfl : ls = [] := ((Line.whole_of_suffix ⟨before, parts.symm⟩).2.1 ending).2
    have past : Text.bytes s = l.stop := by
      rw [text, ending, ← stop]
      exact congrArg Text.bytes (List.append_nil _)
    rw [walkFrom_of_le (by omega), past]
    exact (walk_last List.not_mem_nil f _).symm
  | lf =>
    have size : Text.bytes (Line.join before ++ l.text ++ ['\n']) = l.stop + 1 := by
      rw [Text.bytes_append, stop]
      rfl
    rw [text, ending, LineEnding.text_lf, ← List.append_assoc, walkFrom_append size]
    rfl
  | crlf =>
    have size : Text.bytes (Line.join before ++ l.text ++ ['\r']) = l.stop + 1 := by
      rw [Text.bytes_append, stop]
      rfl
    have empty : f.closes (Text.trimEndOf (· == '\r') []) = false := closes_nil opens
    have walked := walkFrom_append size f ('\n' :: Line.join ls)
    rw [List.append_assoc] at walked
    rw [text, ending]
    refine walked.trans ((walk_line (List.not_mem_nil) f _ _).trans ?_)
    rw [empty]
    rfl

/-- **Both ways to pass over fenced code end at the same line.** Where a line of a text opens a fence, going
through the raw text from the end of that line ends at the start of the line at which a reading goes on, or at
the end of the text when no line is left; and so does a scan. -/
theorem ends_agree (text : Text) (i : Nat) (l : Line) (f : Fence) (line : (Line.split text)[i]? = some l)
    (opens : open? l.text = some f) :
    let lines := Line.split text
    let ls := lines.drop (i + 1)
    let next := Line.offsetAt text (f.nextIndex lines i)
    f.walkFrom text l.stop = next ∧ f.skip l.next (Line.join ls) = next ∧
      (Block.fenced (Region.root text) f l ls).2 = next := by
  intro lines ls next
  obtain ⟨inside, at_i⟩ := List.getElem?_eq_some_iff.1 line
  have parts : Line.split text = lines.take i ++ l :: ls := by
    rw [← at_i, ← List.drop_eq_getElem_cons inside, List.take_append_drop]
  have index : (lines.take i).length = i := List.length_take_of_le (Nat.le_of_lt inside)
  have scanned : f.skip l.next (Line.join ls) = ((l :: fenceLines f ls).getLast?.getD l).next :=
    skip_eq ⟨lines.take i, parts.symm⟩
  have ends : ((l :: fenceLines f ls).getLast?.getD l).next = next := by
    obtain ⟨after, rest⟩ := Block.exists_append_fenceLines f ls
    have taken := parts
    rw [rest] at taken
    have reached := nextIndex_append f (lines.take i) ls l
    rw [← parts, index] at reached
    rw [Line.next_eq_offsetAt taken, index, ← reached]
  exact ⟨(walkFrom_eq_skip parts opens).trans (scanned.trans ends), scanned.trans ends,
    (congrArg Prod.snd (Block.fenced_eq ..)).trans ends⟩

/-- Lines with two characters at their ends, of which the third closes the fence. -/
theorem ends_agree_crlf :
    let text : Text := "~~~\r\na\r\n~~~~\r\nb".toList
    let l : Line := ⟨0, "~~~".toList, .crlf⟩
    let f : Fence := { marker := '~', length := 3, indent := 0, info := none }
    (Line.split text)[0]? = some l ∧ open? l.text = some f ∧ f.nextIndex (Line.split text) 0 = 3 ∧
      f.walkFrom text l.stop = 14 ∧ (Block.fenced (Region.root text) f l ((Line.split text).drop 1)).2 = 14 := by
  intro text l f
  have line : (Line.split text)[0]? = some l := by decide
  have opens : open? l.text = some f := by decide
  have index : f.nextIndex (Line.split text) 0 = 3 := by decide
  have start : Line.offsetAt text 3 = 14 := by decide
  obtain ⟨walked, -, read⟩ := ends_agree text 0 l f line opens
  rw [index, start] at walked read
  exact ⟨line, opens, index, walked, read⟩

end Fence
end Folio
