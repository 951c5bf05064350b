import Folio.Proofs.Markup.Bodies
import Folio.Proofs.Markup.EndedLines
import Folio.Proofs.Markup.WidgetExtent

/-!
# Blocks of a text with a line feed more

A line feed more at the end of a region changes one block at most, and only its last one: fenced
code that no line closes goes on to the last line, so that an empty line more is a part of it. Main
statements:

* `Region.agree_lined`: the region with a line feed more agrees with the region;
* `Block.blockAt_ended`: the block at a line;
* `Block.parse_lined`: the blocks of a region.
-/

namespace Folio

open Line (Ended Matches)

namespace Region

/-- A region with a line feed more, which is placed at its end. -/
def lined (r : Region) : Region where
  cells := r.cells ++ [⟨'\n', r.stop⟩]
  stop := r.stop

@[simp] theorem text_lined (r : Region) : r.lined.text = r.text ++ ['\n'] := by
  simp [lined, text]

theorem locate_lined (stop : Nat) (ps : List Placed) (n : Nat) :
    locate stop (ps ++ [⟨'\n', stop⟩]) n = locate stop ps n := by
  induction ps generalizing n with
  | nil =>
    show (if n < 1 then stop + n else stop) = stop
    split
    · rename_i lt
      obtain rfl : n = 0 := Nat.lt_one_iff.1 lt
      rfl
    · rfl
  | cons p ps ih => rw [List.cons_append, locate, locate, ih]

/-- The line feed is after all that the region has. -/
theorem agree_lined (r : Region) : Agree r r.lined 0 (· ≤ Text.bytes r.text) where
  toSource_eq := by
    funext n
    exact (locate_lined r.stop r.cells n).symm
  sizeAt_eq := by
    intro n _ lt
    rw [text_lined, sizeAt_append_of_lt lt]
  cutCells?_eq := by
    intro m n _ le
    exact (cutCells?_of_le le r.stop r.stop).symm

end Region

namespace Block

variable {inner : Inner} {r : Region} {n : Nat} {l l' : Line} {ls ls' : List Line}

/-- The same block, after which reading goes on at the same offset or with nothing. -/
def TakesSame (r : Region) (a b : Taken) : Prop :=
  a.1 = b.1 ∧ Resumes (Text.bytes r.text) a.2 b.2

/-! ### Leaves and quotes -/

section Lines

variable (h : Ended (Text.bytes r.text) n (l :: ls) (l' :: ls'))

include h

theorem within_of_ended {ms : List Line} (among : ms ⊆ l :: ls) :
    Within 0 (· ≤ Text.bytes r.text) ms :=
  fun m mem => ⟨Nat.zero_le _, (h.lt_of_mem m (among mem)).2⟩

theorem titled_ended {mark : HeadingMark} (kind : HeadingMark.ofLine? l.text = some mark) :
    Alike (TakesSame r) (titled r mark l) (titled r.lined mark l') := by
  have first := h.head
  have le := (h.lt_of_mem l List.mem_cons_self).2
  rw [titled_eq_of_agree r.agree_lined (Nat.zero_le _) (fun _ before => Nat.le_trans before le) kind,
    titled, titled, first.start, first.stop_eq]
  exact Alike.bind_same fun _ => Alike.bind_same fun _ => ⟨rfl, first.next⟩

theorem paragraphAt_ended :
    Alike (TakesSame r) (paragraphAt r l ls) (paragraphAt r.lined l' ls') := by
  have lines := h.cons_takeWhile (p := goesOn)
    (fun _ _ text => by rw [goesOn, goesOn, text]) (fun _ text => by rw [goesOn, text]; rfl)
  have last := Matches.getLast? lines
  have pieces := Matches.map_eq (f := fun m => (m.start + indentation m.text, m.stop)) lines
    fun _ _ start text => by rw [Line.stop, Line.stop, start, text]
  rw [paragraphAt_eq_of_agree r.agree_lined rfl
    (within_of_ended h (List.cons_subset_cons l (List.takeWhile_subset _))),
    paragraphAt_eq, paragraphAt_eq, pieces, h.head.start, last.stop_eq]
  exact Alike.bind_same fun _ => Alike.bind_same fun _ => ⟨rfl, last.next⟩

theorem quoted_ended (kind : isQuoted l = true) :
    Alike (TakesSame r) (quoted inner r l ls) (quoted inner r.lined l' ls') := by
  have lines := h.cons_takeWhile (p := isQuoted)
    (fun _ _ text => by rw [isQuoted, isQuoted, text]) (fun _ text => by rw [isQuoted, text]; rfl)
  have last := Matches.getLast? lines
  have pieces := Matches.map_eq
    (f := fun m => (min (m.start + (quoteMark? m.text).getD 0) m.stop, m.stop)) lines
    fun _ _ start text => by rw [Line.stop, Line.stop, start, text]
  have kind' : isQuoted l' = true := by rwa [isQuoted, ← h.head.text]
  rw [quoted_eq_of_agree r.agree_lined rfl kind
    (within_of_ended h (List.cons_subset_cons l (List.takeWhile_subset _))),
    quoted_eq _ _ kind, quoted_eq _ _ kind', pieces, h.head.start, last.stop_eq]
  exact Alike.bind_same fun _ => Alike.bind_same fun _ => ⟨rfl, last.next⟩

end Lines

/-! ### Fenced code -/

/-- Whether no line closes a fence and the last one is empty. -/
def RunsOut (fence : Fence) (ls : List Line) : Prop :=
  (∀ m ∈ ls, fence.closes m.text = false) ∧ ∃ last ∈ ls.getLast?, last.text = []

/-- Whether a block is fenced code that no line closes and of which the last line is empty. -/
def EndsOpen (at_ : Line × List Line) : Prop :=
  ∃ fence, Fence.open? at_.1.text = some fence ∧ RunsOut fence at_.2

/-- Fenced code with a line feed less at its end, with nothing left to read. -/
def LosesEnd (r : Region) (a b : Taken) : Prop :=
  (∃ info code span span', a.1 = .code info code span ∧ b.1 = .code info (code ++ "\n") span') ∧
    Text.bytes r.text ≤ a.2 ∧ Text.bytes r.text ≤ b.2

/-- The lines of fenced code are the same, or an empty one is added to all of them. -/
theorem fenceLines_ended {fence : Fence} {stop : Nat} (closes : fence.closes [] = false)
    (h : Ended stop n ls ls') :
    (List.Forall₂ (Matches stop) (ls.takeWhile fence.staysOpen) (ls'.takeWhile fence.staysOpen) ∧
      List.Forall₂ (Matches stop) (fenceLines fence ls) (fenceLines fence ls') ∧
        ¬ RunsOut fence ls') ∨
      RunsOut fence ls' ∧ ls' = ls ++ [⟨stop, [], .lf⟩] := by
  induction h with
  | empty => exact .inr ⟨⟨List.forall_mem_singleton.2 closes, _, rfl, rfl⟩, rfl⟩
  | @last n t nonempty ends =>
    have same : fence.staysOpen ⟨n, t, .none⟩ = fence.staysOpen ⟨n, t, .lf⟩ := rfl
    refine .inl ⟨?_, ?_, ?_⟩
    · rw [List.takeWhile_cons, List.takeWhile_cons, same]
      split
      · exact .cons (.last ends) .nil
      · exact .nil
    · unfold fenceLines
      rw [List.takeWhile_cons, List.takeWhile_cons, List.dropWhile_cons, List.dropWhile_cons, same]
      split <;> exact .cons (.last ends) .nil
    · rintro ⟨_, last, mem, empty⟩
      cases mem
      exact nonempty empty
  | @cons l ls ls' _ rest ih =>
    cases closed : fence.closes l.text with
    | true =>
      have shut : ¬ fence.staysOpen l = true := by simp [Fence.staysOpen, closed]
      refine .inl ⟨?_, ?_, ?_⟩
      · rw [List.takeWhile_cons_of_neg shut, List.takeWhile_cons_of_neg shut]
        exact .nil
      · rw [fenceLines, fenceLines, List.takeWhile_cons_of_neg shut,
          List.takeWhile_cons_of_neg shut, List.dropWhile_cons_of_neg shut,
          List.dropWhile_cons_of_neg shut]
        exact .cons (.refl stop l) .nil
      · rintro ⟨stays, -⟩
        rw [stays l List.mem_cons_self] at closed
        cases closed
    | false =>
      have open_ : fence.staysOpen l = true := by simp [Fence.staysOpen, closed]
      have last : (l :: ls').getLast? = ls'.getLast? := by
        rw [List.getLast?_cons, List.getLast?_eq_some_getLast rest.nonempty, Option.getD_some]
      have runs : RunsOut fence (l :: ls') ↔ RunsOut fence ls' := by
        rw [RunsOut, RunsOut, last, List.forall_mem_cons, and_iff_right closed]
      rw [fenceLines, fenceLines, List.takeWhile_cons_of_pos open_,
        List.takeWhile_cons_of_pos open_, List.dropWhile_cons_of_pos open_,
        List.dropWhile_cons_of_pos open_, runs]
      rcases ih with ⟨body, lines, ends⟩ | ⟨out, eq⟩
      · exact .inl ⟨.cons (.refl stop l) body, .cons (.refl stop l) lines, ends⟩
      · exact .inr ⟨out, congrArg (l :: ·) eq⟩

theorem endsOpen_iff {fence : Fence} (kind : Fence.open? l.text = some fence) :
    EndsOpen (l, ls) ↔ RunsOut fence ls := by
  constructor
  · rintro ⟨fence', kind', out⟩
    rw [kind] at kind'
    cases kind'
    exact out
  · exact fun out => ⟨fence, kind, out⟩

/-- The last of some lines at the end of a text ends it. -/
theorem next_of_suffix {s : Text} (suffix : l :: ls <:+ Line.split s) :
    ((l :: ls).getLast?.getD l).next = Text.bytes s := by
  have whole : l :: (ls ++ []) <:+ Line.split s := by rwa [List.append_nil]
  have next := Line.next_eq_add_bytes whole
  obtain ⟨before, lines⟩ := suffix
  rw [next, Line.start_of_split lines.symm, ← Text.bytes_append,
    ← Line.eq_join_append lines.symm]

/-- Fenced code that runs out is all that is left of a region. -/
theorem fenced_runsOut {fence : Fence} (suffix : l :: ls <:+ r.lines)
    (runs : RunsOut fence (ls ++ [⟨Text.bytes r.text, [], .lf⟩])) :
    LosesEnd r (fenced r fence l ls)
      (fenced r.lined fence l (ls ++ [⟨Text.bytes r.text, [], .lf⟩])) := by
  have stays : ∀ m ∈ ls ++ [⟨Text.bytes r.text, [], .lf⟩], fence.staysOpen m = true := by
    intro m mem
    rw [Fence.staysOpen, runs.1 m mem]
    rfl
  have all : ∀ {ms : List Line}, (∀ m ∈ ms, fence.staysOpen m = true) →
      ms.takeWhile fence.staysOpen = ms ∧ fenceLines fence ms = ms := by
    intro ms stays
    have taken : ms.takeWhile fence.staysOpen = ms := List.takeWhile_eq_self_iff.2 stays
    have left : ms.dropWhile fence.staysOpen = [] := List.dropWhile_eq_nil_iff.2 stays
    rw [fenceLines, taken, left]
    exact ⟨rfl, List.append_nil ms⟩
  obtain ⟨body, lines⟩ := all fun m mem => stays m (List.mem_append_left _ mem)
  obtain ⟨body', lines'⟩ := all stays
  have last : (l :: (ls ++ [⟨Text.bytes r.text, [], .lf⟩])).getLast?.getD l =
      ⟨Text.bytes r.text, [], .lf⟩ := by
    rw [← List.cons_append, List.getLast?_concat, Option.getD_some]
  rw [fenced_eq, fenced_eq, body, lines, body', lines', last, List.flatMap_append,
    String.ofList_append]
  exact ⟨⟨_, _, _, _, rfl, rfl⟩, Nat.le_of_eq (next_of_suffix suffix).symm, Nat.le_add_right ..⟩

theorem fenced_ended {fence : Fence} (kind : Fence.open? l.text = some fence)
    (suffix : l :: ls <:+ r.lines) (h : Ended (Text.bytes r.text) n (l :: ls) (l' :: ls')) :
    TakesSame r (fenced r fence l ls) (fenced r.lined fence l' ls') ∧ ¬ EndsOpen (l', ls') ∨
      LosesEnd r (fenced r fence l ls) (fenced r.lined fence l' ls') ∧ EndsOpen (l', ls') := by
  have first := h.head
  have kind' : Fence.open? l'.text = some fence := by rwa [← first.text]
  have same : List.Forall₂ (Matches (Text.bytes r.text)) (ls.takeWhile fence.staysOpen)
      (ls'.takeWhile fence.staysOpen) →
      List.Forall₂ (Matches (Text.bytes r.text)) (fenceLines fence ls) (fenceLines fence ls') →
      TakesSame r (fenced r fence l ls) (fenced r.lined fence l' ls') := by
    intro body lines
    have last := Matches.getLast? (.cons first lines)
    have code := Matches.map_eq (f := fun m => outdent fence.indent m.text ++ ['\n']) body
      fun _ _ _ text => by rw [text]
    rw [fenced_eq_of_agree r.agree_lined rfl rfl
      (within_of_ended h (List.cons_subset_cons l (fenceLines_subset fence ls))), fenced_eq,
      fenced_eq, List.flatMap_def, code, ← List.flatMap_def, first.start, last.stop_eq]
    exact ⟨rfl, last.next⟩
  rw [endsOpen_iff kind']
  cases h with
  | last _ ends =>
    refine .inl ⟨same .nil .nil, ?_⟩
    rintro ⟨_, _, mem, _⟩
    cases mem
  | cons _ rest =>
    rcases fenceLines_ended (Fence.closes_nil kind) rest with ⟨body, lines, ends⟩ | ⟨runs, rfl⟩
    · exact .inl ⟨same body lines, ends⟩
    · exact .inr ⟨fenced_runsOut suffix runs, runs⟩

/-! ### Lists -/

section Lists

variable (h : Ended (Text.bytes r.text) n (l :: ls) (l' :: ls'))

include h

theorem itemFrom_ended (mark : ListMark) :
    SameItem (Text.bytes r.text) (itemFrom mark l ls) (itemFrom mark l' ls') := by
  cases h with
  | last _ ends =>
    refine ⟨rfl, rfl, rfl, fun ordered => ?_, (Matches.last ends).next⟩
    rw [isApart_of_rest rfl, isApart_of_rest rfl]
  | cons _ rest => exact itemLines_ended rest (List.cons_ne_nil _ _) rfl

theorem itemAt_ended (mark : ListMark) :
    Alike (fun a b => a.1 = b.1 ∧ SameItem (Text.bytes r.text) a.2 b.2 ∧
        a.2.last.stop ≤ Text.bytes r.text)
      (itemAt inner r mark l ls) (itemAt inner r.lined mark l' ls') := by
  have item := itemFrom_ended h mark
  obtain ⟨chunk, lines, takes⟩ := exists_itemFrom_takes mark l ls
  have le : ∀ m ∈ l :: ls, m.stop ≤ Text.bytes r.text := fun m mem => (h.lt_of_mem m mem).2
  rw [lines, ← List.cons_append] at le
  have content : itemContent r mark l ls = itemContent r.lined mark l' ls' := by
    rw [itemContent, itemContent, ← item.pieces]
    refine gather_eq_of_agree r.agree_lined fun p mem => ⟨Nat.zero_le _, ?_⟩
    obtain ⟨m, among, -, before⟩ := takes.exists_line mem
    exact Nat.le_trans before (le m (List.mem_append_left _ among))
  have last : (itemFrom mark l ls).last.stop ≤ Text.bytes r.text :=
    le _ (List.mem_append_left _ takes.last_mem)
  rw [itemAt_eq, itemAt_eq, ← content]
  dsimp only
  rw [r.agree_lined.span_eq (Nat.zero_le _) last, h.head.start, item.last]
  exact Alike.bind_same fun _ => Alike.bind_same fun _ => ⟨rfl, item, last⟩

end Lists

/-- The same items, after which reading goes on at the same offset or with nothing. -/
structure TakesItems (r : Region) (a b : Items) : Prop where
  items : a.items = b.items
  tight : a.tight = b.tight
  stop : a.stop = b.stop
  le : a.stop ≤ Text.bytes r.text
  resume : Resumes (Text.bytes r.text) a.resume b.resume

/-- A line is passed over in both. -/
theorem passed_iff (h : Ended (Text.bytes r.text) n (l :: ls) (l' :: ls')) {resume resume' : Nat}
    (resumes : Resumes (Text.bytes r.text) resume resume') :
    l.start < resume ↔ l'.start < resume' := by
  have lt := (h.lt_of_mem l List.mem_cons_self).1
  rw [← h.head.start]
  rcases resumes with rfl | ⟨le, le'⟩
  · exact Iff.rfl
  · omega

theorem itemsFrom_cons_ended (h : Ended (Text.bytes r.text) n (l :: ls) (l' :: ls'))
    {ordered : Bool}
    (rest : ∀ {stop resume resume' : Nat}, stop ≤ Text.bytes r.text →
      Resumes (Text.bytes r.text) resume resume' →
        Alike (TakesItems r) (itemsFrom inner r ordered stop resume ls)
          (itemsFrom inner r.lined ordered stop resume' ls'))
    {stop resume resume' : Nat} (le : stop ≤ Text.bytes r.text)
    (resumes : Resumes (Text.bytes r.text) resume resume') :
    Alike (TakesItems r) (itemsFrom inner r ordered stop resume (l :: ls))
      (itemsFrom inner r.lined ordered stop resume' (l' :: ls')) := by
  rw [itemsFrom, itemsFrom, ← h.head.text]
  by_cases passed : l.start < resume
  · rw [if_pos passed, if_pos ((passed_iff h resumes).1 passed)]
    exact rest le resumes
  · rw [if_neg passed, if_neg (mt (passed_iff h resumes).2 passed)]
    cases itemMark? ordered l.text with
    | none => exact ⟨rfl, rfl, rfl, le, resumes⟩
    | some mark =>
      refine (itemAt_ended h mark).bind ?_
      rintro ⟨item, lines⟩ ⟨_, lines'⟩ ⟨rfl, same, last⟩
      dsimp only at same last ⊢
      rw [← same.last, ← same.loose, ← same.apart]
      refine (rest last same.resume).bind fun more more' items => ?_
      exact ⟨congrArg (item :: ·) items.items, congrArg (_ && ·) items.tight, items.stop, items.le,
        items.resume⟩

theorem itemsFrom_ended (h : Ended (Text.bytes r.text) n ls ls') {ordered : Bool}
    {stop resume resume' : Nat} (le : stop ≤ Text.bytes r.text)
    (resumes : Resumes (Text.bytes r.text) resume resume') :
    Alike (TakesItems r) (itemsFrom inner r ordered stop resume ls)
      (itemsFrom inner r.lined ordered stop resume' ls') := by
  induction h generalizing stop resume resume' with
  | empty =>
    have lined : itemsFrom inner r.lined ordered stop resume' [⟨Text.bytes r.text, [], .lf⟩] =
        .ok { items := [], tight := true, stop, resume := resume' } := by
      rw [itemsFrom]
      split <;> rfl
    rw [lined]
    exact ⟨rfl, rfl, rfl, le, resumes⟩
  | last nonempty ends =>
    exact itemsFrom_cons_ended (.last nonempty ends)
      (fun le resumes => ⟨rfl, rfl, rfl, le, resumes⟩) le resumes
  | cons lt rest ih => exact itemsFrom_cons_ended (.cons lt rest) ih le resumes

theorem listed_ended (h : Ended (Text.bytes r.text) n (l :: ls) (l' :: ls')) (mark : ListMark) :
    Alike (TakesSame r) (listed inner r mark l ls) (listed inner r.lined mark l' ls') := by
  have le := (h.lt_of_mem l List.mem_cons_self).2
  unfold listed
  rw [← h.head.start, ← h.head.stop_eq]
  refine (itemsFrom_ended h le (.inl rfl)).bind fun items items' same => ⟨?_, same.resume⟩
  dsimp only
  rw [r.agree_lined.span_eq (Nat.zero_le _) same.le, same.items, same.tight, same.stop]

/-! ### Widgets -/

section Widgets

variable (h : Ended (Text.bytes r.text) n (l :: ls) (l' :: ls'))

include h

/-- The text from the opening tag on has a line feed more. -/
theorem tagSource_ended : (Line.join (l' :: ls')).drop (indentation l'.text) =
    (Line.join (l :: ls)).drop (indentation l.text) ++ ['\n'] := by
  have le : indentation l.text ≤ (Line.join (l :: ls)).length := by
    rw [Line.join_cons, Line.raw, List.append_assoc, List.length_append]
    exact Nat.le_add_right_of_le (List.takeWhile_sublist _).length_le
  rw [← h.head.text, h.join_eq, List.drop_append_of_le_length le]

theorem textFrom_ended (suffix : l :: ls <:+ r.lines) {m : Nat} (le : m ≤ Text.bytes r.text) :
    textFrom l' ls' m = textFrom l ls m ++ ['\n'] := by
  obtain ⟨before, text, size⟩ := exists_before_tag suffix
  have total := congrArg Text.bytes text
  rw [Text.bytes_append] at total
  rw [textFrom, textFrom, tagSource_ended h, ← h.head.text, ← h.head.start]
  exact Text.dropBytes_append_of_le (by omega)

theorem closeOf?_ended (cr : '\r' ∉ r.text) (suffix : l :: ls <:+ r.lines) {tag : OpenTag}
    (fits : tag.Fits r.text (l.start + indentation l.text)) :
    closeOf? tag l' ls' = closeOf? tag l ls := by
  have le := Text.le_bytes_of_isBoundary fits.closes.isCut.stop
  obtain ⟨before, text, size⟩ := exists_before_tag suffix
  have inside : '\r' ∉ textFrom l ls tag.stop := by
    intro mem
    refine cr ?_
    rw [text]
    refine List.mem_append_right _ ?_
    rw [← Text.takeBytes_append_dropBytes ((Line.join (l :: ls)).drop (indentation l.text))]
    exact List.mem_append_right _ mem
  rw [closeOf?, closeOf?, textFrom_ended h suffix le]
  exact ClosingTag.find?_append_eol (eol_not_mem_name fits.name) inside false

theorem widgetAt_ended (cr : '\r' ∉ r.text) (suffix : l :: ls <:+ r.lines)
    (kind : isWidgetStart l.text = true) :
    Alike (TakesSame r) (widgetAt inner r l ls) (widgetAt inner r.lined l' ls') := by
  have first := h.head
  have agree := r.agree_lined
  have source := OpenTag.read_append_eol (l.start + indentation l.text)
    ((Line.join (l :: ls)).drop (indentation l.text))
  rw [← tagSource_ended h] at source
  have at_eq : l'.start + indentation l'.text = l.start + indentation l.text := by
    rw [first.start, first.text]
  rw [widgetAt_eq, widgetAt_eq, tagAt, tagAt, at_eq]
  obtain ⟨e, e', failed, failed'⟩ | ⟨tag, _, opened', opened, rfl⟩ := source.cases
  · rw [failed, failed']
    trivial
  · rw [opened, opened']
    dsimp only
    obtain ⟨-, outcome⟩ := widgetTag_outcome suffix kind
    rw [opened] at outcome
    have fits : tag.Fits r.text (l.start + indentation l.text) := outcome
    have tag_le := Text.le_bytes_of_isBoundary fits.closes.isCut.stop
    have close := closeOf?_ended h cr suffix fits
    have body : bodyOf inner r (l.start + indentation l.text) tag (textFrom l ls tag.stop) =
        bodyOf inner r.lined (l.start + indentation l.text) tag (textFrom l' ls' tag.stop) :=
      bodyOf_eq_of_agree agree (Nat.zero_le _)
        (fun _ _ found => Text.le_bytes_of_isBoundary (isCut_of_tags suffix opened found).stop)
        fun _ => close
    rw [← body]
    cases ended : widgetStop? tag l ls with
    | none =>
      rw [bodyOf_unclosed ended]
      trivial
    | some stop =>
      have encloses := encloses_of_widgetStop? suffix kind opened ended
      have stop_le := Text.le_bytes_of_isBoundary encloses.closes.isCut.stop
      have tail : tailAt l' ls' stop = tailAt l ls stop := by
        rw [tailAt, tailAt, textFrom_ended h suffix stop_le, Text.takeWhile_append_eol (by decide)]
      have outcome := bodyOf_stop inner r (l.start + indentation l.text) ended
      cases read : bodyOf inner r (l.start + indentation l.text) tag (textFrom l ls tag.stop) with
      | error halt => trivial
      | ok result =>
        obtain ⟨children, stop'⟩ := result
        rw [read] at outcome
        obtain rfl : stop' = stop := outcome
        have same := tagIn_eq_of_agree agree (Nat.zero_le _) fits
          (fun m le => Nat.le_trans le tag_le) stop_le
        show Alike (TakesSame r) (if _ then _ else _) (if _ then _ else _)
        rw [tail, same]
        split
        · exact ⟨rfl, .inl rfl⟩
        · split
          · exact paragraphAt_ended h
          · trivial

end Widgets

/-! ### Regions -/

variable (inner) in
/-- The block at a line is the same, unless it is fenced code that loses its end. -/
theorem blockAt_ended (cr : '\r' ∉ r.text) (suffix : l :: ls <:+ r.lines)
    (h : Ended (Text.bytes r.text) n (l :: ls) (l' :: ls')) :
    Alike (fun a b => TakesSame r a b ∧ ¬ EndsOpen (l', ls') ∨ LosesEnd r a b ∧ EndsOpen (l', ls'))
      (blockAt inner r l ls) (blockAt inner r.lined l' ls') := by
  have first := h.head
  have fits := opening_fits l.text
  have plain : ∀ {x y : Except Halt Taken}, Alike (TakesSame r) x y →
      (∀ fence, opening l.text ≠ .fence fence) →
        Alike (fun a b => TakesSame r a b ∧ ¬ EndsOpen (l', ls') ∨
          LosesEnd r a b ∧ EndsOpen (l', ls')) x y := by
    intro x y same other
    refine same.mono fun a b same => .inl ⟨same, ?_⟩
    rintro ⟨fence, kind, -⟩
    rw [← first.text] at kind
    exact other fence (by rw [opening, kind])
  rw [blockAt_eq, blockAt_eq, ← first.text]
  cases kind : opening l.text with
  | fence fence =>
    rw [kind] at fits
    exact fenced_ended fits suffix h
  | heading mark =>
    exact plain (titled_ended h (ofLine?_of_opening_heading kind)) (by simp [kind])
  | thematicBreak =>
    have le := (h.lt_of_mem l List.mem_cons_self).2
    refine plain ⟨?_, first.next⟩ (by simp [kind])
    dsimp only
    rw [r.agree_lined.span_eq (Nat.zero_le _) le, first.start, first.stop_eq]
  | quote =>
    rw [kind] at fits
    exact plain (quoted_ended h fits) (by simp [kind])
  | list mark => exact plain (listed_ended h mark) (by simp [kind])
  | widget =>
    rw [kind] at fits
    exact plain (widgetAt_ended h cr suffix fits) (by simp [kind])
  | closingTag name => trivial
  | paragraph => exact plain (paragraphAt_ended h) (by simp [kind])

/-- The blocks without the last line feed of the last one. -/
def LoseEnd (bs bs' : List Block) : Prop :=
  ∃ init info code span span', bs = init ++ [.code info code span] ∧
    bs' = init ++ [.code info (code ++ "\n") span']

/-- Whether the last block is fenced code that no line closes and of which the last line is
empty. -/
def AnyEndsOpen (starts : List (Line × List Line)) : Prop := ∃ at_ ∈ starts, EndsOpen at_

/-- The blocks are the same, unless the last one is fenced code that loses its end. -/
def SameButEnd (starts : List (Line × List Line)) (bs bs' : List Block) : Prop :=
  bs = bs' ∧ ¬ AnyEndsOpen starts ∨ LoseEnd bs bs' ∧ AnyEndsOpen starts

theorem SameButEnd.cons {at_ : Line × List Line} {starts : List (Line × List Line)}
    {bs bs' : List Block} (h : SameButEnd starts bs bs') (ends : ¬ EndsOpen at_) (b : Block) :
    SameButEnd (at_ :: starts) (b :: bs) (b :: bs') := by
  have any : AnyEndsOpen (at_ :: starts) ↔ AnyEndsOpen starts := by
    simp [AnyEndsOpen, ends]
  rw [SameButEnd, any]
  rcases h with ⟨rfl, none⟩ | ⟨⟨init, info, code, span, span', rfl, rfl⟩, some⟩
  · exact .inl ⟨rfl, none⟩
  · exact .inr ⟨⟨b :: init, info, code, span, span', rfl, rfl⟩, some⟩

variable (inner r) in
/-- Lines that are passed over or empty make no blocks. -/
theorem blocksFrom_of_end {resume : Nat} (past : ∀ m ∈ ls, m.start < resume ∨ m.text = []) :
    blocksFrom inner r [] resume ls = .ok [] ∧ starts inner r [] resume ls = [] := by
  induction ls with
  | nil => exact ⟨rfl, rfl⟩
  | cons l ls ih =>
    rw [List.forall_mem_cons] at past
    rw [blocksFrom, starts, List.find?_nil]
    by_cases passed : l.start < resume
    · rw [if_pos passed, if_pos passed]
      exact ih past.2
    · have blank : Text.isBlank l.text = true := by
        rw [past.1.resolve_left passed]
        rfl
      rw [if_neg passed, if_neg passed]
      dsimp only
      rw [if_pos blank, if_pos blank]
      exact ih past.2

theorem blocksFrom_cons_ended (cr : '\r' ∉ r.text) (suffix : l :: ls <:+ r.lines)
    (h : Ended (Text.bytes r.text) n (l :: ls) (l' :: ls'))
    (rest : ∀ {resume resume' : Nat}, Resumes (Text.bytes r.text) resume resume' →
      Alike (SameButEnd (starts inner r.lined [] resume' ls')) (blocksFrom inner r [] resume ls)
        (blocksFrom inner r.lined [] resume' ls'))
    {resume resume' : Nat} (resumes : Resumes (Text.bytes r.text) resume resume') :
    Alike (SameButEnd (starts inner r.lined [] resume' (l' :: ls')))
      (blocksFrom inner r [] resume (l :: ls)) (blocksFrom inner r.lined [] resume' (l' :: ls')) := by
  rw [blocksFrom, blocksFrom, starts, ← h.head.text]
  by_cases passed : l.start < resume
  · rw [if_pos passed, if_pos ((passed_iff h resumes).1 passed),
      if_pos ((passed_iff h resumes).1 passed)]
    exact rest resumes
  · have reached := mt (passed_iff h resumes).2 passed
    rw [if_neg passed, if_neg reached, if_neg reached, List.find?_nil, List.find?_nil]
    dsimp only
    by_cases blank : Text.isBlank l.text = true
    · rw [if_pos blank, if_pos blank, if_pos blank]
      exact rest resumes
    · rw [if_neg blank, if_neg blank, if_neg blank]
      obtain ⟨e, e', failed, failed'⟩ | ⟨⟨block, next⟩, ⟨block', next'⟩, read, read', same⟩ :=
        (blockAt_ended inner cr suffix h).cases
      · rw [failed, failed']
        trivial
      · rw [read, read']
        dsimp only
        rcases same with ⟨⟨rfl, resumes'⟩, ends⟩ | ⟨⟨⟨info, code, span, span', rfl, rfl⟩, le, le'⟩, open_⟩
        · exact (rest resumes').bind fun bs bs' same => same.cons ends block
        · have nothing : ∀ m ∈ ls, m.start < next ∨ m.text = [] := fun m mem =>
            .inl (Nat.lt_of_lt_of_le (h.lt_of_mem m (List.mem_cons_of_mem l mem)).1 le)
          have nothing' : ∀ m ∈ ls', m.start < next' ∨ m.text = [] := fun m mem =>
            (h.lt_or_empty_of_mem m (List.mem_cons_of_mem l' mem)).imp_left
              (Nat.lt_of_lt_of_le · le')
          show Alike _ (blocksFrom inner r [] next ls >>= _)
            (blocksFrom inner r.lined [] next' ls' >>= _)
          rw [(blocksFrom_of_end inner r nothing).1, (blocksFrom_of_end inner r.lined nothing').1]
          exact .inr ⟨⟨[], info, code, span, span', rfl, rfl⟩, _, List.mem_cons_self, open_⟩

theorem blocksFrom_ended (cr : '\r' ∉ r.text) (suffix : ls <:+ r.lines)
    (h : Ended (Text.bytes r.text) n ls ls') {resume resume' : Nat}
    (resumes : Resumes (Text.bytes r.text) resume resume') :
    Alike (SameButEnd (starts inner r.lined [] resume' ls')) (blocksFrom inner r [] resume ls)
      (blocksFrom inner r.lined [] resume' ls') := by
  have nothing : ¬ AnyEndsOpen [] := by
    rintro ⟨_, mem, _⟩
    cases mem
  induction h generalizing resume resume' with
  | empty =>
    have past : ∀ m ∈ [⟨Text.bytes r.text, [], .lf⟩], Line.start m < resume' ∨ m.text = [] :=
      List.forall_mem_singleton.2 (.inr rfl)
    obtain ⟨blocks, starts⟩ := blocksFrom_of_end inner r.lined past
    rw [blocks, starts]
    exact .inl ⟨rfl, nothing⟩
  | last nonempty ends =>
    exact blocksFrom_cons_ended cr suffix (.last nonempty ends)
      (fun _ => .inl ⟨rfl, nothing⟩) resumes
  | cons lt rest ih =>
    exact blocksFrom_cons_ended cr suffix (.cons lt rest)
      (ih ((List.suffix_cons _ _).trans suffix)) resumes

/-- A line feed more at the end of a region changes its last block at most. -/
theorem parse_lined (cr : '\r' ∉ r.text) (levels : Nat) :
    Alike (SameButEnd (starts (parse levels []) r.lined [] 0 r.lined.lines))
      (parse (levels + 1) [] r) (parse (levels + 1) [] r.lined) := by
  have ended := Line.ended_split cr
  rw [← Region.text_lined] at ended
  exact blocksFrom_ended cr (List.suffix_refl _) ended (.inl rfl)

end Block
end Folio
