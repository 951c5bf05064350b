import Folio.Proofs.Markup.ContainerSpans
import Folio.Proofs.Markup.Scan
import Folio.Proofs.Region.Agree

/-!
# Blocks of regions that agree

A block is made of what lies between its first line and its last one, so that it is the same in
regions that agree there. Leaves and quotes look at no other lines; lists and widgets look ahead, so
for these the regions agree up to the end. Main statements:

* `Block.fenced_eq_of_agree`, `Block.titled_eq_of_agree`, `Block.paragraphAt_eq_of_agree` and
  `Block.quoted_eq_of_agree`;
* `Block.listed_eq_of_agree`, `Block.widgetAt_eq_of_agree` and `Block.blocksFrom_eq_of_agree`.
-/

namespace Folio
namespace Block

variable {inner : Inner} {r r' : Region} {l : Line} {ls ls' : List Line} {start : Nat}
  {ends : Nat → Prop}

/-- Lines of a part where regions agree. -/
def Within (start : Nat) (ends : Nat → Prop) (ls : List Line) : Prop :=
  ∀ m ∈ ls, start ≤ m.start ∧ ends m.stop

/-- Beginnings of lines left out, what is gathered from lines is the same. -/
theorem gather_lines_eq_of_agree (agree : Region.Agree r r' start ends)
    (within : Within start ends ls) (from_ : Line → Nat) (le : ∀ m, m.start ≤ from_ m) :
    gather r (ls.map fun m => (from_ m, m.stop)) = gather r' (ls.map fun m => (from_ m, m.stop)) := by
  refine gather_eq_of_agree agree ?_
  intro p mem
  obtain ⟨m, m_mem, rfl⟩ := List.mem_map.1 mem
  exact ⟨Nat.le_trans (within m m_mem).1 (le m), (within m m_mem).2⟩

theorem mem_of_getLast?_getD (l : Line) (ls : List Line) :
    (l :: ls).getLast?.getD l ∈ l :: ls := by
  obtain ⟨last, last_eq⟩ : ∃ last, (l :: ls).getLast? = some last :=
    Option.isSome_iff_exists.1 (by simp)
  rw [last_eq, Option.getD_some]
  exact List.mem_of_getLast? last_eq

/-! ### Leaves and quotes -/

theorem titled_eq_of_agree {mark : HeadingMark} (agree : Region.Agree r r' start ends)
    (le : start ≤ l.start) (within : ∀ n ≤ l.stop, ends n)
    (kind : HeadingMark.ofLine? l.text = some mark) : titled r mark l = titled r' mark l := by
  have stop : l.start + mark.stop ≤ l.stop := by
    have := Text.le_bytes_of_isBoundary (HeadingMark.isCut_of_ofLine? kind).stop
    rw [Line.stop]
    omega
  rw [titled, titled, slice_eq_of_agree agree (by omega) (within _ stop),
    agree.span_eq le (within _ (Nat.le_refl l.stop))]

/-- Whether a paragraph goes on with a line. -/
def goesOn (m : Line) : Bool := !(Text.isBlank m.text || startsBlock m.text)

/-- Whether a line has a quote mark. -/
def isQuoted (m : Line) : Bool := (quoteMark? m.text).isSome

theorem paragraphAt_eq (r : Region) (l : Line) (ls : List Line) :
    paragraphAt r l ls = (do
      let content ← gather r
        ((l :: ls.takeWhile goesOn).map fun m => (m.start + indentation m.text, m.stop))
      return (.paragraph (← inlines content)
        (r.span l.start ((l :: ls.takeWhile goesOn).getLast?.getD l).stop),
        ((l :: ls.takeWhile goesOn).getLast?.getD l).next)) := rfl

theorem paragraphAt_eq_of_agree (agree : Region.Agree r r' start ends)
    (same : ls'.takeWhile goesOn = ls.takeWhile goesOn)
    (within : Within start ends (l :: ls.takeWhile goesOn)) :
    paragraphAt r l ls = paragraphAt r' l ls' := by
  have le : start ≤ l.start := (within l List.mem_cons_self).1
  have stop := (within _ (mem_of_getLast?_getD l _)).2
  rw [paragraphAt_eq, paragraphAt_eq, same, agree.span_eq le stop,
    gather_lines_eq_of_agree agree within _ fun m => Nat.le_add_right ..]

/-- The first line of a quote is one of its lines. -/
theorem quoted_eq (r : Region) (ls : List Line) (kind : isQuoted l = true) :
    quoted inner r l ls = (do
      let content ← gather r ((l :: ls.takeWhile isQuoted).map fun m =>
        (min (m.start + (quoteMark? m.text).getD 0) m.stop, m.stop))
      return (.quote (← inner content)
        (r.span l.start ((l :: ls.takeWhile isQuoted).getLast?.getD l).stop),
        ((l :: ls.takeWhile isQuoted).getLast?.getD l).next)) := by
  rw [← List.takeWhile_cons_of_pos kind]
  rfl

theorem quoted_eq_of_agree (agree : Region.Agree r r' start ends)
    (same : ls'.takeWhile isQuoted = ls.takeWhile isQuoted) (kind : isQuoted l = true)
    (within : Within start ends (l :: ls.takeWhile isQuoted)) :
    quoted inner r l ls = quoted inner r' l ls' := by
  have le : start ≤ l.start := (within l List.mem_cons_self).1
  have stop := (within _ (mem_of_getLast?_getD l _)).2
  rw [quoted_eq r ls kind, quoted_eq r' ls' kind, same, agree.span_eq le stop,
    gather_lines_eq_of_agree agree within]
  exact fun m => Nat.le_min.2 ⟨Nat.le_add_right .., m.le_stop⟩

/-- A fenced block ends with its last line. -/
theorem fenced_eq (r : Region) (fence : Fence) (l : Line) (ls : List Line) :
    fenced r fence l ls =
      (.code fence.info (String.ofList ((ls.takeWhile fence.staysOpen).flatMap
          fun m => outdent fence.indent m.text ++ ['\n']))
        (r.span l.start ((l :: fenceLines fence ls).getLast?.getD l).stop),
      ((l :: fenceLines fence ls).getLast?.getD l).next) := by
  have lines : ls = ls.takeWhile fence.staysOpen ++ ls.dropWhile fence.staysOpen :=
    List.takeWhile_append_dropWhile.symm
  have after : (l :: ls).drop ((ls.takeWhile fence.staysOpen).length + 1) =
      ls.dropWhile fence.staysOpen := by
    conv_lhs =>
      rw [List.drop_succ_cons]
      arg 2
      rw [lines]
    exact List.drop_left
  have last : ((l :: ls).drop ((ls.takeWhile fence.staysOpen).length + 1)).head?.getD
      ((ls.takeWhile fence.staysOpen).getLast?.getD l) =
        (l :: fenceLines fence ls).getLast?.getD l := by
    rw [after, fenceLines]
    cases ls.dropWhile fence.staysOpen with
    | nil => simp [List.getLast?_cons]
    | cons close after => simp [List.getLast?_cons]
  rw [← last]
  rfl

theorem fenced_eq_of_agree {fence : Fence} (agree : Region.Agree r r' start ends)
    (body : ls'.takeWhile fence.staysOpen = ls.takeWhile fence.staysOpen)
    (same : fenceLines fence ls' = fenceLines fence ls)
    (within : Within start ends (l :: fenceLines fence ls)) :
    fenced r fence l ls = fenced r' fence l ls' := by
  have le : start ≤ l.start := (within l List.mem_cons_self).1
  have stop := (within _ (mem_of_getLast?_getD l _)).2
  rw [fenced_eq, fenced_eq, body, same, agree.span_eq le stop]

/-! ### Parts of widgets -/

/-- The body of a widget depends on its tags and on what is between them. -/
theorem bodyOf_eq_of_agree {at_ : Nat} {tag : OpenTag} {s s' : Text}
    (agree : Region.Agree r r' start ends) (le : start ≤ tag.stop)
    (within : tag.selfClosing = false → ∀ close,
      ClosingTag.find? tag.name.toList false tag.stop s = some close → ends close.start)
    (same : tag.selfClosing = false → ClosingTag.find? tag.name.toList false tag.stop s' =
      ClosingTag.find? tag.name.toList false tag.stop s) :
    bodyOf inner r at_ tag s = bodyOf inner r' at_ tag s' := by
  unfold bodyOf
  by_cases selfClosing : tag.selfClosing = true
  · rw [if_pos selfClosing, if_pos selfClosing]
  · rw [if_neg selfClosing, if_neg selfClosing, same (Bool.not_eq_true _ ▸ selfClosing)]
    rw [Bool.not_eq_true] at selfClosing
    cases found : ClosingTag.find? tag.name.toList false tag.stop s with
    | none => rw [agree.toSource_eq]
    | some close =>
      dsimp only
      rw [slice_eq_of_agree agree le (within selfClosing close found)]

theorem tagIn_eq_of_agree {s : Text} {tag : OpenTag} {at_ stop : Nat}
    (agree : Region.Agree r r' start ends) (le : start ≤ at_) (fits : tag.Fits s at_)
    (within : ∀ n ≤ tag.stop, ends n) (ends_stop : ends stop) :
    Inline.tagIn r tag at_ stop = Inline.tagIn r' tag at_ stop := by
  unfold Inline.tagIn
  rw [agree.span_eq le ends_stop]
  congr 1
  refine List.map_congr_left fun p mem => ?_
  have prop := fits.props p mem
  rw [agree.span_eq (Nat.le_trans le prop.start) (within _ prop.stop)]

/-! ### The lines of an item -/

section Items

variable {m : Line} {column : Nat} {item item' : ItemLines}

/-- An item with a line more, if it takes the line. -/
def takeLine? (column : Nat) (item : ItemLines) (l : Line) : Option ItemLines :=
  if Text.isBlank l.text then
    some { item with
      pieces := (l.start, l.start) :: item.pieces, blanksAfter := true, resume := l.next }
  else if column ≤ indentation l.text then
    some { item with
      pieces := (l.start + column, l.stop) :: item.pieces, last := l
      loose := item.loose || item.blanksAfter, blanksAfter := false, resume := l.next }
  else if !item.blanksAfter && !startsBlock l.text then
    some { item with
      pieces := (l.start + indentation l.text, l.stop) :: item.pieces, last := l, resume := l.next }
  else none

theorem itemLines_cons (column : Nat) (item : ItemLines) (l : Line) (ls : List Line) :
    itemLines column item (l :: ls) =
      match takeLine? column item l with
      | some item' => itemLines column item' ls
      | none => { item with rest := l :: ls } := by
  rw [itemLines, takeLine?]
  split
  · rfl
  · split
    · rfl
    · split <;> rfl

/-- What an item takes of a line. -/
theorem of_takeLine? (taken : takeLine? column item m = some item') :
    (∃ piece, item'.pieces = piece :: item.pieces ∧ m.start ≤ piece.1 ∧ piece.2 ≤ m.stop) ∧
      (item'.last = item.last ∨ item'.last = m ∧ Text.isBlank m.text = false) ∧
      item'.resume = m.next := by
  unfold takeLine? at taken
  split at taken
  · cases taken
    exact ⟨⟨_, rfl, Nat.le_refl _, m.le_stop⟩, .inl rfl, rfl⟩
  · rename_i filled
    rw [Bool.not_eq_true] at filled
    split at taken
    · cases taken
      exact ⟨⟨_, rfl, Nat.le_add_right .., Nat.le_refl _⟩, .inr ⟨rfl, filled⟩, rfl⟩
    · split at taken
      · cases taken
        exact ⟨⟨_, rfl, Nat.le_add_right .., Nat.le_refl _⟩, .inr ⟨rfl, filled⟩, rfl⟩
      · cases taken

/-- An item takes lines one after another, up to one that it does not take. -/
inductive ItemRun (column : Nat) : ItemLines → List Line → ItemLines → Prop
  | stop {item : ItemLines} {rest : List Line}
      (stops : ∀ m ∈ rest.head?, takeLine? column item m = none) :
      ItemRun column item [] { item with rest }
  | cons {item item' done : ItemLines} {m : Line} {chunk : List Line}
      (step : takeLine? column item m = some item') (run : ItemRun column item' chunk done) :
      ItemRun column item (m :: chunk) done

theorem exists_itemRun (column : Nat) (item : ItemLines) (ls : List Line) :
    ∃ chunk, ls = chunk ++ (itemLines column item ls).rest ∧
      ItemRun column item chunk (itemLines column item ls) := by
  induction ls generalizing item with
  | nil => exact ⟨[], rfl, .stop nofun⟩
  | cons m ls ih =>
    rw [itemLines_cons]
    cases step : takeLine? column item m with
    | none =>
      refine ⟨[], rfl, .stop ?_⟩
      rintro m ⟨⟩
      exact step
    | some item' =>
      obtain ⟨chunk, lines, run⟩ := ih item'
      exact ⟨m :: chunk, congrArg (m :: ·) lines, .cons step run⟩

theorem itemRun_of_append {chunk : List Line}
    (lines : ls = chunk ++ (itemLines column item ls).rest) :
    ItemRun column item chunk (itemLines column item ls) := by
  obtain ⟨chunk', lines', run⟩ := exists_itemRun column item ls
  obtain rfl := List.append_cancel_right (lines.symm.trans lines')
  exact run

/-- What an item takes from the lines after `l`. -/
structure Takes (item item' : ItemLines) (l : Line) (chunk : List Line) : Prop where
  pieces : ∀ p ∈ item'.pieces, p ∈ item.pieces ∨ ∃ m ∈ chunk, m.start ≤ p.1 ∧ p.2 ≤ m.stop
  last : item'.last = item.last ∨ item'.last ∈ chunk ∧ Text.isBlank item'.last.text = false
  resume : item'.resume = ((l :: chunk).getLast?.getD l).next

theorem ItemRun.takes {chunk : List Line} (run : ItemRun column item chunk item')
    (resume : item.resume = l.next) : Takes item item' l chunk := by
  induction run generalizing l with
  | stop => exact ⟨fun p mem => .inl mem, .inl rfl, resume⟩
  | @cons item item' done m chunk step _ ih =>
    obtain ⟨⟨piece, pieces_eq, ge, le⟩, latest, resume'⟩ := of_takeLine? step
    have takes := ih resume'
    refine ⟨fun p mem => ?_, ?_, ?_⟩
    · rcases takes.pieces p mem with before | ⟨m', mem', within⟩
      · rw [pieces_eq] at before
        rcases List.mem_cons.1 before with rfl | before
        · exact .inr ⟨m, List.mem_cons_self, ge, le⟩
        · exact .inl before
      · exact .inr ⟨m', List.mem_cons_of_mem m mem', within⟩
    · rcases takes.last with eq | ⟨mem, filled⟩
      · rw [eq]
        rcases latest with same | ⟨same, filled⟩
        · exact .inl same
        · exact .inr ⟨same ▸ List.mem_cons_self, same ▸ filled⟩
      · exact .inr ⟨List.mem_cons_of_mem m mem, filled⟩
    · rw [takes.resume, List.getLast?_cons, List.getLast?_cons, List.getLast?_cons]
      rfl

/-- An item takes the lines before those that are left. -/
theorem exists_itemFrom_takes (mark : ListMark) (l : Line) (ls : List Line) :
    ∃ chunk, ls = chunk ++ (itemFrom mark l ls).rest ∧
      Takes (itemFrom mark l []) (itemFrom mark l ls) l chunk := by
  obtain ⟨chunk, lines, run⟩ := exists_itemRun mark.content (itemFrom mark l []) ls
  exact ⟨chunk, lines, run.takes rfl⟩

variable {mark : ListMark} {chunk : List Line} (takes : Takes (itemFrom mark l []) item l chunk)

include takes

/-- Each piece of an item lies in one of its lines. -/
theorem Takes.exists_line {p : Nat × Nat} (mem : p ∈ (dropEmpty item.pieces).reverse) :
    ∃ m ∈ l :: chunk, m.start ≤ p.1 ∧ p.2 ≤ m.stop := by
  rcases takes.pieces p (mem_of_mem_dropEmpty (List.mem_reverse.1 mem)) with
    first | ⟨m, among, within⟩
  · rw [List.mem_singleton.1 first]
    exact ⟨l, List.mem_cons_self, Nat.le_min.2 ⟨Nat.le_add_right .., l.le_stop⟩, Nat.le_refl _⟩
  · exact ⟨m, List.mem_cons_of_mem l among, within⟩

/-- The last line of an item that is not blank is one of its lines. -/
theorem Takes.last_mem : item.last ∈ l :: chunk := by
  rcases takes.last with eq | ⟨among, -⟩
  · rw [eq]
    exact List.mem_cons_self
  · exact List.mem_cons_of_mem l among

theorem Takes.last_filled (filled : Text.isBlank l.text = false) :
    Text.isBlank item.last.text = false := by
  rcases takes.last with eq | ⟨-, last_filled⟩
  · rw [eq]
    exact filled
  · exact last_filled

end Items

/-! ### Lists -/

section Open

variable (agree : Region.Agree r r' start fun _ => True)

include agree

theorem itemAt_eq_of_agree {mark : ListMark} (starts : ∀ m ∈ l :: ls, start ≤ m.start) :
    itemAt inner r mark l ls = itemAt inner r' mark l ls := by
  obtain ⟨chunk, lines, takes⟩ := exists_itemFrom_takes mark l ls
  have content : itemContent r mark l ls = itemContent r' mark l ls := by
    refine gather_eq_of_agree agree fun p mem => ⟨?_, trivial⟩
    obtain ⟨m, among, ge, -⟩ := takes.exists_line mem
    rw [lines, ← List.cons_append] at starts
    exact Nat.le_trans (starts m (List.mem_append_left _ among)) ge
  rw [itemAt_eq, itemAt_eq, content]
  dsimp only
  rw [agree.span_eq (starts l List.mem_cons_self) trivial]

theorem itemsFrom_eq_of_agree {ordered : Bool} {stop resume : Nat}
    (starts : ∀ m ∈ ls, start ≤ m.start) :
    itemsFrom inner r ordered stop resume ls = itemsFrom inner r' ordered stop resume ls := by
  induction ls generalizing stop resume with
  | nil => rfl
  | cons l ls ih =>
    have later : ∀ m ∈ ls, start ≤ m.start := fun m mem => starts m (List.mem_cons_of_mem l mem)
    rw [itemsFrom, itemsFrom]
    split
    · exact ih later
    · split
      · rfl
      · rw [itemAt_eq_of_agree agree starts]
        refine bind_congr ?_
        rintro ⟨item, lines⟩
        dsimp only
        rw [ih later]

theorem listed_eq_of_agree {mark : ListMark} (starts : ∀ m ∈ l :: ls, start ≤ m.start) :
    listed inner r mark l ls = listed inner r' mark l ls := by
  have le : start ≤ l.start := starts l List.mem_cons_self
  unfold listed
  rw [itemsFrom_eq_of_agree agree starts]
  refine bind_congr fun items => ?_
  rw [agree.span_eq le trivial]

/-! ### Widgets -/

theorem widgetAt_eq_of_agree (suffix : l :: ls <:+ r.lines) (kind : isWidgetStart l.text = true)
    (starts : ∀ m ∈ l :: ls, start ≤ m.start) : widgetAt inner r l ls = widgetAt inner r' l ls := by
  obtain ⟨-, outcome⟩ := widgetTag_outcome suffix kind
  have le : start ≤ l.start + indentation l.text :=
    Nat.le_add_right_of_le (starts l List.mem_cons_self)
  have paragraph : paragraphAt r l ls = paragraphAt r' l ls := by
    refine paragraphAt_eq_of_agree agree rfl fun m mem => ⟨starts m ?_, trivial⟩
    exact List.cons_subset_cons l (List.takeWhile_subset _) mem
  unfold widgetAt
  dsimp only
  split
  · rw [agree.toSource_eq]
  · rename_i tag read
    rw [read] at outcome
    have fits : tag.Fits r.text (l.start + indentation l.text) := outcome
    rw [bodyOf_eq_of_agree agree (Nat.le_trans le (Nat.le_of_lt fits.closes.lt))
      (fun _ _ _ => trivial) fun _ => rfl]
    refine bind_congr ?_
    rintro ⟨children, stop⟩
    dsimp only
    rw [tagIn_eq_of_agree agree le fits (fun _ _ => trivial) trivial, paragraph, agree.toSource_eq]

/-! ### Regions -/

theorem blockAt_eq_of_agree (suffix : l :: ls <:+ r.lines)
    (starts : ∀ m ∈ l :: ls, start ≤ m.start) : blockAt inner r l ls = blockAt inner r' l ls := by
  have le : start ≤ l.start := starts l List.mem_cons_self
  have within : ∀ ms, ms ⊆ l :: ls → Within start (fun _ => True) ms :=
    fun ms among m mem => ⟨starts m (among mem), trivial⟩
  unfold blockAt
  split
  · refine congrArg _ (fenced_eq_of_agree agree rfl rfl (within _ (List.cons_subset_cons l ?_)))
    exact fenceLines_subset _ ls
  · split
    · rename_i mark kind
      exact titled_eq_of_agree agree le (fun _ _ => trivial) kind
    · split
      · rw [agree.span_eq le trivial]
      · split
        · rename_i kind
          refine quoted_eq_of_agree agree rfl kind (within _ (List.cons_subset_cons l ?_))
          exact List.takeWhile_subset _
        · split
          · exact listed_eq_of_agree agree starts
          · split
            · rename_i kind
              exact widgetAt_eq_of_agree agree suffix kind starts
            · split
              · rw [agree.toSource_eq]
              · refine paragraphAt_eq_of_agree agree rfl (within _ (List.cons_subset_cons l ?_))
                exact List.takeWhile_subset _

/-- Where nothing is skipped, the blocks of regions that agree are the same. -/
theorem blocksFrom_eq_of_agree {skip : List Declaration} {resume : Nat} (suffix : ls <:+ r.lines)
    (starts : ∀ m ∈ ls, start ≤ m.start) (bare : ∀ m ∈ ls, m.isCovered skip = false) :
    blocksFrom inner r skip resume ls = blocksFrom inner r' [] resume ls := by
  induction ls generalizing resume with
  | nil => rfl
  | cons l ls ih =>
    have later : ∀ m ∈ ls, start ≤ m.start := fun m mem => starts m (List.mem_cons_of_mem l mem)
    rw [List.forall_mem_cons] at bare
    have suffix' : ls <:+ r.lines := (List.suffix_cons l ls).trans suffix
    have kept : skip.find? (·.covers l.start) = none := List.find?_eq_none.2 fun d mem =>
      List.any_eq_false.1 bare.1 d mem
    rw [blocksFrom, blocksFrom, kept, List.find?_nil]
    dsimp only
    split
    · exact ih suffix' later bare.2
    · split
      · exact ih suffix' later bare.2
      · rw [blockAt_eq_of_agree agree suffix starts]
        refine bind_congr ?_
        rintro ⟨block, resume'⟩
        dsimp only
        rw [ih suffix' later bare.2]

end Open

end Block
end Folio
