import Folio.Proofs.Markup.NestedRegions
import Folio.Proofs.Markup.WidgetExtent

/-!
# The nesting counter

How deep blocks are nested can be kept in one counter for a whole document. It is raised before a region is
read, and lowered on the one way out on which the region has been read; on all others it stays raised. So a
reading that succeeds leaves the counter as it was, whatever containers it has gone through, and what is
refused is refused for the containers around it. Main statements:

* `Counted.parse`: the reading of a region with a counter;
* `Counted.parse_follows`: it reads what `Block.parse` reads with the levels that the counter leaves;
* `Counted.parse_counts_nesting`: what the counter is afterwards, what is read and what is refused.
-/

namespace Folio

/-- A reading that changes a counter. It has no result when there is no room left for calls. -/
abbrev Counted (α : Type) := ExceptT Halt (StateT Nat Option) α

namespace Counted

variable {α β : Type}

/-! ### Readings with a counter -/

/-- A reading that leaves the counter alone. -/
def plain (x : Except Halt α) : Counted α := ExceptT.mk (pure x)

section Reading

variable (inner : Region → Counted (List Block)) (r : Region)

/-- A quote. -/
def quoted (l : Line) (ls : List Line) : Counted Block.Taken := do
  let content ← plain (Block.quoteContent r l ls)
  let last := ((l :: ls).takeWhile fun m => (quoteMark? m.text).isSome).getLast?.getD l
  return (.quote (← inner content) (r.span l.start last.stop), last.next)

/-- The item that starts at a line with a mark, and its lines. -/
def itemAt (mark : ListMark) (l : Line) (ls : List Line) : Counted (ListItem × Block.ItemLines) := do
  let content ← plain (Block.itemContent r mark l ls)
  let item := Block.itemFrom mark l ls
  return (.mk (← inner content) (r.span l.start item.last.stop), item)

/-- The items among the lines that do not start before an offset. -/
def itemsFrom (ordered : Bool) (stop : Nat) : Nat → List Line → Counted Block.Items
  | resume, [] => pure { items := [], tight := true, stop, resume }
  | resume, l :: ls =>
    if l.start < resume then itemsFrom ordered stop resume ls
    else
      match Block.itemMark? ordered l.text with
      | none => pure { items := [], tight := true, stop, resume }
      | some mark => do
        let (item, lines) ← itemAt inner r mark l ls
        let more ← itemsFrom ordered lines.last.stop lines.resume ls
        return { more with
          items := item :: more.items
          tight := !lines.loose && !lines.isApart ordered && more.tight }

/-- A list. -/
def listed (mark : ListMark) (l : Line) (ls : List Line) : Counted Block.Taken := do
  let items ← itemsFrom inner r mark.ordered l.stop l.start (l :: ls)
  return (.list mark.ordered mark.number items.tight items.items (r.span l.start items.stop),
    items.resume)

/-- The body of the widget whose opening tag ends before a text, and the offset after it. -/
def bodyOf (at_ : Nat) (tag : OpenTag) (s : Text) : Counted (List Block × Nat) :=
  if tag.selfClosing then pure ([], tag.stop)
  else
    match ClosingTag.find? tag.name.toList false tag.stop s with
    | none => plain (mistake (r.toSource at_) (.unclosedWidget tag.name))
    | some close => do
      let between ← plain (Block.slice r tag.stop close.start)
      let body ← plain (Block.dedent between)
      return (← inner body, close.stop)

/-- A widget. -/
def widgetAt (l : Line) (ls : List Line) : Counted Block.Taken :=
  match Block.tagAt l ls with
  | .error e => plain (.error (.mistake (e.relocate r.toSource)))
  | .ok tag => do
    let (children, stop) ←
      bodyOf inner r (l.start + indentation l.text) tag (Block.textFrom l ls tag.stop)
    if Text.isBlank (Block.tailAt l ls stop) then
      return (.widget (Inline.tagIn r tag (l.start + indentation l.text) stop) tag.selfClosing children,
        stop)
    else if tag.selfClosing then plain (Block.paragraphAt r l ls)
    else
      plain (mistake (r.toSource (stop + indentation (Block.tailAt l ls stop)))
        (.invalid s!"unexpected text after </{tag.name}>"))

/-- The block that starts at a line that is not blank. -/
def blockAt (l : Line) (ls : List Line) : Counted Block.Taken :=
  match Block.opening l.text with
  | .fence fence => pure (Block.fenced r fence l ls)
  | .heading mark => plain (Block.titled r mark l)
  | .thematicBreak => pure (.thematicBreak (r.span l.start l.stop), l.next)
  | .quote => quoted inner r l ls
  | .list mark => listed inner r mark l ls
  | .widget => widgetAt inner r l ls
  | .closingTag name =>
    plain (mistake (r.toSource (l.start + indentation l.text)) (.unexpectedClosingTag name))
  | .paragraph => plain (Block.paragraphAt r l ls)

/-- The blocks among some lines. -/
def blocksFrom (skip : List Declaration) : Nat → List Line → Counted (List Block)
  | _, [] => pure []
  | resume, l :: ls =>
    if l.start < resume then blocksFrom skip resume ls
    else
      match skip.find? (·.covers l.start) with
      | some d => blocksFrom skip (d.span.stop + 1) ls
      | none =>
        if Text.isBlank l.text then blocksFrom skip resume ls
        else do
          let (block, resume) ← blockAt inner r l ls
          return block :: (← blocksFrom skip resume ls)

end Reading

/-- Reads one level deeper: the counter is raised before, and lowered when the reading succeeds. A region
that raises it too far is refused. -/
def nested (r : Region) (reading : Counted α) : Counted α := do
  modify (· + 1)
  if maxNesting < (← get) then throw (Block.refusal r)
  let a ← reading
  modify (· - 1)
  return a

/-- The blocks of a region, with room for so many calls in each other. -/
def parse : Nat → List Declaration → Region → Counted (List Block)
  | 0, _, _ => ExceptT.lift (StateT.lift none)
  | calls + 1, skip, r => nested r (blocksFrom (parse calls []) r skip 0 r.lines)

/-! ### What is left of the counter -/

/-- A counted reading with the counter at `depth` has a result, the same as a reading without a counter. If
it succeeds, the counter is what it was, and if it is refused for the depth, the counter is one past the
bound. Of other failures nothing is said. -/
def Follows (depth : Nat) (x : Except Halt α) (counted : Counted α) : Prop :=
  ∃ counter, counted.run.run depth = some (x, counter) ∧ (x.isOk = true → counter = depth) ∧
    ∀ h, x = .error h → h.TooDeep → counter = max maxNesting depth + 1

theorem run_bind_ok {counted : Counted α} {a : α} {depth counter : Nat}
    (run : counted.run.run depth = some (.ok a, counter)) (g : α → Counted β) :
    (counted >>= g).run.run depth = (g a).run.run counter := by
  rw [ExceptT.run_bind, StateT.run_bind, run]
  rfl

theorem run_bind_error {counted : Counted α} {h : Halt} {depth counter : Nat}
    (run : counted.run.run depth = some (.error h, counter)) (g : α → Counted β) :
    (counted >>= g).run.run depth = some (.error h, counter) := by
  rw [ExceptT.run_bind, StateT.run_bind, run]
  rfl

namespace Follows

variable {depth : Nat} {x : Except Halt α} {counted : Counted α}

theorem pure (a : α) : Follows depth (.ok a) (Pure.pure a) :=
  ⟨depth, rfl, fun _ => rfl, nofun⟩

theorem plain (flat : Outcome Halt.Flat (fun _ => True) x) : Follows depth x (plain x) := by
  refine ⟨depth, rfl, fun _ => rfl, ?_⟩
  rintro h rfl deep
  exact absurd deep flat

theorem bind {f : α → Except Halt β} {g : α → Counted β} (h : Follows depth x counted)
    (next : ∀ a, Follows depth (f a) (g a)) : Follows depth (x >>= f) (counted >>= g) := by
  obtain ⟨counter, run, back, refused⟩ := h
  cases x with
  | error h =>
    refine ⟨counter, run_bind_error run g, nofun, ?_⟩
    rintro _ ⟨⟩ deep
    exact refused h rfl deep
  | ok a =>
    obtain rfl : counter = depth := back rfl
    obtain ⟨counter, again, rest⟩ := next a
    exact ⟨counter, (run_bind_ok run g).trans again, rest⟩

end Follows

section Containers

variable {inner : Block.Inner} {counted : Region → Counted (List Block)} {depth : Nat} {r : Region}
  {l : Line} {ls : List Line} (h : ∀ r, Follows depth (inner r) (counted r))

include h

theorem quoted_follows : Follows depth (Block.quoted inner r l ls) (quoted counted r l ls) :=
  (Follows.plain (Block.gather_flat r _)).bind fun content => (h content).bind fun _ => .pure _

theorem itemAt_follows (mark : ListMark) :
    Follows depth (Block.itemAt inner r mark l ls) (itemAt counted r mark l ls) :=
  (Follows.plain (Block.gather_flat r _)).bind fun content => (h content).bind fun _ => .pure _

theorem itemsFrom_follows (ordered : Bool) (stop resume : Nat) :
    Follows depth (Block.itemsFrom inner r ordered stop resume ls)
      (itemsFrom counted r ordered stop resume ls) := by
  induction ls generalizing stop resume with
  | nil => exact .pure _
  | cons l ls ih =>
    rw [Block.itemsFrom, itemsFrom]
    split
    · exact ih stop resume
    · cases Block.itemMark? ordered l.text with
      | none => exact .pure _
      | some mark => exact (itemAt_follows h mark).bind fun _ => (ih _ _).bind fun _ => .pure _

theorem listed_follows (mark : ListMark) :
    Follows depth (Block.listed inner r mark l ls) (listed counted r mark l ls) :=
  (itemsFrom_follows h _ _ _).bind fun _ => .pure _

theorem bodyOf_follows (at_ : Nat) (tag : OpenTag) (s : Text) :
    Follows depth (Block.bodyOf inner r at_ tag s) (bodyOf counted r at_ tag s) := by
  unfold Block.bodyOf bodyOf
  split
  · exact .pure _
  · cases ClosingTag.find? tag.name.toList false tag.stop s with
    | none => exact .plain (Halt.flat_mistake fun unclosed => by cases unclosed)
    | some close =>
      exact (Follows.plain (Block.slice_flat r _ _)).bind fun between =>
        (Follows.plain (Block.dedent_flat between)).bind fun body => (h body).bind fun _ => .pure _

theorem widgetAt_follows : Follows depth (Block.widgetAt inner r l ls) (widgetAt counted r l ls) := by
  have opening : Outcome SyntaxError.Flat (fun _ => True) (Block.tagAt l ls) := OpenTag.read_flat _ _
  rw [Block.widgetAt_eq, widgetAt]
  cases read : Block.tagAt l ls with
  | error e =>
    rw [read] at opening
    have flat : e.Flat := opening
    exact .plain (Halt.flat_mistake (flat.relocate r.toSource))
  | ok tag =>
    refine (bodyOf_follows h _ _ _).bind fun body => ?_
    dsimp only
    split
    · exact .pure _
    · split
      · exact .plain (Block.paragraphAt_flat r l ls)
      · exact .plain (Block.flat_textAfter _ _)

theorem blockAt_follows : Follows depth (Block.blockAt inner r l ls) (blockAt counted r l ls) := by
  rw [Block.blockAt_eq, blockAt]
  cases Block.opening l.text with
  | fence fence => exact .pure _
  | heading mark => exact .plain (Block.titled_flat r l mark)
  | thematicBreak => exact .pure _
  | quote => exact quoted_follows h
  | list mark => exact listed_follows h mark
  | widget => exact widgetAt_follows h
  | closingTag name => exact .plain (Halt.flat_mistake fun unexpected => by cases unexpected)
  | paragraph => exact .plain (Block.paragraphAt_flat r l ls)

theorem blocksFrom_follows (skip : List Declaration) (resume : Nat) :
    Follows depth (Block.blocksFrom inner r skip resume ls) (blocksFrom counted r skip resume ls) := by
  induction ls generalizing resume with
  | nil => exact .pure _
  | cons l ls ih =>
    rw [Block.blocksFrom, blocksFrom]
    split
    · exact ih resume
    · cases skip.find? (·.covers l.start) with
      | some d => exact ih _
      | none =>
        dsimp only
        split
        · exact ih resume
        · exact (blockAt_follows h).bind fun _ => (ih _).bind fun _ => .pure _

end Containers

theorem nested_run (depth : Nat) (r : Region) (reading : Counted α) :
    (nested r reading).run.run depth =
      (if maxNesting < depth + 1 then throw (Block.refusal r)
        else do
          let a ← reading
          modify (· - 1)
          return a : Counted α).run.run (depth + 1) := rfl

/-- A region that raises the counter too far is refused, and the counter stays where it is. -/
theorem nested_run_of_le {depth : Nat} (le : maxNesting ≤ depth) (r : Region) (reading : Counted α) :
    (nested r reading).run.run depth = some (.error (Block.refusal r), depth + 1) := by
  rw [nested_run, if_pos (Nat.lt_succ_of_le le)]
  rfl

/-- The counter is lowered when the reading of a region succeeds, and only then. -/
theorem nested_run_of_lt {depth counter : Nat} {x : Except Halt α} {reading : Counted α}
    (lt : depth < maxNesting) (run : reading.run.run (depth + 1) = some (x, counter)) (r : Region) :
    (nested r reading).run.run depth = some (x, if x.isOk then counter - 1 else counter) := by
  rw [nested_run, if_neg (Nat.not_lt.2 lt)]
  cases x with
  | error h => exact run_bind_error run _
  | ok a => exact run_bind_ok run _

/-- **The counted reading of a region reads what is read with the levels that the counter leaves**, if there
is room for a call at each of them and for the one that is refused. -/
theorem parse_follows {calls depth : Nat} (room : maxNesting - depth < calls) (skip : List Declaration)
    (r : Region) : Follows depth (Block.parse (maxNesting - depth) skip r) (parse calls skip r) := by
  induction calls generalizing depth skip r with
  | zero => cases room
  | succ calls ih =>
    by_cases within : depth < maxNesting
    · obtain ⟨levels, left⟩ := Nat.exists_eq_add_one_of_ne_zero (Nat.sub_ne_zero_of_lt within)
      -- the content of a container is read with the counter one higher and one level less
      have deeper : maxNesting - (depth + 1) = levels := by omega
      have inner : ∀ content, Follows (depth + 1) (Block.parse levels [] content)
          (parse calls [] content) := by
        intro content
        rw [← deeper]
        exact ih (by omega) [] content
      obtain ⟨counter, run, back, refused⟩ :
          Follows (depth + 1) (Block.blocksFrom (Block.parse levels []) r skip 0 r.lines)
            (blocksFrom (parse calls []) r skip 0 r.lines) := blocksFrom_follows inner skip 0
      rw [left, Block.parse, parse]
      refine ⟨_, nested_run_of_lt within run r, fun ok => ?_, fun h failed deep => ?_⟩
      · rw [if_pos ok, back ok, Nat.add_sub_cancel]
      · rw [refused h failed deep, failed]
        show max maxNesting (depth + 1) + 1 = max maxNesting depth + 1
        omega
    · have le : maxNesting ≤ depth := Nat.not_lt.1 within
      rw [Nat.sub_eq_zero_of_le le, Block.parse, parse]
      refine ⟨_, nested_run_of_le le r _, fun ok => absurd ok Bool.false_ne_true, fun _ _ _ => ?_⟩
      rw [Nat.max_eq_right le]

/-- **The counter counts nesting only.** A region is read with the counter at some depth, and there is room
for a call at each level that is left and for one more. Then what is read is what `Block.parse` reads with
these levels. If blocks are read, the counter is at this depth again, and the blocks make no more levels than
were left. If the region is refused for the depth, the counter is one past the bound, for each call that is
open has raised it by one: these are the call for a region that no level is left for, and those for the
region at the start and the containers in between, one for each level. What has been read before does not
count. So a document makes no more levels than the bound, and a text is refused for its depth only if it leads
through as many containers. -/
theorem parse_counts_nesting {calls depth : Nat} (room : maxNesting - depth < calls)
    (skip : List Declaration) (r : Region) :
    (∃ counter,
      (parse calls skip r).run.run depth = some (Block.parse (maxNesting - depth) skip r, counter) ∧
      (∀ blocks, Block.parse (maxNesting - depth) skip r = .ok blocks →
        counter = depth ∧ Block.allLevels blocks ≤ maxNesting - depth) ∧
      ∀ h, Block.parse (maxNesting - depth) skip r = .error h → h.TooDeep →
        counter = max maxNesting depth + 1 ∧
          ∃ innermost, Block.Nests (maxNesting - depth) skip r innermost ∧
            h = Block.refusal innermost) ∧
    ∀ formats source,
      (∀ d, Document.parse formats source = .ok d → Block.allLevels d.blocks ≤ maxNesting) ∧
        ∀ h, Document.parse formats source = .error h → h.TooDeep →
          ∃ innermost,
            Block.Nests maxNesting (Declaration.scan source) (Region.root source) innermost ∧
              h = Block.refusal innermost := by
  obtain ⟨counter, run, back, refused⟩ := parse_follows room skip r
  refine ⟨⟨counter, run, fun blocks read => ?_, fun h failed deep => ?_⟩, fun formats source => ?_⟩
  · exact ⟨back (by rw [read]; rfl), Block.parse_levels read⟩
  · exact ⟨refused h failed deep, (Block.parse_eq_tooDeep_iff deep).1 failed⟩
  · exact ⟨fun d read => Document.allLevels_le read,
      fun h failed deep => ((Document.parse_eq_tooDeep_iff deep).1 failed).2⟩

/-- A quote, with the counter two and one below the bound: it makes two levels, and its content is refused
where one is left. -/
theorem parse_counts_nesting_quote :
    (parse 3 [] (Region.root ['>', 'a'])).run.run 46 =
        some (.ok [.quote [.paragraph [.text "a"] ⟨1, 2⟩] ⟨0, 2⟩], 46) ∧
      ∃ innermost, Block.Nests 1 [] (Region.root ['>', 'a']) innermost ∧
        (parse 2 [] (Region.root ['>', 'a'])).run.run 47 = some (.error (Block.refusal innermost), 49) := by
  have read : Block.parse 2 [] (Region.root ['>', 'a']) =
      .ok [.quote [.paragraph [.text "a"] ⟨1, 2⟩] ⟨0, 2⟩] := rfl
  obtain ⟨h, failed, deep⟩ : ∃ h, Block.parse 1 [] (Region.root ['>', 'a']) = .error h ∧ h.TooDeep :=
    ⟨_, rfl, _, rfl⟩
  obtain ⟨⟨counter, run, back, -⟩, -⟩ :=
    @parse_counts_nesting 3 46 (by decide) [] (Region.root ['>', 'a'])
  obtain ⟨⟨counter', run', -, refused⟩, -⟩ :=
    @parse_counts_nesting 2 47 (by decide) [] (Region.root ['>', 'a'])
  obtain ⟨rfl, -⟩ := back _ read
  obtain ⟨rfl, innermost, nests, rfl⟩ := refused h failed deep
  refine ⟨?_, innermost, nests, ?_⟩
  · rw [run, show maxNesting - 46 = 2 from rfl, read]
  · rw [run', show maxNesting - 47 = 1 from rfl, failed]
    rfl

end Counted
end Folio
