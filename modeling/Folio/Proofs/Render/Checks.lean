import Folio.Proofs.Markup.Marks
import Folio.Render.Builtin
import Folio.Render.Evaluation

/-!
# What an evaluation checks

The expressions and the widgets of a document, in document order, give a list of checks, which is
read off the document without evaluating anything. An evaluation makes these checks one after the
other and stops at the first that fails. Main statements:

* `Evaluation.tag_judged`, `inline_judged` and `block_judged`: what is made of each construct, and
  which checks decide about it;
* `Document.evaluate_checks`: a document is evaluated exactly if all its checks pass, to a tree that
  refers to the widgets of the document and in which nothing has failed; otherwise the error is that
  of the first check that fails.
-/

namespace Folio

/-! ### Constructs -/

/-- What is evaluated in a document: an expression between words, or the tag of a widget. -/
inductive Construct
  | expression (source : String) (span : Span)
  | widget (tag : WidgetTag)
  deriving DecidableEq, Repr

mutual

/-- The constructs in inline content; a widget comes before those in its body. -/
def Inline.constructs : Inline → List Construct
  | .text _ => []
  | .strong children => Inline.allConstructs children
  | .emphasis children => Inline.allConstructs children
  | .strikethrough children => Inline.allConstructs children
  | .code _ => []
  | .link _ children => Inline.allConstructs children
  | .image _ _ => []
  | .softBreak => []
  | .lineBreak => []
  | .widget (.mk t _ children) => .widget t :: Block.allConstructs children
  | .expression source span => [.expression source span]

/-- The constructs in inline content, in order. -/
def Inline.allConstructs : List Inline → List Construct
  | [] => []
  | i :: is => Inline.constructs i ++ Inline.allConstructs is

/-- The constructs in a block; a widget comes before those in its body. -/
def Block.constructs : Block → List Construct
  | .heading _ children _ => Inline.allConstructs children
  | .paragraph children _ => Inline.allConstructs children
  | .quote children _ => Block.allConstructs children
  | .list _ _ _ items _ => ListItem.allConstructs items
  | .code _ _ _ => []
  | .thematicBreak _ => []
  | .widget t _ children => .widget t :: Block.allConstructs children

/-- The constructs in blocks, in order. -/
def Block.allConstructs : List Block → List Construct
  | [] => []
  | b :: bs => Block.constructs b ++ Block.allConstructs bs

/-- The constructs in an item of a list. -/
def ListItem.constructs : ListItem → List Construct
  | .mk children _ => Block.allConstructs children

/-- The constructs in items of a list, in order. -/
def ListItem.allConstructs : List ListItem → List Construct
  | [] => []
  | i :: is => ListItem.constructs i ++ ListItem.allConstructs is

end

/-- The name of a construct, if it is a widget. -/
def Construct.widgetName? : Construct → Option String
  | expression _ _ => none
  | widget t => some t.name

/-- The names of all widgets of a document, in document order. -/
def Document.widgetNames (d : Document) : List String :=
  (Block.allConstructs d.blocks).filterMap Construct.widgetName?

/-! ### Checks -/

/-- What is checked: that the source of an expression is a JSON literal, that a widget is known,
that none of the props before has the name of a prop, and that a widget accepts its props. -/
inductive Check
  | literal (source : String) (span : Span)
  | known (tag : WidgetTag)
  | unrepeated (widget : String) (prop : WidgetProp) (before : List String)
  | accepted (tag : WidgetTag)
  deriving DecidableEq, Repr

namespace WidgetProp

/-- The check of the value of a prop. -/
def valueChecks (p : WidgetProp) : List Check :=
  match p.value with
  | .string _ => []
  | .expression source => [.literal source p.span]
  | .flag => []

/-- The value of a prop, if it has one. -/
def value? (formats : Formats) (p : WidgetProp) : Option Json :=
  match p.value with
  | .string s => some (.string s)
  | .expression source => (formats.json source.toList).toOption
  | .flag => some (.bool true)

/-- The checks of the props of a widget that come after props with some names. -/
def checks (widget : String) (before : List String) : List WidgetProp → List Check
  | [] => []
  | p :: ps => p.valueChecks ++ .unrepeated widget p before :: checks widget (p.name :: before) ps

end WidgetProp

/-- The props that a tag gives to its widget, without those that have no value. -/
def WidgetTag.given (formats : Formats) (t : WidgetTag) : Props :=
  Fields.ofList (t.props.filterMap fun p => (p.value? formats).map fun v => (p.name, v))

/-- The checks of a construct, in the order in which they are made. -/
def Construct.checks : Construct → List Check
  | expression source span => [.literal source span]
  | widget t => .known t :: WidgetProp.checks t.name [] t.props ++ [.accepted t]

/-- The checks of a document, in the order in which they are made. -/
def Document.checks (d : Document) : List Check :=
  (Block.allConstructs d.blocks).flatMap Construct.checks

namespace Check

/-- The span of what is checked: an expression, a widget or a prop. -/
def span : Check → Span
  | literal _ span => span
  | known t => t.span
  | unrepeated _ p _ => p.span
  | accepted t => t.span

/-- What is at fault when a check fails. -/
def fault? (formats : Formats) (caps : CapabilitySet) : Check → Option EvalFault
  | literal source _ =>
    match formats.json source.toList with
    | .ok _ => none
    | .error _ => some (.unsupportedExpression source)
  | known t => if caps.contains t.name then none else some (.unknownCapability t.name)
  | unrepeated widget p before =>
    if p.name ∈ before then some (.invalidProps widget s!"prop '{p.name}' is given more than once")
    else none
  | accepted t =>
    (caps.get? t.name).bind fun w =>
      match w.validate (t.given formats) with
      | .ok () => none
      | .error e => some (.invalidProps t.name e.message)

/-- The error of a check that fails. -/
def error? (formats : Formats) (caps : CapabilitySet) (c : Check) : Option EvalError :=
  (c.fault? formats caps).map fun fault => { span := c.span, fault }

variable {formats : Formats} {caps : CapabilitySet} {c : Check}

theorem error?_eq_none_iff : c.error? formats caps = none ↔ c.fault? formats caps = none :=
  Option.map_eq_none_iff

theorem error?_eq_some_iff {e : EvalError} : c.error? formats caps = some e ↔
    ∃ fault, c.fault? formats caps = some fault ∧ e = { span := c.span, fault } := by
  rw [error?, Option.map_eq_some_iff]
  simp only [eq_comm]

end Check

/-! ### Judged evaluations -/

namespace Evaluation

variable {formats : Formats} {caps : CapabilitySet} {α β : Type}

/-- An evaluation fails with the error of the first of some checks that fails, or all of them pass
and its result is good. -/
def Judged (formats : Formats) (caps : CapabilitySet) (checks : List Check) (good : α → Prop) :
    Except EvalError α → Prop :=
  Outcome (fun e => checks.findSome? (Check.error? formats caps) = some e)
    fun a => (∀ c ∈ checks, c.error? formats caps = none) ∧ good a

namespace Judged

variable {cs ds : List Check} {good : α → Prop} {good' : β → Prop} {x : Except EvalError α}

theorem ok {a : α} (h : good a) : Judged formats caps [] good (.ok a) := ⟨nofun, h⟩

/-- The checks of two evaluations, one after the other, are made one after the other. -/
theorem bind {f : α → Except EvalError β} (first : Judged formats caps cs good x)
    (next : ∀ a, good a → Judged formats caps ds good' (f a)) :
    Judged formats caps (cs ++ ds) good' (x >>= f) := by
  cases x with
  | error e =>
    have failed : cs.findSome? (Check.error? formats caps) = some e := first
    exact (List.findSome?_append ..).trans (by rw [failed]; rfl)
  | ok a =>
    obtain ⟨passed, done⟩ := first
    have nothing : cs.findSome? (Check.error? formats caps) = none :=
      List.findSome?_eq_none_iff.2 passed
    refine (next a done).mono (fun e failed => ?_) fun b rest => ?_
    · rw [List.findSome?_append, nothing]
      exact failed
    · exact ⟨List.forall_mem_append.2 ⟨passed, rest.1⟩, rest.2⟩

/-- What is made of a result needs no checks. -/
theorem bind_pure {f : α → β} (first : Judged formats caps cs good x)
    (made : ∀ a, good a → good' (f a)) : Judged formats caps cs good' (do return f (← x)) := by
  have both : Judged formats caps (cs ++ []) good' (do return f (← x)) :=
    first.bind fun a h => .ok (made a h)
  rwa [List.append_nil] at both

/-- When the first check fails, the others do not matter. -/
theorem fail {c : Check} {fault : EvalFault} (failed : c.fault? formats caps = some fault) :
    Judged formats caps (c :: cs) good (.error { span := c.span, fault }) := by
  have error : c.error? formats caps = some { span := c.span, fault } := by
    rw [Check.error?, failed]
    rfl
  exact List.findSome?_cons_of_isSome (by rw [error]; rfl) |>.trans error

/-- When the first check passes, the others decide. -/
theorem pass {c : Check} (passed : c.fault? formats caps = none)
    (rest : Judged formats caps cs good x) : Judged formats caps (c :: cs) good x := by
  have error : c.error? formats caps = none := by
    rw [Check.error?, passed]
    rfl
  refine Outcome.mono rest (fun e failed => ?_) fun a done => ?_
  · rw [List.findSome?_cons, error]
    exact failed
  · exact ⟨List.forall_mem_cons.2 ⟨error, done.1⟩, done.2⟩

/-- An evaluation succeeds exactly if all checks pass. -/
theorem isOk_iff (h : Judged formats caps cs good x) :
    (∃ a, x = .ok a) ↔ ∀ c ∈ cs, c.fault? formats caps = none := by
  simp only [← Check.error?_eq_none_iff]
  cases x with
  | ok a => exact ⟨fun _ => h.1, fun _ => ⟨a, rfl⟩⟩
  | error e =>
    have failed : cs.findSome? (Check.error? formats caps) = some e := h
    refine ⟨nofun, fun passed => ?_⟩
    rw [List.findSome?_eq_none_iff.2 passed] at failed
    cases failed

/-- An evaluation fails exactly with the error of the first check that fails. -/
theorem eq_error_iff (h : Judged formats caps cs good x) (e : EvalError) :
    x = .error e ↔ ∃ passed c rest, cs = passed ++ c :: rest ∧
      (∀ b ∈ passed, b.fault? formats caps = none) ∧ c.error? formats caps = some e := by
  have first : x = .error e ↔ cs.findSome? (Check.error? formats caps) = some e := by
    cases x with
    | ok a => simp [List.findSome?_eq_none_iff.2 h.1]
    | error e' =>
      have failed : cs.findSome? (Check.error? formats caps) = some e' := h
      rw [failed, Except.error.injEq, Option.some.injEq]
  simp only [first, List.findSome?_eq_some_iff, Check.error?_eq_none_iff, and_comm]

end Judged

/-! ### Tags -/

theorem expression_judged (source : String) (span : Span) :
    Judged formats caps [.literal source span]
      (fun v => (formats.json source.toList).toOption = some v)
      (expression formats source span) := by
  unfold expression
  split
  · rename_i v read
    exact .pass (by rw [Check.fault?, read]) (.ok (by rw [read]; rfl))
  · rename_i read
    exact .fail (c := .literal source span) (by rw [Check.fault?, read])

theorem propValue_judged (p : WidgetProp) :
    Judged formats caps p.valueChecks (fun v => p.value? formats = some v)
      (propValue formats p) := by
  obtain ⟨name, value, span⟩ := p
  cases value with
  | string s => exact .ok rfl
  | expression source => exact expression_judged source span
  | flag => exact .ok rfl

end Evaluation

namespace Fields

variable {α : Type} (k name : String) (value : α) (fs : Fields α)

theorem get?_insert :
    get? k (insert name value fs) = if k = name then some value else get? k fs := by
  fun_induction insert name value fs with
  | case1 => rfl
  | case2 => rfl
  | case3 v fs before =>
    rw [get?, get?]
    split <;> rfl
  | case4 k' v fs before other ih =>
    rw [get?, get?, ih]
    split
    · rename_i eq
      rw [if_neg (eq ▸ Ne.symm other)]
    · rfl

theorem contains_insert :
    contains k (insert name value fs) = true ↔ k = name ∨ contains k fs = true := by
  rw [contains, contains, get?_insert]
  split <;> simp [*]

end Fields

namespace Evaluation

variable {formats : Formats} {caps : CapabilitySet}

/-- Props are added one by one, and none has the name of one before. -/
theorem addProps_judged (name : String) {props : Props} {before : List String}
    (named : ∀ k, Fields.contains k props = true ↔ k ∈ before) (ps : List WidgetProp) :
    Judged formats caps (WidgetProp.checks name before ps)
      (fun all => all = (ps.filterMap fun p => (p.value? formats).map fun v => (p.name, v)).foldl
        (fun acc f => Fields.insert f.1 f.2 acc) props)
      (addProps formats name props ps) := by
  -- The props so far and the names before grow together, and `named` goes along with them.
  induction ps generalizing props before with
  | nil => exact .ok rfl
  | cons p ps ih =>
    rw [addProps, WidgetProp.checks]
    refine (propValue_judged p).bind fun v value => ?_
    rw [List.filterMap_cons_some (b := (p.name, v)) (by rw [value]; rfl)]
    by_cases repeated : Fields.contains p.name props = true
    · rw [if_pos repeated]
      refine .fail (c := .unrepeated name p before) ?_
      rw [Check.fault?, if_pos ((named p.name).1 repeated)]
    · rw [if_neg repeated]
      refine .pass ?_ (ih fun k => ?_)
      · rw [Check.fault?, if_neg fun mem => repeated ((named p.name).2 mem)]
      · rw [Fields.contains_insert, named, List.mem_cons]

/-- A tag is evaluated to the props that it gives. -/
theorem tag_judged (t : WidgetTag) :
    Judged formats caps (Construct.widget t).checks (fun props => props = t.given formats)
      (tag formats caps t) := by
  rw [Construct.checks, tag, List.cons_append]
  cases known : caps.get? t.name with
  | none => exact .fail (c := .known t) (by simp [Check.fault?, CapabilitySet.contains, known])
  | some w =>
    refine .pass (by simp [Check.fault?, CapabilitySet.contains, known]) ?_
    have unnamed : ∀ k, Fields.contains k ([] : Props) = true ↔ k ∈ ([] : List String) := by
      simp [Fields.contains, Fields.get?]
    -- Only now all props have values, so the widget is asked about those that the tag gives.
    refine (addProps_judged t.name unnamed t.props).bind
      fun props (given : props = t.given formats) => ?_
    split
    · rename_i valid
      refine .pass ?_ (.ok given)
      rw [Check.fault?, known, Option.bind_some, ← given, valid]
    · rename_i e invalid
      refine .fail (c := .accepted t) ?_
      rw [Check.fault?, known, Option.bind_some, ← given, invalid]

end Evaluation

/-! ### What is shown -/

namespace Node

variable (ns ms : List Node)

theorem widgetNamesAll_append :
    widgetNamesAll (ns ++ ms) = widgetNamesAll ns ++ widgetNamesAll ms := by
  induction ns with
  | nil => rfl
  | cons n ns ih => rw [List.cons_append, widgetNamesAll, widgetNamesAll, ih, List.append_assoc]

theorem countAll_append (p : Node → Bool) :
    countAll p (ns ++ ms) = countAll p ns + countAll p ms := by
  induction ns with
  | nil => rw [List.nil_append, countAll, Nat.zero_add]
  | cons n ns ih => rw [List.cons_append, countAll, countAll, ih, Nat.add_assoc]

end Node

/-- Nodes that refer to the widgets among some constructs, in order, and in which nothing has
failed. -/
structure Shows (cs : List Construct) (ns : List Node) : Prop where
  names : Node.widgetNamesAll ns = cs.filterMap Construct.widgetName?
  flawless : Node.countAll Node.isError ns = 0

namespace Shows

variable {cs ds : List Construct} {ns ms : List Node}

theorem nil : Shows [] [] := ⟨rfl, rfl⟩

theorem append (first : Shows cs ns) (rest : Shows ds ms) : Shows (cs ++ ds) (ns ++ ms) where
  names := by rw [Node.widgetNamesAll_append, List.filterMap_append, first.names, rest.names]
  flawless := by rw [Node.countAll_append, first.flawless, rest.flawless]

theorem text (content : String) : Shows [] [.text content] := ⟨rfl, rfl⟩

theorem element (tag : String) (attributes : List (String × String)) (h : Shows cs ns) :
    Shows cs [.element tag attributes ns] where
  names := by rw [← h.names]; exact List.append_nil _
  flawless := by rw [← h.flawless]; exact Nat.zero_add _

/-- What an element shows is shown without it. -/
theorem of_element {tag : String} {attributes : List (String × String)}
    (h : Shows cs [.element tag attributes ns]) : Shows cs ns where
  names := (List.append_nil _).symm.trans h.names
  flawless := (Nat.zero_add _).symm.trans h.flawless

theorem item {n : Node} (tight : Bool) (b : Block) (h : Shows cs [n]) :
    Shows cs (Evaluation.itemNodes tight b n) := by
  unfold Evaluation.itemNodes
  split
  · split
    · exact h.of_element
    · exact h
  · exact h

theorem expression (source : String) (span : Span) (content : String) :
    Shows [.expression source span] [.text content] := ⟨rfl, rfl⟩

theorem widget (t : WidgetTag) (props : Props) (h : Shows cs ns) :
    Shows (.widget t :: cs) [.widget t.name props ns t.span] where
  names := by
    rw [List.filterMap_cons, Construct.widgetName?, ← h.names]
    exact List.append_nil _
  flawless := by rw [← h.flawless]; exact Nat.zero_add _

end Shows

/-! ### Content -/

namespace Evaluation

variable {formats : Formats} {caps : CapabilitySet} {cs ds : List Construct}

/-- Nodes that are made of some constructs, whose checks decide whether they can be made. -/
def NodesOf (formats : Formats) (caps : CapabilitySet) (cs : List Construct) :
    Except EvalError (List Node) → Prop :=
  Judged formats caps (cs.flatMap Construct.checks) (Shows cs)

/-- A node that is made of some constructs, whose checks decide whether it can be made. -/
def NodeOf (formats : Formats) (caps : CapabilitySet) (cs : List Construct) :
    Except EvalError Node → Prop :=
  Judged formats caps (cs.flatMap Construct.checks) fun n => Shows cs [n]

theorem NodesOf.nil : NodesOf formats caps [] (.ok []) := .ok .nil

theorem NodesOf.cons {x : Except EvalError Node} {y : Except EvalError (List Node)}
    (first : NodeOf formats caps cs x) (rest : NodesOf formats caps ds y) :
    NodesOf formats caps (cs ++ ds) (do
      let n ← x
      return n :: (← y)) := by
  rw [NodesOf, List.flatMap_append]
  exact first.bind fun n shown => rest.bind_pure fun ns more => shown.append more

/-- In an item, the text of a paragraph is made of the constructs of the paragraph as well. -/
theorem NodeOf.item {x : Except EvalError Node} {y : Except EvalError (List Node)} (tight : Bool)
    (b : Block) (first : NodeOf formats caps cs x) (rest : NodesOf formats caps ds y) :
    NodesOf formats caps (cs ++ ds) (do
      let n ← x
      return itemNodes tight b n ++ (← y)) := by
  rw [NodesOf, List.flatMap_append]
  exact first.bind fun n shown => rest.bind_pure fun ns more => (shown.item tight b).append more

/-- An element around nodes needs no checks of its own. -/
theorem NodesOf.element {x : Except EvalError (List Node)} (tag : String)
    (attributes : List (String × String)) (h : NodesOf formats caps cs x) :
    NodeOf formats caps cs (do return .element tag attributes (← x)) :=
  h.bind_pure fun _ shown => shown.element tag attributes

/-- A widget is made of its tag and then of its body. -/
theorem NodesOf.widget {x : Except EvalError (List Node)} (t : WidgetTag)
    (h : NodesOf formats caps cs x) : NodeOf formats caps (.widget t :: cs) (do
      let props ← tag formats caps t
      return .widget t.name props (← x) t.span) := by
  rw [NodeOf, List.flatMap_cons]
  exact (tag_judged t).bind fun props _ => h.bind_pure fun _ shown => shown.widget t props

mutual

/-- Inline content is made of its constructs. -/
theorem inline_judged : (i : Inline) → NodeOf formats caps i.constructs (inline formats caps i)
  | .text content => .ok (.text content)
  | .strong children => (inlines_judged children).element "strong" []
  | .emphasis children => (inlines_judged children).element "em" []
  | .strikethrough children => (inlines_judged children).element "del" []
  | .code content => .ok ((Shows.text content).element "code" [])
  | .link href children => (inlines_judged children).element "a" [("href", href)]
  | .image src alt => .ok (Shows.nil.element "img" [("alt", alt), ("src", src)])
  | .softBreak => .ok (.text "\n")
  | .lineBreak => .ok (Shows.nil.element "br" [])
  | .widget (.mk t _ children) => (blocks_judged children).widget t
  | .expression source span =>
    (expression_judged source span).bind_pure fun v _ => .expression source span v.display

theorem inlines_judged : (is : List Inline) →
    NodesOf formats caps (Inline.allConstructs is) (inlines formats caps is)
  | [] => .nil
  | i :: is => .cons (inline_judged i) (inlines_judged is)

/-- A block is made of its constructs. -/
theorem block_judged : (b : Block) → NodeOf formats caps b.constructs (block formats caps b)
  | .heading level children _ => (inlines_judged children).element s!"h{level}" []
  | .paragraph children _ => (inlines_judged children).element "p" []
  | .quote children _ => (blocks_judged children).element "blockquote" []
  | .list ordered start tight items _ =>
    (listItems_judged tight items).element _ (listAttributes ordered start)
  | .code info code _ =>
    .ok (((Shows.text code).element "code" (codeAttributes info)).element "pre" [])
  | .thematicBreak _ => .ok (Shows.nil.element "hr" [])
  | .widget t _ children => (blocks_judged children).widget t

theorem blocks_judged : (bs : List Block) →
    NodesOf formats caps (Block.allConstructs bs) (blocks formats caps bs)
  | [] => .nil
  | b :: bs => .cons (block_judged b) (blocks_judged bs)

theorem itemBlocks_judged (tight : Bool) : (bs : List Block) →
    NodesOf formats caps (Block.allConstructs bs) (itemBlocks formats caps tight bs)
  | [] => .nil
  | b :: bs => by
    rw [itemBlocks_cons]
    exact (block_judged b).item tight b (itemBlocks_judged tight bs)

theorem listItem_judged (tight : Bool) : (i : ListItem) →
    NodeOf formats caps i.constructs (listItem formats caps tight i)
  | .mk children _ => (itemBlocks_judged tight children).element "li" []

theorem listItems_judged (tight : Bool) : (is : List ListItem) →
    NodesOf formats caps (ListItem.allConstructs is) (listItems formats caps tight is)
  | [] => .nil
  | i :: is => .cons (listItem_judged tight i) (listItems_judged tight is)

end

end Evaluation

/-! ### Documents -/

namespace Document

variable (formats : Formats) (caps : CapabilitySet) (d : Document)

/-- The checks of a document decide whether it is evaluated, to a tree of its constructs. -/
theorem evaluate_judged : Evaluation.Judged formats caps d.checks
    (fun t => Shows (Block.allConstructs d.blocks) t.nodes) (d.evaluate formats caps) :=
  (Evaluation.blocks_judged d.blocks).bind_pure fun _ shown => shown

/-- A document is evaluated exactly if all its checks pass, and else the error is that of the first
check that fails. The tree refers to the widgets of the document in document order, and nothing in
it has failed. -/
theorem evaluate_checks :
    ((∃ t, d.evaluate formats caps = .ok t) ↔ ∀ c ∈ d.checks, c.fault? formats caps = none) ∧
    (∀ e, d.evaluate formats caps = .error e ↔
      ∃ passed c rest fault, d.checks = passed ++ c :: rest ∧
        (∀ b ∈ passed, b.fault? formats caps = none) ∧
        c.fault? formats caps = some fault ∧ e = { span := c.span, fault }) ∧
    ∀ t, d.evaluate formats caps = .ok t →
      Node.widgetNamesAll t.nodes = d.widgetNames ∧ Node.countAll Node.isError t.nodes = 0 := by
  have judged := evaluate_judged formats caps d
  refine ⟨judged.isOk_iff, fun e => (judged.eq_error_iff e).trans ?_, fun t evaluated => ?_⟩
  · simp only [Check.error?_eq_some_iff, exists_and_left]
  · rw [evaluated] at judged
    exact ⟨judged.2.names, judged.2.flawless⟩

/-- Notes in a tight list and in a quote pass all checks, as does a note in the body of a note
between words. In such a body, an expression that is no literal is found before an unknown widget
after it. -/
theorem evaluate_checks_callouts :
    let one (t : Text) : Except String Json := if t = ['1'] then .ok (.integer 1) else .error ""
    let formats : Formats := { json := one, yaml := one }
    let note props span : WidgetTag := { name := "Callout", props, span }
    let tip : WidgetProp := { name := "kind", value := .string "tip", span := ⟨16, 26⟩ }
    let inner : Block := .widget (note [] ⟨27, 38⟩) true []
    let item : Block :=
      .paragraph [.expression "1" ⟨2, 5⟩, .widget (.mk (note [tip] ⟨7, 48⟩) false [inner])] ⟨2, 48⟩
    let quoted : Block := .widget (note [] ⟨52, 79⟩) false [.paragraph [.text "a"] ⟨64, 65⟩]
    let notes : Document := {
      metadata := none, imports := []
      blocks := [.list false none true [.mk [item] ⟨0, 48⟩] ⟨0, 48⟩, .quote [quoted] ⟨50, 79⟩] }
    let body : List Block := [.paragraph [.expression "x" ⟨9, 12⟩] ⟨9, 12⟩]
    let unknown : Inline := .widget (.mk { name := "Unknown", props := [], span := ⟨23, 34⟩ } true [])
    let flawed : Document := {
      metadata := none, imports := []
      blocks := [.paragraph [.widget (.mk (note [] ⟨0, 22⟩) false body), unknown] ⟨0, 34⟩] }
    (∃ t, notes.evaluate formats .builtins = .ok t ∧
      Node.widgetNamesAll t.nodes = ["Callout", "Callout", "Callout"] ∧
      Node.countAll Node.isError t.nodes = 0) ∧
    flawed.evaluate formats .builtins =
      .error { span := ⟨9, 12⟩, fault := .unsupportedExpression "x" } := by
  intro one formats note tip inner item quoted notes body unknown flawed
  obtain ⟨succeeds, -, shows⟩ := evaluate_checks formats .builtins notes
  obtain ⟨-, fails, -⟩ := evaluate_checks formats .builtins flawed
  have passes : ∀ c ∈ notes.checks, c.fault? formats .builtins = none := by
    decide
  obtain ⟨t, evaluated⟩ := succeeds.2 passes
  have passed : ∀ c ∈ (Construct.widget (note [] ⟨0, 22⟩)).checks,
      c.fault? formats .builtins = none := by
    decide
  exact ⟨⟨t, evaluated, shows t evaluated⟩, (fails _).2 ⟨_, _, _, _, rfl, passed, rfl, rfl⟩⟩

end Document

end Folio
