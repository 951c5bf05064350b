import Folio.Proofs.Markup.Restrip
import Folio.Render.Boundary
import Folio.Render.Builtin
import Folio.Render.Compilation

/-!
# What compiles renders

A widget checks its props when a document is compiled and reads them again when the tree is
rendered. It is *reliable* when it renders whenever it has accepted its props. Where all widgets
are, a compiled tree renders without a failure. Main statements:

* `Evaluation.blocks_accepted`: in an evaluated tree every widget is known and accepts its props;
* `Node.renderAll_of_accepted`: with reliable widgets, an accepted tree is expanded without failure;
* `CapabilitySet.builtins_isReliable`: the stock widgets are reliable;
* `expanded_of_compile_eq_tree`: what compiles with the stock widgets renders.
-/

namespace Folio

namespace Node

mutual

/-- A node in which every widget is known and accepts its props, and nothing has failed. -/
def Accepted (caps : CapabilitySet) : Node → Prop
  | element _ _ children => AllAccepted caps children
  | text _ => True
  | widget name props children _ =>
    (∃ w, caps.get? name = some w ∧ w.validate props = .ok ()) ∧ AllAccepted caps children
  | error _ _ => False

/-- Nodes in which every widget is known and accepts its props, and nothing has failed. -/
def AllAccepted (caps : CapabilitySet) : List Node → Prop
  | [] => True
  | n :: ns => Accepted caps n ∧ AllAccepted caps ns

end

mutual

/-- A node of elements and texts only. -/
def IsExpanded : Node → Prop
  | element _ _ children => AllExpanded children
  | text _ => True
  | widget _ _ _ _ => False
  | error _ _ => False

/-- Nodes of elements and texts only. -/
def AllExpanded : List Node → Prop
  | [] => True
  | n :: ns => IsExpanded n ∧ AllExpanded ns

end

variable {caps : CapabilitySet} {ns ms : List Node}

theorem allAccepted_append (hn : AllAccepted caps ns) (hm : AllAccepted caps ms) :
    AllAccepted caps (ns ++ ms) := by
  induction ns with
  | nil => exact hm
  | cons n ns ih => exact ⟨hn.1, ih hn.2⟩

theorem allExpanded_iff : AllExpanded ns ↔ ∀ n ∈ ns, n.IsExpanded := by
  induction ns with
  | nil => simp [AllExpanded]
  | cons n ns ih => rw [AllExpanded, ih, List.forall_mem_cons]

theorem allExpanded_append (hn : AllExpanded ns) (hm : AllExpanded ms) :
    AllExpanded (ns ++ ms) := by
  rw [allExpanded_iff] at *
  exact List.forall_mem_append.2 ⟨hn, hm⟩

end Node

/-! ### Evaluation -/

namespace Evaluation

open Node (Accepted AllAccepted)

variable {formats : Formats} {caps : CapabilitySet}

/-- The props of a tag are accepted by its widget. -/
theorem tag_accepted (t : WidgetTag) :
    Outcome (fun _ => True)
      (fun props => ∃ w, caps.get? t.name = some w ∧ w.validate props = .ok ())
      (tag formats caps t) := by
  unfold tag
  split
  · trivial
  · rename_i w known
    refine Outcome.bind_any fun props => ?_
    split
    · rename_i valid
      exact ⟨w, known, valid⟩
    · trivial

/-- What is put around accepted nodes is accepted. -/
theorem accepted_around {x : Except EvalError (List Node)} {f : List Node → Node}
    (inside : Outcome (fun _ => True) (AllAccepted caps) x)
    (around : ∀ ns, AllAccepted caps ns → Accepted caps (f ns)) :
    Outcome (fun _ => True) (Accepted caps) (do return f (← x)) :=
  inside.bind around

theorem accepted_cons {x : Except EvalError Node} {y : Except EvalError (List Node)}
    (first : Outcome (fun _ => True) (Accepted caps) x)
    (rest : Outcome (fun _ => True) (AllAccepted caps) y) :
    Outcome (fun _ => True) (AllAccepted caps) (do
      let n ← x
      return n :: (← y)) :=
  first.bind fun _ hn => rest.bind fun _ hns => ⟨hn, hns⟩

/-- What a block of an item becomes is accepted where its node is. -/
theorem accepted_itemNodes (tight : Bool) (b : Block) {n : Node} (h : Accepted caps n) :
    AllAccepted caps (itemNodes tight b n) := by
  unfold itemNodes
  split
  · split
    · exact h
    · exact ⟨h, trivial⟩
  · exact ⟨h, trivial⟩

mutual

theorem inline_accepted : (i : Inline) →
    Outcome (fun _ => True) (Accepted caps) (inline formats caps i)
  | .text _ => trivial
  | .strong children => accepted_around (inlines_accepted children) fun _ h => h
  | .emphasis children => accepted_around (inlines_accepted children) fun _ h => h
  | .strikethrough children => accepted_around (inlines_accepted children) fun _ h => h
  | .code _ => ⟨trivial, trivial⟩
  | .link _ children => accepted_around (inlines_accepted children) fun _ h => h
  | .image _ _ => trivial
  | .softBreak => trivial
  | .lineBreak => trivial
  | .widget (.mk t _ children) => (tag_accepted t).bind fun _ known =>
    accepted_around (blocks_accepted children) fun _ h => ⟨known, h⟩
  | .expression _ _ => Outcome.bind_any fun _ => trivial

theorem inlines_accepted : (is : List Inline) →
    Outcome (fun _ => True) (AllAccepted caps) (inlines formats caps is)
  | [] => trivial
  | i :: is => accepted_cons (inline_accepted i) (inlines_accepted is)

theorem block_accepted : (b : Block) →
    Outcome (fun _ => True) (Accepted caps) (block formats caps b)
  | .heading _ children _ => accepted_around (inlines_accepted children) fun _ h => h
  | .paragraph children _ => accepted_around (inlines_accepted children) fun _ h => h
  | .quote children _ => accepted_around (blocks_accepted children) fun _ h => h
  | .list _ _ tight items _ => accepted_around (listItems_accepted tight items) fun _ h => h
  | .code _ _ _ => ⟨⟨trivial, trivial⟩, trivial⟩
  | .thematicBreak _ => trivial
  | .widget t _ children => (tag_accepted t).bind fun _ known =>
    accepted_around (blocks_accepted children) fun _ h => ⟨known, h⟩

/-- In an evaluated tree every widget is known and accepts its props. -/
theorem blocks_accepted : (bs : List Block) →
    Outcome (fun _ => True) (AllAccepted caps) (blocks formats caps bs)
  | [] => trivial
  | b :: bs => accepted_cons (block_accepted b) (blocks_accepted bs)

theorem itemBlocks_accepted (tight : Bool) : (bs : List Block) →
    Outcome (fun _ => True) (AllAccepted caps) (itemBlocks formats caps tight bs)
  | [] => trivial
  | b :: bs => by
    rw [itemBlocks_cons]
    refine (block_accepted b).bind fun _ first => (itemBlocks_accepted tight bs).bind fun _ rest => ?_
    exact Node.allAccepted_append (accepted_itemNodes tight b first) rest

theorem listItem_accepted (tight : Bool) : (i : ListItem) →
    Outcome (fun _ => True) (Accepted caps) (listItem formats caps tight i)
  | .mk children _ => accepted_around (itemBlocks_accepted tight children) fun _ h => h

theorem listItems_accepted (tight : Bool) : (is : List ListItem) →
    Outcome (fun _ => True) (AllAccepted caps) (listItems formats caps tight is)
  | [] => trivial
  | i :: is => accepted_cons (listItem_accepted tight i) (listItems_accepted tight is)

end

end Evaluation

/-! ### Reliable widgets -/

/-- A widget that accepts its props renders with them around expanded children. -/
def Widget.IsReliable (w : Widget) : Prop :=
  ∀ props children, w.validate props = .ok () → Node.AllExpanded children →
    ∃ n, w.render props children = .node n ∧ n.IsExpanded

/-- All widgets of a set are reliable. -/
def CapabilitySet.IsReliable (caps : CapabilitySet) : Prop :=
  ∀ name w, caps.get? name = some w → w.IsReliable

namespace Node

variable {caps : CapabilitySet}

theorem expand_of_isReliable (reliable : caps.IsReliable) {name : String} {props : Props}
    {children : List Node} (span : Span)
    (known : ∃ w, caps.get? name = some w ∧ w.validate props = .ok ())
    (inside : AllExpanded children) :
    ∃ n, expand caps name props children span = (n, []) ∧ n.IsExpanded := by
  obtain ⟨w, found, valid⟩ := known
  obtain ⟨n, rendered, expanded⟩ := reliable name w found props children valid inside
  refine ⟨n, ?_, expanded⟩
  rw [expand, found]
  dsimp only
  rw [rendered]

mutual

theorem render_of_accepted (reliable : caps.IsReliable) : (n : Node) → Accepted caps n →
    ∃ m, render caps n = (m, []) ∧ m.IsExpanded
  | element tag attributes children, accepted => by
    obtain ⟨ms, rendered, -, expanded⟩ := renderAll_of_accepted reliable children accepted
    exact ⟨element tag attributes ms, by rw [render, rendered], expanded⟩
  | widget name props children span, ⟨known, accepted⟩ => by
    obtain ⟨ms, rendered, -, inside⟩ := renderAll_of_accepted reliable children accepted
    obtain ⟨m, made, expanded⟩ := expand_of_isReliable reliable span known inside
    exact ⟨m, by rw [render, rendered]; dsimp only; rw [made]; rfl, expanded⟩
  | text content, _ => ⟨text content, by rw [render], trivial⟩

/-- With reliable widgets, accepted nodes are expanded without a failure, each to one node. -/
theorem renderAll_of_accepted (reliable : caps.IsReliable) : (ns : List Node) →
    AllAccepted caps ns →
    ∃ ms, renderAll caps ns = (ms, []) ∧ ms.length = ns.length ∧ AllExpanded ms
  | [], _ => ⟨[], by rw [renderAll], rfl, trivial⟩
  | n :: ns, ⟨first, rest⟩ => by
    obtain ⟨m, rendered, expanded⟩ := render_of_accepted reliable n first
    obtain ⟨ms, more, length, all⟩ := renderAll_of_accepted reliable ns rest
    refine ⟨m :: ms, ?_, ?_, expanded, all⟩
    · rw [renderAll, rendered, more]
      rfl
    · rw [List.length_cons, List.length_cons, length]

end

end Node

/-! ### Stock widgets -/

namespace Builtin

open Node (IsExpanded AllExpanded)

variable {α β : Type} {props : Props} {children : List Node}

/-- Props that are read one after the other make an expanded node. -/
def Makes (r : Except WidgetError Node) : Prop :=
  ∃ n, rendering r = .node n ∧ n.IsExpanded

theorem makes_bind {x : Except WidgetError α} {f : α → Except WidgetError Node} {a : α}
    (read : x = .ok a) (rest : Makes (f a)) : Makes (x >>= f) := by
  rw [read]
  exact rest

theorem makes_pure {n : Node} (expanded : n.IsExpanded) : Makes (pure n) := ⟨n, rfl, expanded⟩

theorem allExpanded_map_toList {f : α → Node} (o : Option α) (each : ∀ a, (f a).IsExpanded) :
    AllExpanded (o.toList.map f) := by
  cases o with
  | none => trivial
  | some a => exact ⟨each a, trivial⟩

theorem callout_isReliable : callout.IsReliable := by
  intro props children valid inside
  obtain ⟨kind, kind_eq, valid⟩ := exists_of_bind_eq_ok valid
  obtain ⟨title, title_eq, -⟩ := exists_of_bind_eq_ok valid
  refine makes_bind kind_eq (makes_bind title_eq (makes_pure ?_))
  refine Node.allExpanded_append ?_ inside
  exact allExpanded_map_toList title fun _ => ⟨trivial, trivial⟩

theorem figure_isReliable : figure.IsReliable := by
  intro props children valid inside
  obtain ⟨src, src_eq, valid⟩ := exists_of_bind_eq_ok valid
  obtain ⟨caption, caption_eq, valid⟩ := exists_of_bind_eq_ok valid
  obtain ⟨width, width_eq, -⟩ := exists_of_bind_eq_ok valid
  refine makes_bind src_eq (makes_bind caption_eq (makes_bind width_eq (makes_pure ⟨trivial, ?_⟩)))
  split
  · refine ⟨Node.allExpanded_append ?_ inside, trivial⟩
    exact allExpanded_map_toList caption fun _ => trivial
  · trivial

theorem columns_isReliable : columns.IsReliable := by
  intro props children valid inside
  obtain ⟨gap, gap_eq, -⟩ := exists_of_bind_eq_ok valid
  refine makes_bind gap_eq (makes_pure (Node.allExpanded_iff.2 fun n mem => ?_))
  obtain ⟨c, among, rfl⟩ := List.mem_map.1 mem
  exact ⟨Node.allExpanded_iff.1 inside c among, trivial⟩

theorem button_isReliable : button.IsReliable := by
  intro props children valid inside
  obtain ⟨href, href_eq, valid⟩ := exists_of_bind_eq_ok valid
  obtain ⟨label, label_eq, valid⟩ := exists_of_bind_eq_ok valid
  obtain ⟨variant, variant_eq, -⟩ := exists_of_bind_eq_ok valid
  exact makes_bind variant_eq <| makes_bind href_eq <| makes_bind label_eq <|
    makes_pure ⟨trivial, trivial⟩

/-- Whether a prop is true or false can be told whatever it is taken for when it is missing. -/
theorem bool_isOk {name : String} {fallback b : Bool} (h : Props.bool props name fallback = .ok b)
    (other : Bool) : ∃ b', Props.bool props name other = .ok b' := by
  unfold Props.bool at *
  split at h
  · exact ⟨other, rfl⟩
  · exact ⟨other, rfl⟩
  · exact ⟨b, h⟩
  · cases h

theorem forM_eq_ok {f : α → Except WidgetError PUnit} {as : List α} (h : as.forM f = .ok ()) :
    ∀ a ∈ as, f a = .ok () := by
  induction as with
  | nil => exact nofun
  | cons a as ih =>
    obtain ⟨_, first, rest⟩ := exists_of_bind_eq_ok h
    exact List.forall_mem_cons.2 ⟨first, ih rest⟩

theorem filterM_isOk {f : α → Except WidgetError Bool} {as : List α}
    (each : ∀ a ∈ as, ∃ b, f a = .ok b) : ∃ kept, as.filterM f = .ok kept := by
  have collected : ∀ acc, ∃ kept, as.filterAuxM f acc = .ok kept := by
    induction as with
    | nil => exact fun acc => ⟨acc, rfl⟩
    | cons a as ih =>
      intro acc
      rw [List.forall_mem_cons] at each
      obtain ⟨b, first⟩ := each.1
      rw [List.filterAuxM, first]
      exact ih each.2 _
  obtain ⟨kept, kept_eq⟩ := collected []
  exact ⟨kept.reverse, by rw [List.filterM, kept_eq]; rfl⟩

theorem video_isReliable : video.IsReliable := by
  intro props children valid inside
  obtain ⟨src, src_eq, valid⟩ := exists_of_bind_eq_ok valid
  obtain ⟨poster, poster_eq, valid⟩ := exists_of_bind_eq_ok valid
  have given : ∀ flag ∈ videoFlags, ∃ b, Props.bool props flag.1 flag.2 = .ok b := by
    intro flag mem
    obtain ⟨b, read, -⟩ := exists_of_bind_eq_ok (forM_eq_ok valid flag mem)
    exact bool_isOk read flag.2
  obtain ⟨flags, flags_eq⟩ := filterM_isOk given
  exact makes_bind src_eq (makes_bind poster_eq (makes_bind flags_eq (makes_pure trivial)))

end Builtin

namespace Fields

variable {α : Type} {f : String × α} {fs : List (String × α)}

theorem mem_of_mem_insert {name : String} {value : α} (mem : f ∈ insert name value fs) :
    f = (name, value) ∨ f ∈ fs := by
  fun_induction insert name value fs with
  | case1 => exact .inl (List.mem_singleton.1 mem)
  | case2 k v fs before => exact List.mem_cons.1 mem
  | case3 v fs before => exact (List.mem_cons.1 mem).imp_right (List.mem_cons_of_mem _)
  | case4 k v fs before other ih =>
    rcases List.mem_cons.1 mem with rfl | mem
    · exact .inr List.mem_cons_self
    · exact (ih mem).imp_right (List.mem_cons_of_mem _)

theorem mem_of_get?_eq_some {name : String} {value : α} (h : get? name fs = some value) :
    (name, value) ∈ fs := by
  fun_induction get? name fs with
  | case1 => cases h
  | case2 => cases h; exact List.mem_cons_self
  | case3 k v fs other ih => exact List.mem_cons_of_mem _ (ih h)

/-- Fields that are collected are among those given. -/
theorem mem_of_mem_ofList (mem : f ∈ ofList fs) : f ∈ fs := by
  have collected : ∀ acc : Fields α,
      f ∈ fs.foldl (fun acc g => insert g.1 g.2 acc) acc → f ∈ acc ∨ f ∈ fs := by
    clear mem
    induction fs with
    | nil => exact fun acc mem => .inl mem
    | cons g fs ih =>
      intro acc mem
      rcases ih _ mem with mem | mem
      · rcases mem_of_mem_insert mem with rfl | mem
        · exact .inr List.mem_cons_self
        · exact .inl mem
      · exact .inr (List.mem_cons_of_mem _ mem)
  rcases collected [] mem with mem | mem
  · cases mem
  · exact mem

end Fields

/-- The stock widgets are reliable. -/
theorem CapabilitySet.builtins_isReliable : builtins.IsReliable := by
  intro name w found
  obtain ⟨w', mem, eq⟩ :=
    List.mem_map.1 (Fields.mem_of_mem_ofList (Fields.mem_of_get?_eq_some found))
  cases eq
  simp only [Builtin.all, List.mem_cons, List.not_mem_nil, or_false] at mem
  rcases mem with rfl | rfl | rfl | rfl | rfl
  · exact Builtin.button_isReliable
  · exact Builtin.callout_isReliable
  · exact Builtin.columns_isReliable
  · exact Builtin.figure_isReliable
  · exact Builtin.video_isReliable

/-! ### Compiled trees -/

/-- With reliable widgets, an accepted tree renders without a failure. -/
theorem Tree.render_of_accepted {caps : CapabilitySet} (reliable : caps.IsReliable) {t : Tree}
    (accepted : Node.AllAccepted caps t.nodes) :
    (t.render caps).failures = [] ∧ (t.render caps).nodes.length = t.nodes.length ∧
      Node.AllExpanded (t.render caps).nodes := by
  obtain ⟨ns, rendered, length, expanded⟩ := Node.renderAll_of_accepted reliable t.nodes accepted
  rw [Tree.render, rendered]
  exact ⟨rfl, length, expanded⟩

/-- In a compiled tree every widget is known and accepts its props. -/
theorem accepted_of_compile_eq_tree {formats : Formats} {caps : CapabilitySet} {source : Text}
    {t : Tree} (compiled : compile formats caps source = .tree t) :
    Node.AllAccepted caps t.nodes := by
  unfold compile at compiled
  dsimp only at compiled
  split at compiled
  · cases compiled
  · cases compiled
  · rename_i d read
    have outcome : Outcome (fun _ => True) (fun t : Tree => Node.AllAccepted caps t.nodes)
        (d.evaluate formats caps) :=
      (Evaluation.blocks_accepted d.blocks).bind fun _ accepted => accepted
    split at compiled
    · cases compiled
    · rename_i t' evaluated
      rw [evaluated] at outcome
      cases compiled
      exact outcome

/-- What compiles with the stock widgets renders without a failure, node by node, to elements and
texts. -/
theorem expanded_of_compile_eq_tree {formats : Formats} {source : Text} {t : Tree}
    (compiled : compile formats .builtins source = .tree t) :
    (t.render .builtins).failures = [] ∧
      (t.render .builtins).nodes.length = t.nodes.length ∧
      Node.AllExpanded (t.render .builtins).nodes :=
  Tree.render_of_accepted CapabilitySet.builtins_isReliable (accepted_of_compile_eq_tree compiled)

/-- A note in a quote. -/
theorem expanded_of_compile_eq_tree_callout :
    let formats : Formats := { json := fun _ => .ok .null, yaml := fun _ => .ok .null }
    let source : Text := "> <Callout kind=\"tip\">\n> a\n> </Callout>".toList
    let tree : Tree := {
      nodes := [.el "blockquote" [.widget "Callout" [("kind", .string "tip")]
        [.el "p" [.text "a"]] ⟨2, 39⟩]]
      metadata := none }
    compile formats .builtins source = .tree tree ∧
      (tree.render .builtins).failures = [] ∧
      Node.AllExpanded (tree.render .builtins).nodes := by
  intro formats source tree
  have nothing : Declaration.scan source = [] := by decide
  let t : WidgetTag :=
    { name := "Callout", props := [{ name := "kind", value := .string "tip", span := ⟨11, 21⟩ }],
      span := ⟨2, 39⟩ }
  let blocks : List Block := [.quote [.widget t false [.paragraph [.text "a"] ⟨25, 26⟩]] ⟨0, 39⟩]
  have read : Block.parse maxNesting [] (Region.root source) = .ok blocks := by
    unfold source blocks t
    rfl
  have accepted : Evaluation.tag formats .builtins t = .ok [("kind", .string "tip")] := by
    unfold formats t
    rfl
  have evaluated : Evaluation.blocks formats .builtins blocks = .ok tree.nodes := by
    simp only [blocks, Evaluation.blocks, Evaluation.block, Evaluation.inlines, Evaluation.inline,
      accepted]
    rfl
  have compiled : compile formats .builtins source = .tree tree := by
    have stripped : strip source = source := by decide
    have document : Document.parse formats source =
        .ok { metadata := none, imports := [], blocks } := by
      rw [Document.parse_of_scan_eq_nil nothing, read]
      rfl
    have extracted : Metadata.extract formats source = .ok none := by
      rw [Metadata.extract, nothing]
      rfl
    have tree_eq : Document.evaluate formats .builtins { metadata := none, imports := [], blocks } =
        .ok tree := by
      rw [Document.evaluate, evaluated]
      rfl
    rw [compile, stripped, document, extracted]
    dsimp only
    rw [tree_eq]
    rfl
  obtain ⟨failures, -, expanded⟩ := expanded_of_compile_eq_tree compiled
  exact ⟨compiled, failures, expanded⟩

end Folio
