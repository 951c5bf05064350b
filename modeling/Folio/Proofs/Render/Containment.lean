import Folio.Render.Boundary

/-!
# Failures are contained

A widget that fails is rendered to an error node and reports its failure, and nothing around it can
tell: the nodes around it are rendered as they are around this error node, and report the failures that
they report there. What stands around a node of a tree is a `Spot`, a tree with a gap in it. Main
statements:

* `Node.renderAll_fill`: a filled spot is rendered from what its gap is rendered to;
* `Node.render_of_fails`: a widget that fails is rendered to its error node;
* `Tree.render_fill_of_fails`: rendering with the widget and with its error node compared.
-/

namespace Folio

namespace Node

variable {caps : CapabilitySet} {name : String} {props : Props} {children ns ms : List Node}
  {message : String} {span : Span} {n : Node}

/-! ### Widgets that fail -/

/-- A widget with rendered children fails with a message: it is not known, or it refuses to render or
breaks down. -/
inductive Fails (caps : CapabilitySet) (name : String) (props : Props) (children : List Node) :
    String → Prop
  | unknown (missing : caps.get? name = none) :
      Fails caps name props children s!"unknown widget <{name}>"
  | refused {w : Widget} {e : WidgetError} (known : caps.get? name = some w)
      (failed : w.render props children = .failed e) : Fails caps name props children e.message
  | broken {w : Widget} {message : Option String} (known : caps.get? name = some w)
      (broken : w.render props children = .broken message) :
      Fails caps name props children (message.getD "widget panicked")

theorem expand_of_fails (fails : Fails caps name props children message) (span : Span) :
    expand caps name props children span =
      (ofFailure { widget := name, message, span }, [{ widget := name, message, span }]) := by
  cases fails with
  | unknown missing => simp [expand, missing]
  | refused known failed => simp [expand, known, failed]
  | broken known broken => simp [expand, known, broken]

/-- A widget that fails on its rendered children is rendered to its error node. The failures in its body
come before its own. -/
theorem render_of_fails (fails : Fails caps name props (renderAll caps children).1 message)
    (span : Span) :
    render caps (.widget name props children span) =
      (ofFailure { widget := name, message, span },
        (renderAll caps children).2 ++ [{ widget := name, message, span }]) := by
  simp [render, expand_of_fails fails]

/-! ### Spots -/

/-- A tree with a gap: among some nodes, in an element, or in the body of a widget. -/
inductive Spot
  | among (before after : List Node)
  | element (before : List Node) (tag : String) (attributes : List (String × String)) (inside : Spot)
      (after : List Node)
  | widget (before : List Node) (name : String) (props : List (String × Json)) (inside : Spot)
      (span : Span) (after : List Node)

namespace Spot

/-- The tree with a node in the gap. -/
def fill : Spot → Node → List Node
  | among before after, n => before ++ n :: after
  | element before tag attributes inside after, n =>
    before ++ .element tag attributes (inside.fill n) :: after
  | widget before name props inside span after, n =>
    before ++ .widget name props (inside.fill n) span :: after

/-- The rendered tree, when a rendered node is in the gap. -/
def rendered (caps : CapabilitySet) : Spot → Node → List Node
  | among before after, m => (renderAll caps before).1 ++ m :: (renderAll caps after).1
  | element before tag attributes inside after, m =>
    (renderAll caps before).1 ++
      .element tag attributes (inside.rendered caps m) :: (renderAll caps after).1
  | widget before name props inside span after, m =>
    (renderAll caps before).1 ++
      (expand caps name props (inside.rendered caps m) span).1 :: (renderAll caps after).1

/-- The failures of the nodes that are read before the gap. -/
def failuresBefore (caps : CapabilitySet) : Spot → List RenderFailure
  | among before _ => (renderAll caps before).2
  | element before _ _ inside _ => (renderAll caps before).2 ++ inside.failuresBefore caps
  | widget before _ _ inside _ _ => (renderAll caps before).2 ++ inside.failuresBefore caps

/-- The failures that come after those of the gap: of the nodes that are read after it, and of the
widgets that it lies in, which are given what it is rendered to. -/
def failuresAfter (caps : CapabilitySet) : Spot → Node → List RenderFailure
  | among _ after, _ => (renderAll caps after).2
  | element _ _ _ inside after, m => inside.failuresAfter caps m ++ (renderAll caps after).2
  | widget _ name props inside span after, m =>
    inside.failuresAfter caps m ++
      (expand caps name props (inside.rendered caps m) span).2 ++ (renderAll caps after).2

end Spot

/-! ### Rendering around a gap -/

theorem renderAll_append (caps : CapabilitySet) (ns ms : List Node) :
    renderAll caps (ns ++ ms) =
      ((renderAll caps ns).1 ++ (renderAll caps ms).1,
        (renderAll caps ns).2 ++ (renderAll caps ms).2) := by
  induction ns with
  | nil => simp [renderAll]
  | cons n ns ih => simp [renderAll, ih]

/-- A node among others is rendered by itself, and its failures stand among theirs. -/
theorem renderAll_around (caps : CapabilitySet) (before : List Node) (n : Node) (after : List Node) :
    renderAll caps (before ++ n :: after) =
      ((renderAll caps before).1 ++ (render caps n).1 :: (renderAll caps after).1,
        (renderAll caps before).2 ++ (render caps n).2 ++ (renderAll caps after).2) := by
  simp [renderAll_append, renderAll]

/-- **Around a gap.** What a node in a spot is rendered to is all that the nodes around it see of it,
and its failures are one block among theirs. -/
theorem renderAll_fill (caps : CapabilitySet) (spot : Spot) (n : Node) :
    renderAll caps (spot.fill n) =
      (spot.rendered caps (render caps n).1,
        spot.failuresBefore caps ++ (render caps n).2 ++ spot.failuresAfter caps (render caps n).1) := by
  induction spot with
  | among before after => exact renderAll_around caps before n after
  | element before tag attributes inside after ih =>
    simp [Spot.fill, renderAll_around, render, ih, Spot.rendered, Spot.failuresBefore,
      Spot.failuresAfter]
  | widget before name props inside span after ih =>
    simp [Spot.fill, renderAll_around, render, ih, Spot.rendered, Spot.failuresBefore,
      Spot.failuresAfter]

end Node

open Node (Fails Spot renderAll)

/-- **A failing widget is contained.** Let a widget fail on its rendered children, anywhere in a tree. The
tree is rendered to the same nodes as when the widget is replaced by an error node with the widget's
failure and its span. The failures are those of the tree with the error node, and in one block among
them, after those of what is read before the widget, the failures in the widget's body and then its
own. -/
theorem Tree.render_fill_of_fails {caps : CapabilitySet} {name : String} {props : Props}
    {children : List Node} {message : String} (spot : Spot) (metadata : Option Metadata) (span : Span)
    (fails : Fails caps name props (renderAll caps children).1 message) :
    let given : Tree := { nodes := spot.fill (.widget name props children span), metadata }
    let replaced : Tree :=
      { nodes := spot.fill (.error s!"<{name}> failed to render: {message}" (some span)), metadata }
    (given.render caps).nodes = (replaced.render caps).nodes ∧
      (given.render caps).metadata = (replaced.render caps).metadata ∧
      ∃ after, (replaced.render caps).failures = spot.failuresBefore caps ++ after ∧
        (given.render caps).failures =
          spot.failuresBefore caps ++
            ((renderAll caps children).2 ++ [{ widget := name, message, span }]) ++ after := by
  intro given replaced
  have around := Node.renderAll_fill caps spot (.widget name props children span)
  rw [Node.render_of_fails fails] at around
  have around' := Node.renderAll_fill caps spot
    (.error s!"<{name}> failed to render: {message}" (some span))
  rw [Node.render] at around'
  refine ⟨?_, rfl, spot.failuresAfter caps (Node.ofFailure { widget := name, message, span }), ?_, ?_⟩
  · simp only [Tree.render, given, replaced, around, around']
    rfl
  · simp only [Tree.render, replaced, around', List.append_nil]
    rfl
  · simp only [Tree.render, given, around]

/-- A widget that turns its children around, and one that breaks down when it has children. -/
def CapabilitySet.flipAndEmpty : CapabilitySet where
  widgets :=
    [("Empty", {
        name := "Empty", describe := "", template := "", validate := fun _ => .ok ()
        render := fun _ children => if children.isEmpty then .node (.text "") else .broken none }),
      ("Flip", {
        name := "Flip", describe := "", template := "", validate := fun _ => .ok ()
        render := fun _ children => .node (.el "div" children.reverse) })]

/-- A widget that breaks down on the error node of a widget that is not known, in a widget that turns its
children around and holds another one that is not known. -/
theorem Tree.render_fill_of_fails_flipped :
    Fails .flipAndEmpty "Empty" [] (renderAll .flipAndEmpty [.widget "A" [] [] ⟨7, 12⟩]).1
        "widget panicked" ∧
      (Tree.render { nodes := [.widget "Flip" [] [.widget "Empty" [] [.widget "A" [] [] ⟨7, 12⟩] ⟨6, 20⟩,
          .widget "B" [] [] ⟨20, 25⟩] ⟨0, 30⟩], metadata := none } .flipAndEmpty).nodes =
        [.el "div" [.error "<B> failed to render: unknown widget <B>" (some ⟨20, 25⟩),
          .error "<Empty> failed to render: widget panicked" (some ⟨6, 20⟩)]] ∧
      ∃ after, (Tree.render { nodes := [.widget "Flip" [] [.widget "Empty" [] [.widget "A" [] [] ⟨7, 12⟩]
          ⟨6, 20⟩, .widget "B" [] [] ⟨20, 25⟩] ⟨0, 30⟩], metadata := none } .flipAndEmpty).failures =
        { widget := "A", message := "unknown widget <A>", span := ⟨7, 12⟩ } ::
          { widget := "Empty", message := "widget panicked", span := ⟨6, 20⟩ } :: after := by
  have fails : Fails .flipAndEmpty "Empty" [] (renderAll .flipAndEmpty [.widget "A" [] [] ⟨7, 12⟩]).1
      "widget panicked" := @Fails.broken _ _ _ _ _ none rfl rfl
  obtain ⟨nodes, -, after, -, failures⟩ := Tree.render_fill_of_fails
    (.widget [] "Flip" [] (.among [] [.widget "B" [] [] ⟨20, 25⟩]) ⟨0, 30⟩ []) none ⟨6, 20⟩ fails
  exact ⟨fails, nodes, after, failures⟩

end Folio
