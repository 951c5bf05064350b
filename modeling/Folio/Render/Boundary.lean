import Folio.Render.Widget

/-!
# Rendering

A compiled tree is rendered by expanding its widgets, innermost first. A widget that is unknown,
fails or breaks down becomes a single error node, and everything around it still renders.
-/

namespace Folio

/-- A widget that failed to render. -/
structure RenderFailure where
  widget : String
  message : String
  span : Span
  deriving DecidableEq, Repr

/-- A rendered document: elements, texts and errors, and the failures in document order. -/
structure Rendered where
  nodes : List Node
  metadata : Option Metadata
  failures : List RenderFailure
  deriving Repr

/-- The title of a rendered document. -/
def Rendered.title? (r : Rendered) : Option String := r.metadata.bind (·.title?)

namespace Node

/-- The node that stands for a widget that failed. -/
def ofFailure (f : RenderFailure) : Node :=
  .error s!"<{f.widget}> failed to render: {f.message}" (some f.span)

/-- Expands a widget with rendered children. -/
def expand (caps : CapabilitySet) (name : String) (props : Props) (children : List Node)
    (span : Span) : Node × List RenderFailure :=
  let contain (message : String) : Node × List RenderFailure :=
    let failure : RenderFailure := { widget := name, message, span }
    (ofFailure failure, [failure])
  match caps.get? name with
  | none => contain s!"unknown widget <{name}>"
  | some w =>
    match w.render props children with
    | .node n => (n, [])
    | .failed e => contain e.message
    | .broken message => contain (message.getD "widget panicked")

mutual

/-- A node with its widgets expanded, and the failures met on the way. -/
def render (caps : CapabilitySet) : Node → Node × List RenderFailure
  | element tag attributes children =>
    let (children, failures) := renderAll caps children
    (element tag attributes children, failures)
  | widget name props children span =>
    let (children, inner) := renderAll caps children
    let (node, own) := expand caps name props children span
    (node, inner ++ own)
  | text content => (text content, [])
  | error message span => (error message span, [])

/-- Nodes with their widgets expanded, and the failures met on the way. -/
def renderAll (caps : CapabilitySet) : List Node → List Node × List RenderFailure
  | [] => ([], [])
  | n :: ns =>
    let (n, failures) := render caps n
    let (ns, more) := renderAll caps ns
    (n :: ns, failures ++ more)

end

end Node

/-- Renders a compiled tree. -/
def Tree.render (t : Tree) (caps : CapabilitySet) : Rendered :=
  let (nodes, failures) := Node.renderAll caps t.nodes
  { nodes, metadata := t.metadata, failures }

end Folio
