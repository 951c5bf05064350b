import Folio.Render.Boundary

/-!
# Render trees as JSON

How nodes, metadata and rendered documents are written for other programs. Every node says its
type first.
-/

namespace Folio

/-- A span as its two offsets. -/
def Span.toJson (s : Span) : Json :=
  .object [("start", .integer s.start), ("end", .integer s.stop)]

/-- Metadata with the form in which it was written. -/
def Metadata.toJson (m : Metadata) : Json :=
  let format :=
    match m.format with
    | .frontMatter => "FrontMatter"
    | .exported => "Export"
  .object [("format", .string format), ("fields", .object m.fields), ("span", m.span.toJson)]

namespace Node

mutual

/-- A node. -/
def toJson : Node → Json
  | element tag attributes children =>
    .object [("type", .string "Element"), ("tag", .string tag),
      ("attributes", .object (attributes.map fun (name, value) => (name, .string value))),
      ("children", .array (toJsonAll children))]
  | text content => .object [("type", .string "Text"), ("content", .string content)]
  | widget name props children span =>
    .object [("type", .string "Widget"), ("name", .string name), ("props", .object props),
      ("children", .array (toJsonAll children)), ("span", span.toJson)]
  | error message span =>
    .object ([("type", .string "Error"), ("message", .string message)] ++
      span.toList.map fun s => ("span", s.toJson))

/-- Some nodes. -/
def toJsonAll : List Node → List Json
  | [] => []
  | n :: ns => toJson n :: toJsonAll ns

end

/-- The members that show some nodes and the metadata that belong to them, if there is any. -/
def members (nodes : List Node) (metadata : Option Metadata) : List (String × Json) :=
  ("nodes", .array (toJsonAll nodes)) :: metadata.toList.map fun m => ("metadata", m.toJson)

end Node

/-- A failure. -/
def RenderFailure.toJson (f : RenderFailure) : Json :=
  .object [("widget", .string f.widget), ("message", .string f.message), ("span", f.span.toJson)]

/-- A compiled tree. -/
def Tree.toJson (t : Tree) : Json := .object (Node.members t.nodes t.metadata)

/-- A rendered document. -/
def Rendered.toJson (r : Rendered) : Json :=
  .object (Node.members r.nodes r.metadata ++
    [("failures", .array (r.failures.map RenderFailure.toJson))])

end Folio
