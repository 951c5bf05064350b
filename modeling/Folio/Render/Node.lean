import Folio.Markup.Document

/-!
# Render trees

What a document shows: elements, texts and references to widgets, which are expanded when the tree
is rendered. Attributes and props are in the order of their names.
-/

namespace Folio

/-- The values of a widget's props. -/
abbrev Props := Fields Json

/-- A node of a render tree. -/
inductive Node
  | element (tag : String) (attributes : List (String × String)) (children : List Node)
  | text (content : String)
  | widget (name : String) (props : List (String × Json)) (children : List Node) (span : Span)
  | error (message : String) (span : Option Span)
  deriving Repr, Inhabited

namespace Node

/-- An element without attributes. -/
def el (tag : String) (children : List Node) : Node := element tag [] children

/-- Sets an attribute of an element; any other node stays as it is. -/
def withAttribute (name value : String) : Node → Node
  | element tag attributes children => element tag (Fields.insert name value attributes) children
  | n => n

/-- Adds children to an element; any other node stays as it is. -/
def withChildren (more : List Node) : Node → Node
  | element tag attributes children => element tag attributes (children ++ more)
  | n => n

/-- Whether a node stands for a failure. -/
def isError : Node → Bool
  | error _ _ => true
  | _ => false

mutual

/-- The number of nodes with a property, a node and all below it. -/
def count (p : Node → Bool) : Node → Nat
  | element tag attributes children =>
    (p (element tag attributes children)).toNat + countAll p children
  | widget name props children span =>
    (p (widget name props children span)).toNat + countAll p children
  | n => (p n).toNat

/-- The number of nodes with a property among some nodes and all below them. -/
def countAll (p : Node → Bool) : List Node → Nat
  | [] => 0
  | n :: ns => count p n + countAll p ns

end

mutual

/-- The names of the widgets that a node refers to, in document order. -/
def widgetNames : Node → List String
  | element _ _ children => widgetNamesAll children
  | widget name _ children _ => name :: widgetNamesAll children
  | text _ => []
  | error _ _ => []

/-- The names of the widgets that some nodes refer to, in document order. -/
def widgetNamesAll : List Node → List String
  | [] => []
  | n :: ns => widgetNames n ++ widgetNamesAll ns

end

end Node

/-- A compiled document: its nodes, with widgets not yet expanded, and its metadata. -/
structure Tree where
  nodes : List Node
  metadata : Option Metadata
  deriving Repr

/-- The title of a tree. -/
def Tree.title? (t : Tree) : Option String := t.metadata.bind (·.title?)

end Folio
