import Folio.Json.Printer
import Folio.Markup.Metadata
import Folio.Render.Widget
import Folio.Text.Blank

/-!
# Evaluation

A document is evaluated to a render tree with a set of capabilities. Expressions must be JSON
literals, and widgets must be known and accept their props. The first offence in document order is
the error of the whole document.
-/

namespace Folio

/-- Why a document cannot be evaluated. -/
inductive EvalFault
  | unknownCapability (name : String)
  | invalidProps (name message : String)
  | unsupportedExpression (source : String)
  deriving DecidableEq, Repr

/-- A fault and the span of the construct that it is found in. -/
structure EvalError where
  span : Span
  fault : EvalFault
  deriving DecidableEq, Repr

/-- How a span is shown in a message. -/
def Span.describe (s : Span) : String := s!"Span \x7b start: {s.start}, end: {s.stop} \x7d"

/-- The error's message. -/
def EvalError.message (e : EvalError) : String :=
  let place := e.span.describe
  match e.fault with
  | .unknownCapability name => s!"Unknown widget <{name}> at {place}"
  | .invalidProps name message => s!"Invalid props for <{name}> at {place}: {message}"
  | .unsupportedExpression source =>
    s!"Unsupported expression `{source}` at {place}: only JSON literals are allowed"

/-- The text that a value shows in prose. -/
def Json.display : Json → String
  | null => ""
  | string s => s
  | v => v.compact

namespace Evaluation

variable (formats : Formats) (caps : CapabilitySet)

/-- The value of an expression. -/
def expression (source : String) (span : Span) : Except EvalError Json :=
  match formats.json source.toList with
  | .ok v => .ok v
  | .error _ => .error { span, fault := .unsupportedExpression source }

/-- The value of a prop. -/
def propValue (p : WidgetProp) : Except EvalError Json :=
  match p.value with
  | .string s => .ok (.string s)
  | .expression source => expression formats source p.span
  | .flag => .ok (.bool true)

/-- Adds the props of the widget `name` to those before them; none may be given twice. -/
def addProps (name : String) : Props → List WidgetProp → Except EvalError Props
  | props, [] => .ok props
  | props, p :: ps => do
    let value ← propValue formats p
    if Fields.contains p.name props then
      .error { span := p.span, fault := .invalidProps name s!"prop '{p.name}' is given more than once" }
    else addProps name (Fields.insert p.name value props) ps

/-- The props of a tag, accepted by the widget that it refers to. -/
def tag (t : WidgetTag) : Except EvalError Props := do
  match caps.get? t.name with
  | none => .error { span := t.span, fault := .unknownCapability t.name }
  | some w =>
    let props ← addProps formats t.name [] t.props
    match w.validate props with
    | .ok () => return props
    | .error e => .error { span := t.span, fault := .invalidProps t.name e.message }

/-- The attributes of a list: an ordered one that does not start at one says where it starts. -/
def listAttributes (ordered : Bool) (start : Option Nat) : List (String × String) :=
  match start with
  | some n => if ordered && n != 1 then [("start", toString n)] else []
  | none => []

/-- The attributes of code: the first word of its info string names its language. -/
def codeAttributes (info : Option String) : List (String × String) :=
  match info.bind fun i => (Text.words i.toList).head? with
  | some language => [("class", "language-" ++ String.ofList language)]
  | none => []

mutual

/-- The node of inline content. -/
def inline : Inline → Except EvalError Node
  | .text value => .ok (.text value)
  | .strong children => do return .el "strong" (← inlines children)
  | .emphasis children => do return .el "em" (← inlines children)
  | .strikethrough children => do return .el "del" (← inlines children)
  | .code value => .ok (.el "code" [.text value])
  | .link href children => do return .element "a" [("href", href)] (← inlines children)
  | .image src alt => .ok (.element "img" [("alt", alt), ("src", src)] [])
  | .softBreak => .ok (.text "\n")
  | .lineBreak => .ok (.el "br" [])
  | .widget (.mk t _ children) => do
    let props ← tag formats caps t
    return .widget t.name props (← blocks children) t.span
  | .expression source span => do return .text (← expression formats source span).display

/-- The nodes of inline content. -/
def inlines : List Inline → Except EvalError (List Node)
  | [] => .ok []
  | i :: is => do
    let n ← inline i
    return n :: (← inlines is)

/-- The node of a block. -/
def block : Block → Except EvalError Node
  | .heading level children _ => do return .el s!"h{level}" (← inlines children)
  | .paragraph children _ => do return .el "p" (← inlines children)
  | .quote children _ => do return .el "blockquote" (← blocks children)
  | .list ordered start tight items _ => do
    return .element (if ordered then "ol" else "ul") (listAttributes ordered start)
      (← listItems tight items)
  | .code info code _ => .ok (.el "pre" [.element "code" (codeAttributes info) [.text code]])
  | .thematicBreak _ => .ok (.el "hr" [])
  | .widget t _ children => do
    let props ← tag formats caps t
    return .widget t.name props (← blocks children) t.span

/-- The nodes of blocks. -/
def blocks : List Block → Except EvalError (List Node)
  | [] => .ok []
  | b :: bs => do
    let n ← block b
    return n :: (← blocks bs)

/-- The nodes of the blocks of an item. The text of a tight list has no paragraphs around it. -/
def itemBlocks (tight : Bool) : List Block → Except EvalError (List Node)
  | [] => .ok []
  | .paragraph children _ :: bs => do
    let ns ← inlines children
    return (if tight then ns else [.el "p" ns]) ++ (← itemBlocks tight bs)
  | b :: bs => do
    let n ← block b
    return n :: (← itemBlocks tight bs)

/-- The node of a list item. -/
def listItem (tight : Bool) : ListItem → Except EvalError Node
  | .mk children _ => do return .el "li" (← itemBlocks tight children)

/-- The nodes of list items. -/
def listItems (tight : Bool) : List ListItem → Except EvalError (List Node)
  | [] => .ok []
  | i :: is => do
    let n ← listItem tight i
    return n :: (← listItems tight is)

end

/-- The nodes of a block of an item, from the node that the block has elsewhere. -/
def itemNodes (tight : Bool) : Block → Node → List Node
  | .paragraph _ _, .element name attributes ns =>
    if tight then ns else [.element name attributes ns]
  | _, n => [n]

theorem itemBlocks_cons (tight : Bool) (b : Block) (bs : List Block) :
    itemBlocks formats caps tight (b :: bs) = do
      let n ← block formats caps b
      return itemNodes tight b n ++ (← itemBlocks formats caps tight bs) := by
  cases b <;> simp only [itemBlocks, block, itemNodes, Node.el, bind_assoc, pure_bind,
    List.singleton_append]

end Evaluation

/-- The render tree of a document. -/
def Document.evaluate (formats : Formats) (caps : CapabilitySet) (d : Document) :
    Except EvalError Tree := do
  return { nodes := ← Evaluation.blocks formats caps d.blocks, metadata := d.metadata }

end Folio
