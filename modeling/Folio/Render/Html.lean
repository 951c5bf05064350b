import Folio.Render.Boundary

/-!
# HTML

Rendered documents are written as HTML: a fragment with one node a line, or a page with a title.
Text and attribute values are escaped, so that nothing in them can be taken for markup.
-/

namespace Folio.Html

/-- A character in text. -/
def escapeChar (c : Char) : Text :=
  if c == '&' then "&amp;".toList
  else if c == '<' then "&lt;".toList
  else if c == '>' then "&gt;".toList
  else [c]

/-- A character in an attribute value. -/
def escapeAttributeChar (c : Char) : Text :=
  if c == '"' then "&quot;".toList else escapeChar c

/-- Text without markup characters. -/
def escape (s : String) : String := String.ofList (s.toList.flatMap escapeChar)

/-- An attribute value without markup characters and quotes. -/
def escapeAttribute (s : String) : String := String.ofList (s.toList.flatMap escapeAttributeChar)

/-- The elements without content or closing tag. -/
def voidElements : List String := ["br", "hr", "img", "input", "source", "track", "wbr"]

/-- An attribute; an empty value is left out. -/
def attributeText (name value : String) : String :=
  if value.isEmpty then " " ++ name else " " ++ name ++ "=\"" ++ escapeAttribute value ++ "\""

/-- The attributes of an element. -/
def attributes : List (String × String) → String
  | [] => ""
  | (name, value) :: more => attributeText name value ++ attributes more

/-- A note that stands for something that is not shown. -/
def alert (content : String) : String :=
  "<div class=\"scribe-error\" role=\"alert\">" ++ content ++ "</div>"

mutual

/-- A node. -/
def node : Node → String
  | .element tag attrs children =>
    let opening := "<" ++ tag ++ attributes attrs ++ ">"
    if voidElements.contains tag then opening
    else opening ++ nodes children ++ "</" ++ tag ++ ">"
  | .text content => escape content
  | .error message _ => alert (escape message)
  | .widget name _ _ _ => alert ("unrendered widget &lt;" ++ escape name ++ "&gt;")

/-- Nodes one after the other. -/
def nodes : List Node → String
  | [] => ""
  | n :: ns => node n ++ nodes ns

end

/-- Nodes, each on a line. -/
def lines : List Node → String
  | [] => ""
  | n :: ns => node n ++ "\n" ++ lines ns

/-- A rendered document as a fragment. -/
def fragment (r : Rendered) : String := lines r.nodes

/-- A rendered document as a page. -/
def page (r : Rendered) : String :=
  "<!DOCTYPE html>\n<html>\n<head>\n<meta charset=\"utf-8\">\n<title>" ++
    escape (r.title?.getD "Untitled") ++ "</title>\n</head>\n<body>\n" ++ fragment r ++
    "</body>\n</html>\n"

end Folio.Html
