import Folio.Render.Widget

/-!
# Stock widgets

Button, Callout, Columns, Figure and Video, which every document may use unless its capabilities
say otherwise.
-/

namespace Folio.Builtin

/-- Renders with props that are read one after the other. -/
def rendering (r : Except WidgetError Node) : Rendering :=
  match r with
  | .ok n => .node n
  | .error e => .failed e

/-- A number as the value of an attribute; zero has no sign. -/
def numberText (x : Float) : String := if x == 0 then "0" else Decimal.positional x

/-- The kinds of callouts. -/
def calloutKinds : List String := ["info", "tip", "warning", "danger"]

/-- A note box, with or without a title. -/
def callout : Widget where
  name := "Callout"
  describe := "Highlighted note with an optional title"
  template := "<Callout kind=\"info\">\n  Your note here.\n</Callout>\n"
  validate props := do
    let _ ← Props.choice props "kind" calloutKinds "info"
    let _ ← Props.string? props "title"
  render props children := rendering do
    let kind ← Props.choice props "kind" calloutKinds "info"
    let title ← Props.string? props "title"
    let heading := title.toList.map fun t =>
      Node.element "p" [("class", "callout-title")] [.text t]
    return .element "aside" [("class", s!"callout callout-{kind}"), ("role", "note")]
      (heading ++ children)

/-- An image with a caption. -/
def figure : Widget where
  name := "Figure"
  describe := "Image with a caption"
  template := "<Figure src=\"/images/example.png\" caption=\"Caption\" />\n"
  validate props := do
    let _ ← Props.string props "src"
    let _ ← Props.string? props "caption"
    let _ ← Props.number? props "width"
  render props children := rendering do
    let src ← Props.string props "src"
    let caption ← Props.string? props "caption"
    let width ← Props.number? props "width"
    let size := width.toList.map fun w => ("width", numberText w)
    let image := Node.element "img" ([("alt", caption.getD ""), ("src", src)] ++ size) []
    let legend :=
      if caption.isSome || !children.isEmpty then
        [Node.el "figcaption" (caption.toList.map Node.text ++ children)]
      else []
    return .el "figure" (image :: legend)

/-- The flags of a video, with their values when not given. -/
def videoFlags : List (String × Bool) :=
  [("autoplay", false), ("controls", true), ("loop", false), ("muted", false)]

/-- A video player. -/
def video : Widget where
  name := "Video"
  describe := "Embedded video player"
  template := "<Video src=\"/videos/example.mp4\" controls />\n"
  validate props := do
    let _ ← Props.string props "src"
    let _ ← Props.string? props "poster"
    videoFlags.forM fun (flag, _) => do let _ ← Props.bool props flag false
  render props _ := rendering do
    let src ← Props.string props "src"
    let poster ← Props.string? props "poster"
    let flags ← videoFlags.filterM fun (flag, fallback) => Props.bool props flag fallback
    let given := [("src", src)] ++ poster.toList.map (("poster", ·))
    return .element "video" (Fields.ofList (given ++ flags.map fun (flag, _) => (flag, ""))) []

/-- Blocks side by side. -/
def columns : Widget where
  name := "Columns"
  describe := "Lay out body blocks side by side"
  template := "<Columns>\n\nLeft column\n\nRight column\n\n</Columns>\n"
  validate props := do
    match ← Props.number? props "gap" with
    | some gap => if gap < 0 then throw (.invalidProp "gap" "must not be negative")
    | none => return
  render props children := rendering do
    let gap ← Props.number? props "gap"
    let style := gap.toList.map fun g => ("style", s!"gap: {numberText g}px")
    return .element "div" (("class", "columns") :: style)
      (children.map fun c => .element "div" [("class", "column")] [c])

/-- The variants of buttons. -/
def buttonVariants : List String := ["primary", "secondary"]

/-- A link that looks like a button. -/
def button : Widget where
  name := "Button"
  describe := "Link styled as a button"
  template := "<Button href=\"https://example.com\" label=\"Learn more\" />\n"
  validate props := do
    let _ ← Props.string props "href"
    let _ ← Props.string props "label"
    let _ ← Props.choice props "variant" buttonVariants "primary"
  render props _ := rendering do
    let variant ← Props.choice props "variant" buttonVariants "primary"
    let href ← Props.string props "href"
    let label ← Props.string props "label"
    return .element "a" [("class", s!"button button-{variant}"), ("href", href)] [.text label]

/-- All stock widgets. -/
def all : List Widget := [button, callout, columns, figure, video]

end Folio.Builtin

namespace Folio

/-- A registry with the stock widgets. -/
def Registry.builtins : Registry :=
  { widgets := Fields.ofList (Builtin.all.map fun w => (w.name, w)) }

/-- The stock widgets. -/
def CapabilitySet.builtins : CapabilitySet := Registry.builtins.freeze

end Folio
