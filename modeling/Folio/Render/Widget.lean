import Folio.Render.Node
import Folio.Text.Quoted

/-!
# Widgets

A widget is what a tag in a document refers to. It checks its props when a document is compiled,
and turns props and rendered children into a node when the tree is rendered; that may fail, or
break down altogether.

Widgets are collected in a registry. A frozen copy of it, a set of capabilities, is what documents
are compiled and rendered with.
-/

namespace Folio

/-- Why a widget refuses its props or fails to render. -/
inductive WidgetError
  | missingProp (prop : String)
  | invalidProp (prop message : String)
  | render (message : String)
  deriving DecidableEq, Repr

/-- The error's message. -/
def WidgetError.message : WidgetError → String
  | missingProp prop => s!"missing required prop '{prop}'"
  | invalidProp prop message => s!"prop '{prop}' {message}"
  | render message => message

/-- What comes of rendering a widget: a node, an error, or a breakdown with or without a message. -/
inductive Rendering
  | node (n : Node)
  | failed (e : WidgetError)
  | broken (message : Option String)

/-- A widget: its name in tags, a line that describes it, the markup that inserts it, the check of
its props, and its rendering. -/
structure Widget where
  name : String
  describe : String
  template : String
  validate : Props → Except WidgetError Unit
  render : Props → List Node → Rendering

/-! ### Props -/

namespace Props

/-- A prop that may be missing or else is a string. -/
def string? (props : Props) (name : String) : Except WidgetError (Option String) :=
  match Fields.get? name props with
  | none => .ok none
  | some .null => .ok none
  | some (.string s) => .ok (some s)
  | some _ => .error (.invalidProp name "must be a string")

/-- A prop that is a string. -/
def string (props : Props) (name : String) : Except WidgetError String := do
  match ← string? props name with
  | some s => .ok s
  | none => .error (.missingProp name)

/-- A prop that is true or false. -/
def bool (props : Props) (name : String) (fallback : Bool) : Except WidgetError Bool :=
  match Fields.get? name props with
  | none => .ok fallback
  | some .null => .ok fallback
  | some (.bool b) => .ok b
  | some _ => .error (.invalidProp name "must be true or false")

/-- The double nearest to an integer of at most 64 bits. -/
def nearest (n : Int) : Float :=
  if n < 0 then -n.natAbs.toUInt64.toFloat else n.natAbs.toUInt64.toFloat

/-- A prop that may be missing or else is a number. -/
def number? (props : Props) (name : String) : Except WidgetError (Option Float) :=
  match Fields.get? name props with
  | none => .ok none
  | some .null => .ok none
  | some (.integer n) => .ok (some (nearest n))
  | some (.float x) => .ok (some x)
  | some _ => .error (.invalidProp name "must be a number")

/-- A prop that is one of some strings. -/
def choice (props : Props) (name : String) (choices : List String) (fallback : String) :
    Except WidgetError String := do
  match ← string? props name with
  | none => .ok fallback
  | some value =>
    if choices.contains value then .ok value
    else
      let listed := ", ".intercalate choices
      .error (.invalidProp name s!"must be one of {listed} (got \"{value}\")")

end Props

/-! ### Registries -/

/-- The widgets that documents may refer to. -/
structure CapabilitySet where
  widgets : Fields Widget

namespace CapabilitySet

/-- The set without widgets. -/
def empty : CapabilitySet := { widgets := [] }

/-- The widget of a name. -/
def get? (caps : CapabilitySet) (name : String) : Option Widget := Fields.get? name caps.widgets

/-- Whether there is a widget of a name. -/
def contains (caps : CapabilitySet) (name : String) : Bool := (caps.get? name).isSome

/-- The names of the widgets, in order. -/
def names (caps : CapabilitySet) : List String := Fields.names caps.widgets

/-- The number of widgets. -/
def size (caps : CapabilitySet) : Nat := caps.widgets.length

/-- The names of the widgets in one line. -/
def describe (caps : CapabilitySet) : String :=
  "\x7b" ++ ", ".intercalate (caps.names.map Text.quoted) ++ "\x7d"

end CapabilitySet

/-- Why a widget cannot be registered. -/
inductive RegistryError
  | duplicate (name : String)
  | invalidName (name : String)
  deriving DecidableEq, Repr

/-- The error's message. -/
def RegistryError.message : RegistryError → String
  | duplicate name => s!"widget '{name}' is already registered"
  | invalidName name =>
    s!"invalid widget name '{name}': names start with an uppercase ASCII letter"

/-- A growing collection of widgets. -/
structure Registry where
  widgets : Fields Widget

namespace Registry

/-- The registry without widgets. -/
def empty : Registry := { widgets := [] }

/-- Adds a widget. Its name starts with an upper-case letter and is not taken. -/
def register (r : Registry) (w : Widget) : Except RegistryError Registry :=
  if !(w.name.toList.head?.any isUpper) then .error (.invalidName w.name)
  else if Fields.contains w.name r.widgets then .error (.duplicate w.name)
  else .ok { widgets := Fields.insert w.name w r.widgets }

/-- The widgets registered so far, as a set that later registrations do not change. -/
def freeze (r : Registry) : CapabilitySet := { widgets := r.widgets }

end Registry
end Folio
