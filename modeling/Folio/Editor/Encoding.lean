import Folio.Editor.Command
import Folio.Json.Record

/-!
# Commands as JSON

A command is an object with its name, and its argument if it takes one: the level of a heading, which
is a byte, or the name of a widget. An array with the name and the argument stands for one as well.
-/

namespace Folio.Command

/-- The commands without an argument, under their names. -/
def plain : List (String × Command) :=
  [("bold", bold), ("italic", italic), ("strikethrough", strikethrough),
    ("inlineCode", inlineCode), ("quote", quote), ("bulletList", bulletList),
    ("numberedList", numberedList), ("link", link), ("image", image),
    ("horizontalRule", horizontalRule), ("codeBlock", codeBlock)]

/-- The command of a name with an argument. -/
def ofParts? (name : String) (arg : Option Json) : Option Command :=
  match name, arg with
  | "heading", some level => (level.natBelow? 256).map heading
  | "widget", some (.string name) => some (widget name)
  | _, none => plain.lookup name
  | _, some .null => plain.lookup name
  | _, _ => none

/-- A name in an object, which may also stand as the only member of an object of its own. -/
def nameOf? : Json → Option String
  | .string s => some s
  | .object [(s, .null)] => some s
  | _ => none

/-- The command that JSON stands for. -/
def ofJson? : Json → Option Command
  | .object fields => do ofParts? (← nameOf? (← fields.lookup "command")) (fields.lookup "arg")
  | .array [.string name, arg] => ofParts? name (some arg)
  | _ => none

/-- The JSON that stands for a command. -/
def toJson (c : Command) : Json :=
  let named (name : String) (arg : List (String × Json)) : Json :=
    .object (("command", .string name) :: arg)
  match c with
  | heading level => named "heading" [("arg", .integer level)]
  | widget name => named "widget" [("arg", .string name)]
  | c =>
    match plain.find? (·.2 = c) with
    | some (name, _) => named name []
    | none => .null

end Folio.Command
