import Folio.Text.Blank
import Folio.Text.Location

/-!
# Syntax errors

Why a document cannot be read. Every error carries the byte offset where it is found; its message
and its short label are derived from the cause.

Reading can also halt for a reason that is no mistake of the author: a piece of a text was asked
for that does not lie between two boundaries. `Halt` keeps the two apart.
-/

namespace Folio

/-- What is wrong in a source text. -/
inductive SyntaxFault
  | unclosedDelimiter (delimiter : Char)
  | unmatchedDelimiter (delimiter : Char)
  | unclosedWidget (name : String)
  | unexpectedClosingTag (name : String)
  | unterminatedString
  | unexpectedToken (expected found : String)
  | unexpectedEnd
  | invalid (message : String)
  | invalidMetadata (message : String)
  deriving DecidableEq, Repr

/-- A fault and the offset where it is found. -/
structure SyntaxError where
  pos : Nat
  fault : SyntaxFault
  deriving DecidableEq, Repr

namespace SyntaxError

/-- The error's message, its offset included. -/
def message (e : SyntaxError) : String :=
  match e.fault with
  | .unclosedDelimiter d => s!"Unclosed '{d}' at {e.pos}"
  | .unmatchedDelimiter d => s!"Unmatched '{d}' at {e.pos}"
  | .unclosedWidget name => s!"Widget <{name}> opened at {e.pos} is never closed"
  | .unexpectedClosingTag name => s!"Unexpected closing tag </{name}> at {e.pos}"
  | .unterminatedString => s!"Unterminated string at {e.pos}"
  | .unexpectedToken expected found =>
    s!"Unexpected token at {e.pos}: expected {expected}, found {found}"
  | .unexpectedEnd => s!"Unexpected end of input at {e.pos}"
  | .invalid message => s!"Invalid syntax at {e.pos}: {message}"
  | .invalidMetadata message => s!"Invalid metadata at {e.pos}: {message}"

/-- A few words to stand under the marked place. -/
def label (e : SyntaxError) : String :=
  match e.fault with
  | .unclosedDelimiter d => s!"'{d}' opened here"
  | .unmatchedDelimiter d => s!"no opening for '{d}'"
  | .unclosedWidget name => s!"missing </{name}>"
  | .unexpectedClosingTag _ => "nothing to close"
  | .unterminatedString => "string starts here"
  | .unexpectedToken expected _ => s!"expected {expected}"
  | .unexpectedEnd => "input ends here"
  | .invalid message => message
  | .invalidMetadata message => message

/-- The line and column of the error. -/
def location (source : Text) (e : SyntaxError) : Location := Location.ofOffset source e.pos

/-- The same fault at another offset. -/
def relocate (f : Nat → Nat) (e : SyntaxError) : SyntaxError := { e with pos := f e.pos }

end SyntaxError

/-- Why reading a document halts: a mistake in the source, or a cut that does not lie between two
boundaries of the text that it is taken from. -/
inductive Halt
  | mistake (error : SyntaxError)
  | badCut (start stop : Nat)
  deriving DecidableEq, Repr

/-- The fault `fault` at `pos`, as a failed reading. -/
def mistake {α : Type} (pos : Nat) (fault : SyntaxFault) : Except Halt α :=
  .error (.mistake { pos, fault })

end Folio
