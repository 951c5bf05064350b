import Folio.Markup.Block
import Folio.Render.Evaluation

/-!
# Compilation

A source text is compiled by blanking out its declarations, reading it, and evaluating it.
Metadata that cannot be read is left out and fails nothing. Blanking out keeps offsets, so what is
found in the stripped text is located in the source.
-/

namespace Folio

/-- What kind of step failed. -/
inductive FailureKind
  | syntaxError
  | evaluation
  | unknownCapability
  deriving DecidableEq, Repr

/-- Why a source text does not compile, and where. -/
structure Failure where
  kind : FailureKind
  message : String
  location : Option Location
  deriving DecidableEq, Repr

namespace Failure

/-- The failure of a text that cannot be read. -/
def ofSyntax (source : Text) (e : SyntaxError) : Failure :=
  { kind := .syntaxError, message := e.message, location := some (e.location source) }

/-- The failure of a document that cannot be evaluated. -/
def ofEvaluation (source : Text) (e : EvalError) : Failure :=
  let kind :=
    match e.fault with
    | .unknownCapability _ => .unknownCapability
    | .invalidProps _ _ => .evaluation
    | .unsupportedExpression _ => .evaluation
  { kind, message := e.message, location := some (Location.ofOffset source e.span.start) }

/-- A few words to stand under the marked place. -/
def label (f : Failure) : String :=
  match f.kind with
  | .syntaxError => "syntax error here"
  | .evaluation => "cannot evaluate this"
  | .unknownCapability => "not a registered widget"

end Failure

/-- What comes of compiling a source text: a tree, a failure, or a breakdown of the compiler. -/
inductive Compiled
  | tree (t : Tree)
  | failed (f : Failure)
  | broken

/-- Compiles source texts with a set of capabilities. -/
def compile (formats : Formats) (caps : CapabilitySet) (source : Text) : Compiled :=
  let metadata := ((Metadata.extract formats source).toOption).getD none
  match Document.parse formats (strip source) with
  | .error (.mistake e) => .failed (Failure.ofSyntax source e)
  | .error (.badCut _ _) => .broken
  | .ok d =>
    match d.evaluate formats caps with
    | .error e => .failed (Failure.ofEvaluation source e)
    | .ok t => .tree { t with metadata }

end Folio
