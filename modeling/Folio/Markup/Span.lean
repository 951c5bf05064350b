/-!
# Spans

A range of byte offsets in the source of a document.
-/

namespace Folio

/-- The offsets from `start` up to, but not including, `stop`. -/
structure Span where
  start : Nat
  stop : Nat
  deriving DecidableEq, Repr, Inhabited

namespace Span

/-- The number of bytes of a span; a span that ends before its start has none. -/
def length (s : Span) : Nat := s.stop - s.start

/-- Whether a span covers no byte. -/
def isEmpty (s : Span) : Bool := s.length == 0

end Span
end Folio
