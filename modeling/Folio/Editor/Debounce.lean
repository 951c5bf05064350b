/-!
# Quiet windows

A deadline that moves on with every touch and passes once nothing has happened for a while. Times
are in milliseconds and given by the caller.
-/

namespace Folio

/-- A quiet window, and its end when one is running. -/
structure Debounce where
  window : Nat
  deadline : Option Nat := none
  deriving DecidableEq, Repr

namespace Debounce

/-- Starts the window anew. -/
def touch (d : Debounce) (now : Nat) : Debounce := { d with deadline := some (now + d.window) }

/-- Whether a window is running. -/
def isPending (d : Debounce) : Bool := d.deadline.isSome

/-- Whether a running window has ended. -/
def isDue (d : Debounce) (now : Nat) : Bool := d.deadline.any (· ≤ now)

/-- The window no longer running. -/
def clear (d : Debounce) : Debounce := { d with deadline := none }

/-- The window no longer running once it has ended. -/
def clearIfDue (d : Debounce) (now : Nat) : Debounce := if d.isDue now then d.clear else d

/-- The time that is left of a running window. -/
def remaining (d : Debounce) (now : Nat) : Option Nat := d.deadline.map (· - now)

end Debounce
end Folio
