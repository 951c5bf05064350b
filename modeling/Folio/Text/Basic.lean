/-!
# Text and byte offsets

A text is a list of characters. Positions in a text are byte offsets of its UTF-8 form, so that
they can be handed to editors and shown to authors; an offset is a *boundary* when a whole number
of characters lies before it.

* `Text.bytes` is the size of the UTF-8 form;
* `Text.split?` divides a text at a boundary and refuses any other offset;
* `Text.cut?` is the part between two boundaries;
* `Text.floor` is the last boundary at or before an offset;
* `Text.takeBytes` and `Text.dropBytes` divide a text there.
-/

namespace Folio

/-- A text is the list of its characters. -/
abbrev Text := List Char

namespace Text

/-- The number of bytes of the UTF-8 form. -/
def bytes : Text → Nat
  | [] => 0
  | c :: s => c.utf8Size + bytes s

@[simp] theorem bytes_nil : bytes [] = 0 := rfl
@[simp] theorem bytes_cons (c : Char) (s : Text) : bytes (c :: s) = c.utf8Size + bytes s := rfl

@[simp] theorem bytes_append (s t : Text) : bytes (s ++ t) = bytes s + bytes t := by
  induction s with
  | nil => simp
  | cons c s ih => simp [ih, Nat.add_assoc]

/-- The parts of a text before and after a boundary. -/
def split? : Text → Nat → Option (Text × Text)
  | s, 0 => some ([], s)
  | [], _ + 1 => none
  | c :: s, n + 1 =>
    if c.utf8Size ≤ n + 1 then
      (split? s (n + 1 - c.utf8Size)).map fun (before, after) => (c :: before, after)
    else none

/-- Whether a whole number of characters lies before an offset. -/
def isBoundary (s : Text) (offset : Nat) : Bool := (split? s offset).isSome

/-- The text from `start` up to `stop`, when both are boundaries in this order. -/
def cut? (s : Text) (start stop : Nat) : Option Text := do
  if stop < start then none
  let (_, after) ← split? s start
  let (inside, _) ← split? after (stop - start)
  return inside

/-- The last boundary at or before an offset. -/
def floor : Text → Nat → Nat
  | [], _ => 0
  | c :: s, n => if c.utf8Size ≤ n then c.utf8Size + floor s (n - c.utf8Size) else 0

/-- The characters that end at or before an offset. -/
def takeBytes : Text → Nat → Text
  | [], _ => []
  | c :: s, n => if c.utf8Size ≤ n then c :: takeBytes s (n - c.utf8Size) else []

/-- The text without the characters that end at or before an offset. -/
def dropBytes : Text → Nat → Text
  | [], _ => []
  | c :: s, n => if c.utf8Size ≤ n then dropBytes s (n - c.utf8Size) else c :: s

@[simp] theorem takeBytes_append_dropBytes (s : Text) (n : Nat) :
    takeBytes s n ++ dropBytes s n = s := by
  induction s generalizing n with
  | nil => rfl
  | cons c s ih => by_cases h : c.utf8Size ≤ n <;> simp [takeBytes, dropBytes, h, ih]

@[simp] theorem bytes_takeBytes (s : Text) (n : Nat) : bytes (takeBytes s n) = floor s n := by
  induction s generalizing n with
  | nil => rfl
  | cons c s ih => by_cases h : c.utf8Size ≤ n <;> simp [takeBytes, floor, h, ih]

/-- Removes the characters of a class from the end. -/
def trimEndOf (p : Char → Bool) (s : Text) : Text := (s.reverse.dropWhile p).reverse

/-- Whether a text begins with another. -/
def startsWith (s start : Text) : Bool := start.isPrefixOf s

/-- Whether a text ends with a given character. -/
def endsWith (s : Text) (c : Char) : Bool := s.getLast? == some c

/-- Whether a character lies in one of some ranges of code points, which include their ends. -/
def inRanges (ranges : List (Nat × Nat)) (c : Char) : Bool :=
  ranges.any fun (lo, hi) => lo ≤ c.toNat && c.toNat ≤ hi

/-- The first occurrence of a pattern, as the number of characters before it. -/
def find? (pattern : Text) : Text → Option Nat
  | [] => if pattern.isEmpty then some 0 else none
  | c :: s => if pattern.isPrefixOf (c :: s) then some 0 else (find? pattern s).map (· + 1)

end Text
end Folio
