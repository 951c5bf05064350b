/-!
# Decimal texts of binary fractions

A finite double stands for a binary fraction. It is written with the fewest significant digits
that still lie nearer to it than to any other double; of several such digit strings the nearest
one is taken, and of two equally near ones the even one.

* `Decimal.shortest` selects the digits by exact arithmetic;
* `Decimal.plain` and `Decimal.scientific` lay them out;
* `Decimal.nearest` is the double that a decimal is read as.
-/

namespace Folio

/-- The value `digits * 10 ^ exponent`. -/
structure Decimal where
  digits : Nat
  exponent : Int
  deriving DecidableEq, Repr

namespace Decimal

/-- A positive finite double as `mantissa * 2 ^ exponent`. The double below is only half as far
away as the one above when `narrow` holds. -/
structure Binary where
  mantissa : Nat
  exponent : Int
  narrow : Bool
  deriving DecidableEq, Repr

/-- A power of two. -/
def twoTo (n : Nat) : Nat := Nat.pow 2 n

/-- A power of ten. -/
def tenTo (n : Nat) : Nat := Nat.pow 10 n

/-- The magnitude that the bits of a finite double stand for. -/
def Binary.ofBits (bits : UInt64) : Binary :=
  let biased := ((bits >>> 52) &&& 0x7FF).toNat
  let fraction := (bits &&& 0xFFFFFFFFFFFFF).toNat
  if biased == 0 then { mantissa := fraction, exponent := -1074, narrow := false }
  else {
    mantissa := twoTo 52 + fraction
    exponent := (biased : Int) - 1075
    narrow := fraction == 0 && 1 < biased }

/-- How `a * 10 ^ i` compares with `b * 2 ^ j`. -/
def compareScaled (a : Nat) (i : Int) (b : Nat) (j : Int) : Ordering :=
  compare (a * tenTo i.toNat * twoTo (-j).toNat) (b * twoTo j.toNat * tenTo (-i).toNat)

/-- Whether the double nearest to a decimal is the given one. The ends of the interval belong to
an even mantissa. -/
def readsBack (x : Binary) (d : Decimal) : Bool :=
  let low := if x.narrow then 4 * x.mantissa - 1 else 4 * x.mantissa - 2
  let high := 4 * x.mantissa + 2
  let even := x.mantissa % 2 == 0
  let below := compareScaled d.digits d.exponent low (x.exponent - 2)
  let above := compareScaled d.digits d.exponent high (x.exponent - 2)
  (below == .gt || (even && below == .eq)) && (above == .lt || (even && above == .eq))

/-- The least `k`, at or after a start, with the value below `10 ^ k`; `steps` bounds the search. -/
def magnitudeFrom (x : Binary) : Nat → Int → Int
  | 0, k => k
  | steps + 1, k =>
    if compareScaled 1 k x.mantissa x.exponent == .gt then k else magnitudeFrom x steps (k + 1)

/-- The least `k` with the value below `10 ^ k`. -/
def magnitude (x : Binary) : Int := magnitudeFrom x 640 (-324)

/-- The largest multiple of `10 ^ e` that does not exceed the value, in units of `10 ^ e`. -/
def truncate (x : Binary) (e : Int) : Nat :=
  (x.mantissa * twoTo x.exponent.toNat * tenTo (-e).toNat) /
    (tenTo e.toNat * twoTo (-x.exponent).toNat)

/-- The value's neighbour on the grid of `10 ^ e` that reads back, the nearer one of two. -/
def onGrid? (x : Binary) (e : Int) : Option Decimal :=
  let low := truncate x e
  let down : Decimal := { digits := low, exponent := e }
  let up : Decimal := { digits := low + 1, exponent := e }
  match readsBack x down, readsBack x up with
  | true, true =>
    match compareScaled (2 * low + 1) e (2 * x.mantissa) x.exponent with
    | .gt => some down
    | .lt => some up
    | .eq => some (if low % 2 == 0 then down else up)
  | true, false => some down
  | false, true => some up
  | false, false => none

/-- Removes trailing zeros of the digits; `steps` bounds their number. -/
def strip : Nat → Decimal → Decimal
  | 0, d => d
  | steps + 1, d =>
    if d.digits % 10 == 0 && d.digits != 0 then
      strip steps { digits := d.digits / 10, exponent := d.exponent + 1 }
    else d

/-- The shortest decimal of a positive finite double. -/
def shortest (x : Binary) : Decimal :=
  let k := magnitude x
  let found := (List.range 17).findSome? fun (n : Nat) => onGrid? x (k - 1 - (n : Int))
  strip 20 (found.getD { digits := truncate x (k - 17), exponent := k - 17 })

/-- The digits of a decimal. -/
def digitText (d : Decimal) : List Char := Nat.toDigits 10 d.digits

/-- The number of digits before the decimal point in positional notation. -/
def point (d : Decimal) : Int := d.exponent + (digitText d).length

/-- Positional notation, without a decimal point when no digit follows it. -/
def plain (d : Decimal) : String :=
  let digits := digitText d
  let p := point d
  if p ≤ 0 then
    String.ofList ('0' :: '.' :: (List.replicate (-p).toNat '0' ++ digits))
  else if digits.length ≤ p.toNat then
    String.ofList (digits ++ List.replicate (p.toNat - digits.length) '0')
  else String.ofList (digits.take p.toNat ++ '.' :: digits.drop p.toNat)

/-- One digit, the others after a decimal point, and a signed power of ten. -/
def scientific (d : Decimal) : String :=
  let exponent := point d - 1
  let mark := if exponent < 0 then "e-" else "e+"
  let mantissa :=
    match digitText d with
    | [] => []
    | [c] => [c]
    | c :: cs => c :: '.' :: cs
  String.ofList mantissa ++ mark ++ toString exponent.natAbs

/-! ### Reading -/

/-- The bits of the double nearest to the quotient of two positive numbers; of two equally near ones
that with the even mantissa. -/
def quotientBits (n m : Nat) : Nat :=
  let near := (n.log2 : Int) - m.log2 - 52
  let small := compareScaled n 0 (m * twoTo 52) near == .lt
  let e := max (if small then near - 1 else near) (-1074)
  let above := n * twoTo (-e).toNat
  let below := m * twoTo e.toNat
  let rest := 2 * (above % below)
  let up := below < rest || (below == rest && above / below % 2 == 1)
  min ((e + 1074).toNat * twoTo 52 + above / below + if up then 1 else 0) (0x7FF * twoTo 52)

/-- The double nearest to a decimal. It is infinite or zero outside the range of doubles. -/
def nearest (d : Decimal) : Float :=
  let bits :=
    if d.digits == 0 || point d < -330 then 0
    else if 310 < point d then 0x7FF * twoTo 52
    else quotientBits (d.digits * tenTo d.exponent.toNat) (tenTo (-d.exponent).toNat)
  Float.ofBits bits.toUInt64

/-- A finite double in positional notation; an integral value has no decimal point. -/
def positional (x : Float) : String :=
  let sign := if x.toBits >>> 63 == 1 then "-" else ""
  let value := Binary.ofBits x.toBits
  sign ++ if value.mantissa == 0 then "0" else plain (shortest value)

end Decimal
end Folio
