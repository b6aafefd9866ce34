import Typewright.Text.Bytes

/-!
# Double precision numbers

A number of the notation with a fraction or an exponent is the double nearest to it. Reading and
writing are exact integer arithmetic on the bit pattern.

* `roundDiv`: a quotient rounded to the nearest integer, a half to the even one.
* `Binary64.ofRatio?`, `Binary64.ofScientific?`: the double nearest to a fraction or to `n * 10 ^ e`,
  unless it is out of range.
* `Binary64.general`: at most six significant digits, as text.
-/

namespace Typewright

/-- The quotient rounded to the nearest integer; a half goes to the even neighbour. -/
def roundDiv (num den : Nat) : Nat :=
  let q := num / den
  let r := num % den
  if 2 * r < den then q
  else if den < 2 * r then q + 1
  else if q % 2 = 0 then q
  else q + 1

/-- A fraction `num / den` divided by `base ^ e`, again as a fraction. -/
def scaleDown (base num den : Nat) (e : Int) : Nat × Nat :=
  if 0 ≤ e then (num, den * base.pow e.toNat) else (num * base.pow (-e).toNat, den)

/-- A double, given by its bit pattern: sign, eleven bits of exponent, fifty-two of fraction. -/
structure Binary64 where
  bits : UInt64
  deriving DecidableEq, Repr

namespace Binary64

/-! ## Reading -/

/-- The exponent of the largest power of two that is at most the positive fraction `num / den`. -/
def topExponent (num den : Nat) : Int :=
  let e : Int := num.log2 - den.log2
  let (n, d) := scaleDown 2 num den e
  if d ≤ n then e else e - 1

/-- The pattern of a sign and a magnitude. -/
def ofMagnitude (negative : Bool) (magnitude : Nat) : Binary64 :=
  ⟨(if negative then Nat.pow 2 63 + magnitude else magnitude).toUInt64⟩

/-- The double nearest to the positive fraction `num / den`. There is none if that lies above the
largest double, or if the fraction lies below the normal range and is not represented exactly. -/
def ofRatio? (negative : Bool) (num den : Nat) : Option Binary64 :=
  let top := topExponent num den
  let e := max (top - 52) (-1074)
  let (n, d) := scaleDown 2 num den e
  let magnitude := (e + 1074).toNat * Nat.pow 2 52 + roundDiv n d
  let (n', d') := scaleDown 2 num den (top - 52)
  let normal := -1022 ≤ top || (top == -1023 && roundDiv n' d' == Nat.pow 2 53)
  if 2047 * Nat.pow 2 52 ≤ magnitude then none
  else if !normal && n % d != 0 then none
  else some (ofMagnitude negative magnitude)

/-- The double nearest to `n * 10 ^ e`, unless it is out of range. Exponents far outside the range
are decided by the number of digits. -/
def ofScientific? (negative : Bool) (n : Nat) (e : Int) : Option Binary64 :=
  if n = 0 then some (ofMagnitude negative 0)
  else
    let size := e + (Bytes.decimal n).length
    if 400 < size ∨ size < -400 then none
    else
      let (num, den) := scaleDown 10 n 1 (-e)
      ofRatio? negative num den

/-! ## Writing -/

def negative (x : Binary64) : Bool := Nat.pow 2 63 ≤ x.bits.toNat

/-- The magnitude of a finite double as a fraction. -/
def ratio (x : Binary64) : Nat × Nat :=
  let magnitude := x.bits.toNat % Nat.pow 2 63
  let exponent : Nat := magnitude / Nat.pow 2 52
  let fraction := magnitude % Nat.pow 2 52
  if exponent = 0 then (fraction, Nat.pow 2 1074)
  else scaleDown 2 (Nat.pow 2 52 + fraction) 1 (1075 - Int.ofNat exponent)

/-- The exponent of the largest power of ten that is at most the positive fraction `num / den`; the
search below one ends at the smallest double. -/
def decimalExponent (num den : Nat) : Int :=
  if den ≤ num then (Bytes.decimal (num / den)).length - 1
  else
    match (List.range 330).find? fun k => den ≤ num * Nat.pow 10 (k + 1) with
    | some k => -(k + 1)
    | none => -330

def trimZeros (s : Bytes) : Bytes := (s.reverse.dropWhile (· == 48)).reverse

/-- A whole part and the fraction behind a point, if any of it is left. -/
def withFraction (whole fraction : Bytes) : Bytes :=
  if fraction.isEmpty then whole else whole ++ Bytes.byte '.' :: fraction

/-- The number of significant digits that are written. -/
def precision : Nat := 6

/-- Six digits `d` with the point behind the first, times `10 ^ e`: positional from `1e-4` up to
six digits before the point, in scientific notation with two digits of exponent otherwise. -/
def layOut (d : Bytes) (e : Int) : Bytes :=
  if e < -4 ∨ precision ≤ e then
    let size := Bytes.decimal e.natAbs
    let pad := if size.length < 2 then Bytes.byte '0' :: size else size
    withFraction (d.take 1) (trimZeros (d.drop 1))
      ++ [Bytes.byte 'e', Bytes.byte (if e < 0 then '-' else '+')] ++ pad
  else if e < 0 then
    withFraction (Bytes.ascii "0") (List.replicate (-e - 1).toNat (Bytes.byte '0') ++ trimZeros d)
  else
    withFraction (d.take (e.toNat + 1)) (trimZeros (d.drop (e.toNat + 1)))

/-- A finite double with at most six significant digits, correctly rounded. -/
def general (x : Binary64) : Bytes :=
  let sign := if x.negative then [Bytes.byte '-'] else []
  let (num, den) := x.ratio
  if num = 0 then sign ++ Bytes.ascii "0"
  else
    let e := decimalExponent num den
    let (n, d) := scaleDown 10 num den (e - (precision - 1))
    let q := roundDiv n d
    if q = Nat.pow 10 precision then sign ++ layOut (Bytes.decimal (Nat.pow 10 (precision - 1))) (e + 1)
    else sign ++ layOut (Bytes.decimal q) e

end Binary64

end Typewright
