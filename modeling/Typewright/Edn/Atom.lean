import Typewright.Number.Binary64

/-!
# Atoms of the notation

The values without parts: `nil`, truth values, numbers, strings, keywords and symbols.

* `Atom.text`: how an atom is written. A string is written between quotes as it is.
* `Numeral`: the written form of a number, and `Numeral.atom?`, its value.
-/

namespace Typewright.Edn

/-- A value without parts. -/
inductive Atom where
  | nil
  | bool (b : Bool)
  | int (n : Int64)
  | double (x : Binary64)
  | string (s : Bytes)
  | keyword (name : Bytes)
  | symbol (name : Bytes)
  deriving DecidableEq, Repr

namespace Atom

def ofWord (s : Bytes) : Atom :=
  if s = Bytes.ascii "nil" then .nil
  else if s = Bytes.ascii "true" then .bool true
  else if s = Bytes.ascii "false" then .bool false
  else .symbol s

def text : Atom → Bytes
  | .nil => Bytes.ascii "nil"
  | .bool b => Bytes.ascii (if b then "true" else "false")
  | .int n => Bytes.decimalInt n.toInt
  | .double x => x.general
  | .string s => Bytes.quoted s
  | .keyword s => Bytes.byte ':' :: s
  | .symbol s => s

end Atom

/-! ## Numbers -/

/-- The mark of an exponent, the sign behind it if there is one, and its digits. -/
structure Exponent where
  mark : UInt8
  sign : Option UInt8
  digits : Bytes
  deriving DecidableEq, Repr

/-- A number as it is written: a sign, digits, and perhaps a point with digits behind it and an
exponent. Digits behind the point and in the exponent may be missing. -/
structure Numeral where
  sign : Option UInt8
  whole : Bytes
  fraction : Option Bytes
  exponent : Option Exponent
  deriving DecidableEq, Repr

def Exponent.text (e : Exponent) : Bytes := e.mark :: (e.sign.toList ++ e.digits)

/-- The number that an exponent denotes; without digits it is zero. -/
def Exponent.value (e : Exponent) : Int :=
  let n : Int := Bytes.ofDecimal e.digits
  if e.sign = some (Bytes.byte '-') then -n else n

namespace Numeral

def text (n : Numeral) : Bytes :=
  n.sign.toList ++ n.whole
    ++ (match n.fraction with
        | none => []
        | some f => Bytes.byte '.' :: f)
    ++ (match n.exponent with
        | none => []
        | some e => e.text)

def negative (n : Numeral) : Bool := n.sign = some (Bytes.byte '-')

/-- The value of a numeral: a 64-bit integer, or with a point or an exponent the nearest double.
There is none outside the range of either. -/
def atom? (n : Numeral) : Option Atom :=
  if n.fraction.isNone ∧ n.exponent.isNone then
    let size : Int := Bytes.ofDecimal n.whole
    let value := if n.negative then -size else size
    if Int64.minValue.toInt ≤ value ∧ value ≤ Int64.maxValue.toInt then some (.int (.ofInt value)) else none
  else
    let fraction := n.fraction.getD []
    let power := match n.exponent with
      | none => 0
      | some e => e.value
    (Binary64.ofScientific? n.negative (Bytes.ofDecimal (n.whole ++ fraction))
      (power - fraction.length)).map .double

end Numeral

end Typewright.Edn
