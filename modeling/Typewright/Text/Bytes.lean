/-!
# Byte strings

Labels, sources and rendered lines are byte strings: nothing promises that they are well-formed
UTF-8, so they are kept as lists of bytes and decoded only where characters matter.

* `ascii`: the bytes of a text written in this library.
* `decimal`, `decimalInt`: numbers as decimal digits; `ofDecimal` reads digits back.
* `join`: texts with a separator between them; `split` cuts at a separator.
* `untilNul`: the part before the first NUL.
-/

namespace Typewright

abbrev Bytes := List UInt8

instance : LawfulBEq Bytes := inferInstanceAs (LawfulBEq (List UInt8))

namespace Bytes

/-- The bytes of a text all of whose characters are ASCII. -/
def ascii (s : String) : Bytes := s.toList.map fun c => c.toNat.toUInt8

/-- The byte of an ASCII character. -/
def byte (c : Char) : UInt8 := c.toNat.toUInt8

def digit (n : Nat) : UInt8 := (48 + n).toUInt8

/-- The bytes `0` to `9`. -/
def isDigit (b : UInt8) : Bool := 48 ≤ b && b ≤ 57

/-- A natural number in decimal, without leading zeros. -/
def decimal (n : Nat) : Bytes :=
  if n < 10 then [digit n] else decimal (n / 10) ++ [digit (n % 10)]

/-- An integer in decimal, with a minus sign when it is negative. -/
def decimalInt : Int → Bytes
  | .ofNat n => decimal n
  | .negSucc n => byte '-' :: decimal (n + 1)

/-- The number that a string of decimal digits denotes. -/
def ofDecimal (s : Bytes) : Nat := s.foldl (fun n b => 10 * n + (b.toNat - 48)) 0

/-- The texts in order, with `sep` between neighbours. -/
def join (sep : Bytes) : List Bytes → Bytes
  | [] => []
  | [s] => s
  | s :: t :: rest => s ++ sep ++ join sep (t :: rest)

/-- The pieces between the bytes `sep`; there is always at least one. -/
def split (sep : UInt8) : Bytes → List Bytes
  | [] => [[]]
  | b :: s =>
    if b = sep then [] :: split sep s
    else
      match split sep s with
      | [] => [[b]]
      | l :: ls => (b :: l) :: ls

/-- The part before the first NUL byte: how far a text reaches that is kept NUL-terminated. -/
def untilNul (s : Bytes) : Bytes := s.takeWhile (· != 0)

/-- The line feed, which ends a line. -/
def lineFeed : UInt8 := 10

def quote : UInt8 := 34

/-- The apostrophe around names in messages. -/
def apostrophe : UInt8 := 39

def backslash : UInt8 := 92

def quoted (s : Bytes) : Bytes := quote :: s ++ [quote]

/-- A text between apostrophes. -/
def named (s : Bytes) : Bytes := apostrophe :: s ++ [apostrophe]

end Bytes

end Typewright
