import Typewright.Text.Utf8

/-!
# A decoder of JSON

JSON as RFC 8259 has it, read from bytes. Inside a string every byte from `0x80` on stands for itself.

* `Json` : values; the members of an object stay in order;
* `Json.number?`, `Json.string?` : numbers and strings at the front of a text;
* `Json.value?` : any value there, and `Json.decode` : a text that is one value.
-/

namespace Typewright

/-- A JSON value. A number is its mantissa times ten to the power of its exponent. -/
inductive Json where
  | null
  | bool (b : Bool)
  | number (mantissa exponent : Int)
  | string (s : Bytes)
  | array (items : List Json)
  | object (members : List (Bytes × Json))

namespace Json

/-- Space, tab, line feed and carriage return. -/
def isBlank (b : UInt8) : Bool := b == 32 || b == 9 || b == 10 || b == 13

def skipBlanks (s : Bytes) : Bytes := s.dropWhile isBlank

/-- What follows a byte that must come first, behind blanks. -/
def expect? (c : UInt8) (s : Bytes) : Option Bytes :=
  match skipBlanks s with
  | [] => none
  | b :: rest => if b = c then some rest else none

/-- The words for the values that are written as words. -/
def word? (s : Bytes) : Option (Json × Bytes) :=
  if (Bytes.ascii "true").isPrefixOf s then some (.bool true, s.drop 4)
  else if (Bytes.ascii "false").isPrefixOf s then some (.bool false, s.drop 5)
  else if (Bytes.ascii "null").isPrefixOf s then some (.null, s.drop 4)
  else none

/-! ## Numbers -/

/-- The digits behind the decimal point; none if there is no point. -/
def fraction? : Bytes → Option (Bytes × Bytes)
  | [] => some ([], [])
  | b :: s =>
    if b = Bytes.byte '.' then
      let digits := s.takeWhile Bytes.isDigit
      if digits.isEmpty then none else some (digits, s.dropWhile Bytes.isDigit)
    else some ([], b :: s)

/-- A sign, if there is one; whether it is a minus. -/
def sign : Bytes → Bool × Bytes
  | [] => (false, [])
  | b :: s =>
    if b = Bytes.byte '-' then (true, s) else if b = Bytes.byte '+' then (false, s) else (false, b :: s)

/-- The integer of some digits. -/
def signed (negative : Bool) (digits : Bytes) : Int :=
  if negative then -(Bytes.ofDecimal digits : Int) else Bytes.ofDecimal digits

/-- The exponent; zero if there is none. -/
def exponent? : Bytes → Option (Int × Bytes)
  | [] => some (0, [])
  | b :: s =>
    if b = Bytes.byte 'e' ∨ b = Bytes.byte 'E' then
      let (negative, s) := sign s
      let digits := s.takeWhile Bytes.isDigit
      if digits.isEmpty then none else some (signed negative digits, s.dropWhile Bytes.isDigit)
    else some (0, b :: s)

/-- Whether some digits may stand before the decimal point: a zero only by itself. -/
def isWhole : Bytes → Bool
  | [] => false
  | [_] => true
  | b :: _ :: _ => b != Bytes.byte '0'

/-- A number at the front of a text, without the minus sign. -/
def unsigned? (negative : Bool) (s : Bytes) : Option (Json × Bytes) :=
  let whole := s.takeWhile Bytes.isDigit
  if isWhole whole then
    match fraction? (s.dropWhile Bytes.isDigit) with
    | none => none
    | some (fraction, s) =>
      (exponent? s).map fun (e, rest) => (.number (signed negative (whole ++ fraction)) (e - fraction.length), rest)
  else none

/-- A number at the front of a text. -/
def number? : Bytes → Option (Json × Bytes)
  | [] => none
  | b :: s => if b = Bytes.byte '-' then unsigned? true s else unsigned? false (b :: s)

/-! ## Strings -/

def hexValue? (b : UInt8) : Option Nat :=
  if 48 ≤ b ∧ b ≤ 57 then some (b.toNat - 48)
  else if 65 ≤ b ∧ b ≤ 70 then some (b.toNat - 55)
  else if 97 ≤ b ∧ b ≤ 102 then some (b.toNat - 87)
  else none

/-- The number that four hexadecimal digits make. -/
def unit? : Bytes → Option (Nat × Bytes)
  | a :: b :: c :: d :: rest =>
    match hexValue? a, hexValue? b, hexValue? c, hexValue? d with
    | some a, some b, some c, some d => some (((a * 16 + b) * 16 + c) * 16 + d, rest)
    | _, _, _, _ => none
  | _ => none

/-- The second half of a pair of surrogates. -/
def lowSurrogate? : Bytes → Option (Nat × Bytes)
  | a :: b :: s =>
    if a = Bytes.backslash ∧ b = Bytes.byte 'u' then (unit? s).filter fun (u, _) => 0xDC00 ≤ u && u < 0xE000 else none
  | _ => none

/-- A character by its number, behind `\u`. A surrogate without its other half stands for U+FFFD. -/
def numbered? (s : Bytes) : Option (Bytes × Bytes) :=
  match unit? s with
  | none => none
  | some (u, rest) =>
    if 0xD800 ≤ u ∧ u < 0xDC00 then
      match lowSurrogate? rest with
      | some (v, rest) => some (Utf8.encodeOne (0x10000 + (u - 0xD800) * 0x400 + (v - 0xDC00)), rest)
      | none => some (Utf8.encodeOne u, rest)
    else some (Utf8.encodeOne u, rest)

/-- The byte that stands for itself or for another behind a backslash. -/
def short? (b : UInt8) : Option UInt8 :=
  if b = Bytes.quote ∨ b = Bytes.backslash ∨ b = Bytes.byte '/' then some b
  else if b = Bytes.byte 'b' then some 8
  else if b = Bytes.byte 'f' then some 12
  else if b = Bytes.byte 'n' then some 10
  else if b = Bytes.byte 'r' then some 13
  else if b = Bytes.byte 't' then some 9
  else none

/-- A character of a string; control characters have to be escaped. -/
def character? : Bytes → Option (Bytes × Bytes)
  | [] => none
  | b :: s =>
    if b < 32 ∨ b = Bytes.quote then none
    else if b = Bytes.backslash then
      match s with
      | [] => none
      | c :: s => if c = Bytes.byte 'u' then numbered? s else (short? c).map fun b => ([b], s)
    else some ([b], s)

/-- The characters of a string up to the closing quotation mark, at most so many. -/
def characters? : Nat → Bytes → Option (Bytes × Bytes)
  | 0, _ => none
  | n + 1, s =>
    if s.head? = some Bytes.quote then some ([], s.tail)
    else
      match character? s with
      | none => none
      | some (c, s) => (characters? n s).map fun (cs, rest) => (c ++ cs, rest)

/-- A string behind its opening quotation mark. -/
def string? (s : Bytes) : Option (Bytes × Bytes) := characters? s.length s

/-! ## Values -/

mutual

/-- A value at the front of a text. The first argument bounds the depth of the recursion. -/
def value? : Nat → Bytes → Option (Json × Bytes)
  | 0, _ => none
  | n + 1, s =>
    match skipBlanks s with
    | [] => none
    | b :: rest =>
      if b = Bytes.quote then (string? rest).map fun (t, rest) => (.string t, rest)
      else if b = Bytes.byte '[' then
        match expect? (Bytes.byte ']') rest with
        | some rest => some (.array [], rest)
        | none => (items? n rest).map fun (vs, rest) => (.array vs, rest)
      else if b = 123 then
        match expect? 125 rest with
        | some rest => some (.object [], rest)
        | none => (members? n rest).map fun (ms, rest) => (.object ms, rest)
      else if b = Bytes.byte '-' ∨ Bytes.isDigit b = true then number? (b :: rest)
      else word? (b :: rest)

/-- One or more items of an array and its closing bracket. -/
def items? : Nat → Bytes → Option (List Json × Bytes)
  | 0, _ => none
  | n + 1, s =>
    match value? n s with
    | none => none
    | some (v, s) =>
      match expect? (Bytes.byte ',') s with
      | some s => (items? n s).map fun (vs, rest) => (v :: vs, rest)
      | none => (expect? (Bytes.byte ']') s).map fun rest => ([v], rest)

/-- One or more members of an object and its closing bracket. -/
def members? : Nat → Bytes → Option (List (Bytes × Json) × Bytes)
  | 0, _ => none
  | n + 1, s =>
    match (expect? Bytes.quote s).bind string? with
    | none => none
    | some (key, s) =>
      match (expect? (Bytes.byte ':') s).bind (value? n) with
      | none => none
      | some (v, s) =>
        match expect? (Bytes.byte ',') s with
        | some s => (members? n s).map fun (ms, rest) => ((key, v) :: ms, rest)
        | none => (expect? 125 s).map fun rest => ([(key, v)], rest)

end

/-- The value that a text spells, if it spells one. A value inside another is behind two steps and between two
brackets, so that the length bounds the depth. -/
def decode (s : Bytes) : Option Json :=
  match value? (s.length + 1) s with
  | none => none
  | some (v, rest) => if (skipBlanks rest).isEmpty then some v else none

end Json

end Typewright
