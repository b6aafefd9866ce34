import Typewright.Text.Bytes

/-!
# UTF-8

Decoding is total: a byte that starts no well-formed sequence stands for U+FFFD and reading goes on
at the next byte. Encoding is total too: a number that is no Unicode scalar value is written as U+FFFD.

* `IsScalar`: the numbers that have an encoding.
* `first?`: the well-formed sequence at the front of a byte string.
* `decode`, `encode`.
-/

namespace Typewright

/-- A code point, or any number given in place of one. -/
abbrev CodePoint := Nat

namespace Utf8

/-- The code point that stands for whatever cannot be read or written. -/
def replacement : CodePoint := 0xFFFD

/-- The UTF-16 surrogates, which are no characters. -/
def IsSurrogate (c : CodePoint) : Prop := 0xD800 ≤ c ∧ c < 0xE000

instance (c : CodePoint) : Decidable (IsSurrogate c) := inferInstanceAs (Decidable (_ ∧ _))

/-- The Unicode scalar values. -/
def IsScalar (c : CodePoint) : Prop := c < 0x110000 ∧ ¬ IsSurrogate c

instance (c : CodePoint) : Decidable (IsScalar c) := inferInstanceAs (Decidable (_ ∧ _))

/-- A byte that continues a sequence. -/
def IsTail (b : UInt8) : Prop := 0x80 ≤ b ∧ b < 0xC0

instance (b : UInt8) : Decidable (IsTail b) := inferInstanceAs (Decidable (_ ∧ _))

/-- The six bits that a continuing byte carries. -/
def tailBits (b : UInt8) : Nat := b.toNat - 0x80

/-- The well-formed sequence at the front, with what follows it. The shortest form is required, and
a surrogate has none. -/
def first? : Bytes → Option (CodePoint × Bytes)
  | [] => none
  | a :: rest =>
    if a < 0x80 then some (a.toNat, rest)
    else if a < 0xE0 then
      match rest with
      | b :: rest =>
        let c := (a.toNat - 0xC0) * 0x40 + tailBits b
        if 0xC2 ≤ a ∧ IsTail b then some (c, rest) else none
      | [] => none
    else if a < 0xF0 then
      match rest with
      | b :: b' :: rest =>
        let c := (a.toNat - 0xE0) * 0x1000 + tailBits b * 0x40 + tailBits b'
        if IsTail b ∧ IsTail b' ∧ 0x800 ≤ c ∧ ¬ IsSurrogate c then some (c, rest) else none
      | _ => none
    else
      match rest with
      | b :: b' :: b'' :: rest =>
        let c := (a.toNat - 0xF0) * 0x40000 + tailBits b * 0x1000 + tailBits b' * 0x40 + tailBits b''
        if IsTail b ∧ IsTail b' ∧ IsTail b'' ∧ 0x10000 ≤ c ∧ c < 0x110000 then some (c, rest) else none
      | _ => none

theorem length_lt_of_first? {s rest : Bytes} {c : CodePoint} (h : first? s = some (c, rest)) :
    rest.length < s.length := by
  unfold first? at h
  grind

def decode (s : Bytes) : List CodePoint :=
  match h : first? s with
  | some (c, rest) =>
    have := length_lt_of_first? h
    c :: decode rest
  | none =>
    match s with
    | [] => []
    | _ :: rest => replacement :: decode rest
termination_by s.length

/-- The sequence that encodes a scalar value. -/
def sequence (c : CodePoint) : Bytes :=
  if c < 0x80 then [c.toUInt8]
  else if c < 0x800 then [(0xC0 + c / 0x40).toUInt8, (0x80 + c % 0x40).toUInt8]
  else if c < 0x10000 then
    [(0xE0 + c / 0x1000).toUInt8, (0x80 + c / 0x40 % 0x40).toUInt8, (0x80 + c % 0x40).toUInt8]
  else
    [(0xF0 + c / 0x40000).toUInt8, (0x80 + c / 0x1000 % 0x40).toUInt8,
      (0x80 + c / 0x40 % 0x40).toUInt8, (0x80 + c % 0x40).toUInt8]

/-- One code point, with U+FFFD in place of a number that is no scalar value. -/
def encodeOne (c : CodePoint) : Bytes :=
  sequence (if IsScalar c then c else replacement)

def encode (cs : List CodePoint) : Bytes := cs.flatMap encodeOne

end Utf8

end Typewright
