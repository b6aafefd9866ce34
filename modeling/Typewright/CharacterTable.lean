import Typewright.Text.Character

/-!
# A table of characters

The part of the Unicode character database that the program carries with it: ranges of code points with their general
categories and simple case mappings. A code point in none of the ranges has no category and no case.
-/

namespace Typewright

namespace CharacterTable

/-- What the code points of one range have in common. -/
inductive RangeKind where
  /-- A category without case mappings. -/
  | plain (category : Category)
  /-- A category, and the distances to the upper and the lower case form. -/
  | cased (category : Category) (upper lower : Int)
  /-- Capitals and small letters take turns, each capital before its small letter. -/
  | alternating

/-- A range of code points, both ends included. -/
structure Range where
  first : CodePoint
  last : CodePoint
  kind : RangeKind

/-- The ranges in ascending order. A code point in none of them is `other` and has no case. -/
def ranges : List Range := [
  ⟨0x0030, 0x0039, .plain .digit⟩, ⟨0x0041, 0x005A, .cased .upper 0 32⟩,
  ⟨0x005F, 0x005F, .plain .connector⟩, ⟨0x0061, 0x007A, .cased .lower (-32) 0⟩,
  ⟨0x00AA, 0x00AA, .plain .letter⟩, ⟨0x00B5, 0x00B5, .cased .lower 743 0⟩,
  ⟨0x00BA, 0x00BA, .plain .letter⟩, ⟨0x00C0, 0x00D6, .cased .upper 0 32⟩,
  ⟨0x00D8, 0x00DE, .cased .upper 0 32⟩, ⟨0x00DF, 0x00DF, .plain .lower⟩,
  ⟨0x00E0, 0x00F6, .cased .lower (-32) 0⟩, ⟨0x00F8, 0x00FE, .cased .lower (-32) 0⟩,
  ⟨0x00FF, 0x00FF, .cased .lower 121 0⟩, ⟨0x0100, 0x012F, .alternating⟩,
  ⟨0x0130, 0x0130, .cased .upper 0 (-199)⟩, ⟨0x0131, 0x0131, .cased .lower (-232) 0⟩,
  ⟨0x0132, 0x0137, .alternating⟩, ⟨0x0138, 0x0138, .plain .lower⟩, ⟨0x0139, 0x0148, .alternating⟩,
  ⟨0x0149, 0x0149, .plain .lower⟩, ⟨0x014A, 0x0177, .alternating⟩,
  ⟨0x0178, 0x0178, .cased .upper 0 (-121)⟩, ⟨0x0179, 0x017E, .alternating⟩,
  ⟨0x017F, 0x017F, .cased .lower (-300) 0⟩, ⟨0x0181, 0x0181, .cased .upper 0 210⟩,
  ⟨0x01BB, 0x01BB, .plain .letter⟩, ⟨0x01C4, 0x01C4, .cased .upper 0 2⟩,
  ⟨0x01C5, 0x01C5, .cased .title (-1) 1⟩, ⟨0x01C6, 0x01C6, .cased .lower (-2) 0⟩,
  ⟨0x0253, 0x0253, .cased .lower (-210) 0⟩, ⟨0x02B0, 0x02B8, .plain .letter⟩,
  ⟨0x0300, 0x0344, .plain .nonspacing⟩, ⟨0x0345, 0x0345, .cased .nonspacing 84 0⟩,
  ⟨0x0346, 0x036F, .plain .nonspacing⟩, ⟨0x0386, 0x0386, .cased .upper 0 38⟩,
  ⟨0x0390, 0x0390, .plain .lower⟩, ⟨0x0391, 0x03A1, .cased .upper 0 32⟩,
  ⟨0x03A3, 0x03AB, .cased .upper 0 32⟩, ⟨0x03AC, 0x03AC, .cased .lower (-38) 0⟩,
  ⟨0x03B1, 0x03C1, .cased .lower (-32) 0⟩, ⟨0x03C2, 0x03C2, .cased .lower (-31) 0⟩,
  ⟨0x03C3, 0x03CB, .cased .lower (-32) 0⟩, ⟨0x0400, 0x040F, .cased .upper 0 80⟩,
  ⟨0x0410, 0x042F, .cased .upper 0 32⟩, ⟨0x0430, 0x044F, .cased .lower (-32) 0⟩,
  ⟨0x0450, 0x045F, .cased .lower (-80) 0⟩, ⟨0x05D0, 0x05EA, .plain .letter⟩,
  ⟨0x0627, 0x063A, .plain .letter⟩, ⟨0x0660, 0x0669, .plain .digit⟩,
  ⟨0x0903, 0x0903, .plain .spacing⟩, ⟨0x0904, 0x0939, .plain .letter⟩,
  ⟨0x093E, 0x0940, .plain .spacing⟩, ⟨0x0941, 0x0948, .plain .nonspacing⟩,
  ⟨0x094D, 0x094D, .plain .nonspacing⟩, ⟨0x0966, 0x096F, .plain .digit⟩,
  ⟨0x0995, 0x09A8, .plain .letter⟩, ⟨0x09AA, 0x09B0, .plain .letter⟩,
  ⟨0x09B2, 0x09B2, .plain .letter⟩, ⟨0x09BE, 0x09C0, .plain .spacing⟩,
  ⟨0x09E6, 0x09EF, .plain .digit⟩, ⟨0x0B9F, 0x0B9F, .plain .letter⟩,
  ⟨0x0BA4, 0x0BA4, .plain .letter⟩, ⟨0x0BA8, 0x0BAA, .plain .letter⟩,
  ⟨0x0BAE, 0x0BB5, .plain .letter⟩, ⟨0x0BBE, 0x0BBF, .plain .spacing⟩,
  ⟨0x0BC0, 0x0BC0, .plain .nonspacing⟩, ⟨0x0BC1, 0x0BC2, .plain .spacing⟩,
  ⟨0x0BCD, 0x0BCD, .plain .nonspacing⟩, ⟨0x1200, 0x1248, .plain .letter⟩,
  ⟨0x13A0, 0x13EF, .cased .upper 0 38864⟩, ⟨0x1E00, 0x1E95, .alternating⟩,
  ⟨0x1E9E, 0x1E9E, .cased .upper 0 (-7615)⟩, ⟨0x1F80, 0x1F80, .cased .lower 8 0⟩,
  ⟨0x1F88, 0x1F88, .cased .title 0 (-8)⟩, ⟨0x203F, 0x2040, .plain .connector⟩,
  ⟨0x2054, 0x2054, .plain .connector⟩, ⟨0x2126, 0x2126, .cased .upper 0 (-7517)⟩,
  ⟨0x212A, 0x212A, .cased .upper 0 (-8383)⟩, ⟨0x2160, 0x216F, .cased .letterNumber 0 16⟩,
  ⟨0x2170, 0x217F, .cased .letterNumber (-16) 0⟩, ⟨0x2180, 0x2182, .plain .letterNumber⟩,
  ⟨0x24B6, 0x24CF, .cased .other 0 26⟩, ⟨0x24D0, 0x24E9, .cased .other (-26) 0⟩,
  ⟨0x3005, 0x3005, .plain .letter⟩, ⟨0x3007, 0x3007, .plain .letterNumber⟩,
  ⟨0x3041, 0x3096, .plain .letter⟩, ⟨0x30A1, 0x30FA, .plain .letter⟩,
  ⟨0x30FC, 0x30FE, .plain .letter⟩, ⟨0x4E00, 0x9FA5, .plain .letter⟩,
  ⟨0xAB70, 0xABBF, .cased .lower (-38864) 0⟩, ⟨0xAC00, 0xD7A3, .plain .letter⟩,
  ⟨0xFB00, 0xFB06, .plain .lower⟩, ⟨0xFE33, 0xFE34, .plain .connector⟩,
  ⟨0xFF10, 0xFF19, .plain .digit⟩, ⟨0xFF21, 0xFF3A, .cased .upper 0 32⟩,
  ⟨0xFF3F, 0xFF3F, .plain .connector⟩, ⟨0xFF41, 0xFF5A, .cased .lower (-32) 0⟩,
  ⟨0x10400, 0x10427, .cased .upper 0 40⟩, ⟨0x10428, 0x1044F, .cased .lower (-40) 0⟩,
  ⟨0x1D400, 0x1D419, .plain .upper⟩, ⟨0x1D41A, 0x1D433, .plain .lower⟩,
  ⟨0x1D7CE, 0x1D7FF, .plain .digit⟩, ⟨0x20000, 0x2A6D6, .plain .letter⟩]

def range? (c : CodePoint) : Option Range :=
  ranges.find? fun r => r.first ≤ c && c ≤ r.last

/-- The general category of a code point. -/
def category (c : CodePoint) : Category :=
  match range? c with
  | none => .other
  | some r =>
    match r.kind with
    | .plain k => k
    | .cased k _ _ => k
    | .alternating => if (c - r.first) % 2 = 0 then .upper else .lower

def toUpper (c : CodePoint) : CodePoint :=
  match range? c with
  | none => c
  | some r =>
    match r.kind with
    | .plain _ => c
    | .cased _ up _ => (c + up).toNat
    | .alternating => if (c - r.first) % 2 = 0 then c else c - 1

def toLower (c : CodePoint) : CodePoint :=
  match range? c with
  | none => c
  | some r =>
    match r.kind with
    | .plain _ => c
    | .cased _ _ low => (c + low).toNat
    | .alternating => if (c - r.first) % 2 = 0 then c + 1 else c

end CharacterTable

def CharacterData.table : CharacterData := ⟨CharacterTable.category, CharacterTable.toUpper, CharacterTable.toLower⟩

end Typewright
