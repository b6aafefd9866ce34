import Typewright.Text.Utf8

/-!
# Character classes and case

What a code point is, and which others are its upper and its lower case form, is said by a character database. The
database is no part of the library: everything that asks for it takes a `CharacterData`.

* `Category`: the categories told apart; everything else is `other`.
* `CharacterData`: the general categories and simple case mappings of a database; `CharacterData.ascii` has those of
  ASCII and no others.
* `CharacterData.isLetter`, …: the classes that the rest of the library asks for.
* `CharacterData.KnowsAscii`, `CharacterData.Standard`: what the character databases of Unicode have in common.
-/

namespace Typewright

/-- The general categories that words and identifiers distinguish. Modifier letters count as
`letter`. -/
inductive Category where
  | upper
  | lower
  | title
  | letter
  | nonspacing
  | spacing
  | digit
  | letterNumber
  | connector
  | other
  deriving DecidableEq, Repr

/-- The general category and the simple case mappings of each code point. -/
structure CharacterData where
  category : CodePoint → Category
  toUpper : CodePoint → CodePoint
  toLower : CodePoint → CodePoint

namespace CharacterData

/-! ## Classes -/

section Classes

variable (u : CharacterData) (c : CodePoint)

def isLetter : Bool :=
  match u.category c with
  | .upper | .lower | .title | .letter => true
  | _ => false

/-- Capitals, title case letters among them. -/
def isUpper : Bool :=
  match u.category c with
  | .upper | .title => true
  | _ => false

def isLower : Bool := u.category c == .lower

/-- Decimal digits of any script. -/
def isDigit : Bool := u.category c == .digit

/-- Connector punctuation, such as the underscore. -/
def isConnector : Bool := u.category c == .connector

/-- Combining marks that belong to the character before them. -/
def isMark : Bool :=
  match u.category c with
  | .nonspacing | .spacing => true
  | _ => false

/-- Letters and letter-like numbers. -/
def isAlphabetic : Bool := u.isLetter c || u.category c == .letterNumber

/-- Letters and decimal digits: what words consist of. -/
def isWord : Bool := u.isLetter c || u.isDigit c

end Classes

/-! ## ASCII -/

/-- The ASCII characters alone. -/
def ascii : CharacterData where
  category c :=
    if 65 ≤ c ∧ c ≤ 90 then .upper
    else if 97 ≤ c ∧ c ≤ 122 then .lower
    else if 48 ≤ c ∧ c ≤ 57 then .digit
    else if c = 95 then .connector
    else .other
  toUpper c := if 97 ≤ c ∧ c ≤ 122 then c - 32 else c
  toLower c := if 65 ≤ c ∧ c ≤ 90 then c + 32 else c

/-- The ASCII characters are what they are in ASCII. -/
structure KnowsAscii (u : CharacterData) : Prop where
  category_ascii : ∀ c < 128, u.category c = ascii.category c
  toUpper_ascii : ∀ c < 128, u.toUpper c = ascii.toUpper c
  toLower_ascii : ∀ c < 128, u.toLower c = ascii.toLower c

/-- What the databases of all Unicode versions say: besides the ASCII characters, that only scalar values have one of
the categories of identifiers, and that changing the case of a character does not take them from it. -/
structure Standard (u : CharacterData) : Prop extends KnowsAscii u where
  isScalar : ∀ c, u.category c ≠ .other → Utf8.IsScalar c
  category_toUpper : ∀ c, u.category c ≠ .other → u.category (u.toUpper c) ≠ .other
  category_toLower : ∀ c, u.category c ≠ .other → u.category (u.toLower c) ≠ .other

end CharacterData

namespace Character

def isAsciiLetter (c : CodePoint) : Bool := (97 ≤ c && c ≤ 122) || (65 ≤ c && c ≤ 90)

/-- The ASCII letters and digits and the underscore. -/
def isAsciiWord (c : CodePoint) : Bool := isAsciiLetter c || (48 ≤ c && c ≤ 57) || c == 95

end Character

end Typewright
