import Typewright.Edn.Atom
import Typewright.Text.Position

/-!
# Tokens of the notation

A source falls into brackets and atoms. White space, commas and comments separate tokens; a token
reaches as far as its class of bytes does.

* `SyntaxFault`, `SyntaxError`: what can be wrong with a source, and where.
* `Token`: a bracket, an atom, or the fault that ends reading.
* `tokens`: the tokens of a located source, up to the first fault.
-/

namespace Typewright.Edn

/-- The three kinds of brackets: round for lists, square for vectors, curly for maps. -/
inductive Bracket where
  | round
  | square
  | curly
  deriving DecidableEq, Repr

namespace Bracket

def opener : Bracket → UInt8
  | .round => Bytes.byte '('
  | .square => Bytes.byte '['
  | .curly => 123

def closer : Bracket → UInt8
  | .round => Bytes.byte ')'
  | .square => Bytes.byte ']'
  | .curly => 125

def all : List Bracket := [.round, .square, .curly]

end Bracket

/-- What makes a source unreadable. -/
inductive SyntaxFault where
  | endOfInput
  | trailingText
  | unexpected (b : UInt8)
  | unterminatedString
  | badEscape
  | unterminatedCollection
  | oddMap
  | invalidNumber (text : Bytes)
  | emptySymbol
  deriving DecidableEq, Repr

/-- A fault and where it is. -/
structure SyntaxError where
  fault : SyntaxFault
  pos : Position
  deriving DecidableEq, Repr

def SyntaxFault.message : SyntaxFault → Bytes
  | .endOfInput => Bytes.ascii "unexpected end of input"
  | .trailingText => Bytes.ascii "unexpected trailing characters"
  | .unexpected b => Bytes.ascii "unexpected character " ++ Bytes.named [b]
  | .unterminatedString => Bytes.ascii "unterminated string"
  | .badEscape => Bytes.ascii "bad escape"
  | .unterminatedCollection => Bytes.ascii "unterminated collection"
  | .oddMap => Bytes.ascii "map requires even number of forms"
  | .invalidNumber s => Bytes.ascii "invalid number " ++ Bytes.named s
  | .emptySymbol => Bytes.ascii "empty symbol"

/-- The wording of an error: the fault and its position, up to a NUL byte in it. -/
def SyntaxError.message (e : SyntaxError) : Bytes :=
  (e.fault.message ++ Bytes.ascii " at " ++ e.pos.text).untilNul

/-- What a token is. -/
inductive TokenKind where
  | opening (b : Bracket)
  | closing (b : Bracket)
  | atom (a : Atom)
  /-- Here reading ends with an error. -/
  | broken (e : SyntaxError)
  deriving DecidableEq, Repr

/-- A token and the position of its first byte. -/
structure Token where
  pos : Position
  kind : TokenKind
  deriving DecidableEq, Repr

/-! ## Classes of bytes -/

/-- White space; a comma is as good as a blank. -/
def isBlank (b : UInt8) : Bool :=
  b == 32 || b == Bytes.byte ',' || b == 9 || b == 10 || b == 11 || b == 12 || b == 13

/-- The bytes that start a symbol: ASCII letters, some punctuation, and everything beyond ASCII. -/
def isSymbolStart (b : UInt8) : Bool :=
  (65 ≤ b && b ≤ 90) || (97 ≤ b && b ≤ 122) || (Bytes.ascii "*!_?-+/<>=$%&").contains b || 128 ≤ b

/-- The bytes that may stand inside a symbol. -/
def isSymbolByte (b : UInt8) : Bool :=
  isSymbolStart b || Bytes.isDigit b || (Bytes.ascii ".#:'").contains b

def isSign (b : UInt8) : Bool := b == Bytes.byte '+' || b == Bytes.byte '-'

/-- What a byte behind a backslash stands for. -/
def unescape (b : UInt8) : UInt8 :=
  if b = Bytes.byte 'n' then 10
  else if b = Bytes.byte 'r' then 13
  else if b = Bytes.byte 't' then 9
  else b

/-! ## Reading tokens -/

/-- The source behind white space and comments; the flag says that the source starts inside a
comment. A comment ends behind a line feed. -/
def skipBlank : Bool → List Located → List Located
  | _, [] => []
  | true, c :: rest => skipBlank (c.byte != Bytes.lineFeed) rest
  | false, c :: rest =>
    if c.byte = Bytes.byte ';' then skipBlank true rest
    else if isBlank c.byte then skipBlank false rest
    else c :: rest

/-- The bytes at the front that are in a class, and what follows them. -/
def spanBytes (p : UInt8 → Bool) (l : List Located) : Bytes × List Located :=
  (Located.bytes (l.takeWhile fun c => p c.byte), l.dropWhile fun c => p c.byte)

/-- A byte of the class at the front, if there is one. -/
def optionalByte (p : UInt8 → Bool) : List Located → Option UInt8 × List Located
  | [] => (none, [])
  | c :: rest => if p c.byte then (some c.byte, rest) else (none, c :: rest)

/-- The exponent at the front, if there is one. -/
def scanExponent : List Located → Option Exponent × List Located
  | [] => (none, [])
  | c :: rest =>
    if c.byte = Bytes.byte 'e' ∨ c.byte = Bytes.byte 'E' then
      let (sign, rest) := optionalByte isSign rest
      let (digits, rest) := spanBytes Bytes.isDigit rest
      (some ⟨c.byte, sign, digits⟩, rest)
    else (none, c :: rest)

/-- The point and the digits behind it at the front, if there is one. -/
def scanFraction : List Located → Option Bytes × List Located
  | [] => (none, [])
  | c :: rest =>
    if c.byte = Bytes.byte '.' then
      let (digits, rest) := spanBytes Bytes.isDigit rest
      (some digits, rest)
    else (none, c :: rest)

/-- The longest numeral that starts with the sign or digit `b`. -/
def scanNumeral (b : UInt8) (rest : List Located) : Numeral × List Located :=
  let (digits, rest) := spanBytes Bytes.isDigit rest
  let (fraction, rest) := scanFraction rest
  let (exponent, rest) := scanExponent rest
  if isSign b then (⟨some b, digits, fraction, exponent⟩, rest)
  else (⟨none, b :: digits, fraction, exponent⟩, rest)

/-- The rest of a string behind its opening quote. -/
def scanString (opened finish : Position) : List Located → Except SyntaxError (Bytes × List Located)
  | [] => .error ⟨.unterminatedString, opened⟩
  | c :: rest =>
    if c.byte = Bytes.quote then .ok ([], rest)
    else if c.byte = Bytes.backslash then
      match rest with
      | [] => .error ⟨.badEscape, finish⟩
      | e :: rest => (scanString opened finish rest).map fun (s, l) => (unescape e.byte :: s, l)
    else (scanString opened finish rest).map fun (s, l) => (c.byte :: s, l)

/-- Whether a number starts here: a digit, or a sign with a digit behind it. -/
def startsNumber (b : UInt8) (rest : List Located) : Bool :=
  Bytes.isDigit b ||
    (isSign b && match rest with
      | [] => false
      | c :: _ => Bytes.isDigit c.byte)

/-- The token that starts with `c`, and what follows it; nothing follows a fault. `finish` is the
position behind the source. -/
def scanToken (finish : Position) (c : Located) (rest : List Located) : Token × List Located :=
  let broken (f : SyntaxFault) : Token × List Located := (⟨c.pos, .broken ⟨f, c.pos⟩⟩, [])
  match Bracket.all.find? fun b => b.opener == c.byte with
  | some b => (⟨c.pos, .opening b⟩, rest)
  | none =>
  match Bracket.all.find? fun b => b.closer == c.byte with
  | some b => (⟨c.pos, .closing b⟩, rest)
  | none =>
    if c.byte = Bytes.quote then
      match scanString c.pos finish rest with
      | .ok (s, rest) => (⟨c.pos, .atom (.string s)⟩, rest)
      | .error e => (⟨c.pos, .broken e⟩, [])
    else if startsNumber c.byte rest then
      let (n, rest) := scanNumeral c.byte rest
      match n.atom? with
      | some a => (⟨c.pos, .atom a⟩, rest)
      | none => broken (.invalidNumber n.text)
    else if c.byte = Bytes.byte ':' then
      let (name, rest) := spanBytes isSymbolByte rest
      if name.isEmpty then broken .emptySymbol else (⟨c.pos, .atom (.keyword name)⟩, rest)
    else if isSymbolStart c.byte then
      let (name, rest) := spanBytes isSymbolByte rest
      (⟨c.pos, .atom (.ofWord (c.byte :: name))⟩, rest)
    else broken (.unexpected c.byte)

/-! ## Every token takes at least one byte -/

theorem length_skipBlank_le (inside : Bool) (l : List Located) :
    (skipBlank inside l).length ≤ l.length := by
  fun_induction skipBlank inside l <;> simp_all <;> omega

theorem length_spanBytes_le (p : UInt8 → Bool) (l : List Located) :
    (spanBytes p l).2.length ≤ l.length :=
  (List.dropWhile_suffix _).length_le

theorem length_optionalByte_le (p : UInt8 → Bool) (l : List Located) :
    (optionalByte p l).2.length ≤ l.length := by
  fun_cases optionalByte p l <;> simp

theorem length_scanFraction_le (l : List Located) : (scanFraction l).2.length ≤ l.length := by
  fun_cases scanFraction l with
  | case1 => simp
  | case2 c rest h digits rest' e =>
    have := length_spanBytes_le Bytes.isDigit rest
    simp_all
    omega
  | case3 => simp

theorem length_scanExponent_le (l : List Located) : (scanExponent l).2.length ≤ l.length := by
  fun_cases scanExponent l with
  | case1 => simp
  | case2 c rest h sign rest' e digits rest'' e' =>
    have h₁ := length_optionalByte_le isSign rest
    have h₂ := length_spanBytes_le Bytes.isDigit rest'
    simp_all
    omega
  | case3 => simp

theorem length_scanString_le {opened finish : Position} {l rest : List Located} {s : Bytes}
    (h : scanString opened finish l = .ok (s, rest)) : rest.length ≤ l.length := by
  fun_induction scanString opened finish l generalizing s rest with
  | case1 => simp at h
  | case2 => simp_all
  | case3 => simp at h
  | case4 c _ _ e rest' ih =>
    cases h' : scanString opened finish rest' with
    | error => simp [h', Except.map] at h
    | ok r =>
      obtain ⟨s', l'⟩ := r
      have := ih h'
      simp [h', Except.map] at h
      simp [← h.2]
      omega
  | case5 c rest' _ _ ih =>
    cases h' : scanString opened finish rest' with
    | error => simp [h', Except.map] at h
    | ok r =>
      obtain ⟨s', l'⟩ := r
      have := ih h'
      simp [h', Except.map] at h
      simp [← h.2]
      omega

theorem length_scanNumeral_le (b : UInt8) (rest : List Located) :
    (scanNumeral b rest).2.length ≤ rest.length := by
  have h₁ := length_spanBytes_le Bytes.isDigit rest
  have h₂ := length_scanFraction_le (spanBytes Bytes.isDigit rest).2
  have h₃ := length_scanExponent_le (scanFraction (spanBytes Bytes.isDigit rest).2).2
  simp only [scanNumeral]
  split <;> dsimp only <;> omega

theorem length_scanToken_le (finish : Position) (c : Located) (rest : List Located) :
    (scanToken finish c rest).2.length ≤ rest.length := by
  have h₁ := length_scanNumeral_le c.byte rest
  have h₂ := length_spanBytes_le isSymbolByte rest
  unfold scanToken
  split
  · simp
  split
  · simp
  split
  · split
    · next h => exact length_scanString_le h
    · simp
  split
  · dsimp only
    split <;> simp [h₁]
  split
  · dsimp only
    split <;> simp [h₂]
  split <;> simp [h₂]

/-- The tokens of a source, up to the first fault. -/
def tokens (finish : Position) (source : List Located) : List Token :=
  match h : skipBlank false source with
  | [] => []
  | c :: rest =>
    have : (scanToken finish c rest).2.length < source.length := by
      have h₁ := length_skipBlank_le false source
      have h₂ := length_scanToken_le finish c rest
      simp [h] at h₁
      omega
    (scanToken finish c rest).1 :: tokens finish (scanToken finish c rest).2
termination_by source.length

end Typewright.Edn
