import Typewright.Edn.Form

/-!
# The grammar of the notation

What a source may look like and what it stands for, without a reader.

* `Tree` : a form without positions, in which a map consists of its entries; `Form.tree?` forgets the positions;
* `Trivia`, `Trailing` : what may stand between forms and behind the last one;
* `Longest L token rest` : a token of the language `L` that what follows does not prolong;
* `Lexeme a s rest` : the source `s` starts with the atom `a`, and `rest` is behind it;
* `Derives n s rest`, `DerivesAll ns s rest` : the same for a tree and for several trees with trivia between them;
* `Source n s` : the whole source spells one tree.
-/

namespace Typewright.Edn

/-! ## Trees -/

/-- A form without positions. -/
inductive Tree where
  | atom (a : Atom)
  | list (items : List Tree)
  | vector (items : List Tree)
  | map (entries : List (Tree × Tree))

/-- Neighbours as pairs; nobody may be left over. -/
def pairs? {α : Type} : List α → Option (List (α × α))
  | [] => some []
  | [_] => none
  | a :: b :: rest => (pairs? rest).map ((a, b) :: ·)

/-- The items of which pairs consist. -/
def unpaired {α : Type} (entries : List (α × α)) : List α := entries.flatMap fun e => [e.1, e.2]

mutual

/-- A form without its positions. -/
def Form.tree? : Form → Option Tree
  | .absent => none
  | .atom _ a => some (.atom a)
  | .seq _ .round items => (Form.trees? items).map .list
  | .seq _ .square items => (Form.trees? items).map .vector
  | .seq _ .curly items => ((Form.trees? items).bind pairs?).map .map

def Form.trees? : List Form → Option (List Tree)
  | [] => some []
  | f :: fs => f.tree?.bind fun n => (Form.trees? fs).map (n :: ·)

end

/-! ## Trivia -/

/-- Space, comma, tab, carriage return, line feed, form feed and vertical tab. -/
def blanks : Bytes := [32, 44, 9, 13, 10, 12, 11]

/-- Blanks and comments. A comment reaches up to the end of its line. -/
inductive Trivia : Bytes → Prop
  | nil : Trivia []
  | blank {b : UInt8} {s : Bytes} (hb : b ∈ blanks) (hs : Trivia s) : Trivia (b :: s)
  | comment {text s : Bytes} (ht : Bytes.lineFeed ∉ text) (hs : Trivia s) :
      Trivia (Bytes.byte ';' :: (text ++ Bytes.lineFeed :: s))

/-- Trivia at the end of a source, where a last comment needs no end of line. -/
inductive Trailing : Bytes → Prop
  | trivia {s : Bytes} (hs : Trivia s) : Trailing s
  | comment {s text : Bytes} (hs : Trivia s) (ht : Bytes.lineFeed ∉ text) : Trailing (s ++ Bytes.byte ';' :: text)

/-! ## Tokens -/

/-- A token of a language of which no longer one is in front of the same source. -/
structure Longest (L : Bytes → Prop) (token rest : Bytes) : Prop where
  mem : L token
  maximal : ∀ more rest', rest = more ++ rest' → L (token ++ more) → more = []

/-- How a number is written: perhaps a sign, digits, perhaps a point and digits, perhaps an exponent. -/
structure Numeral.WellFormed (n : Numeral) : Prop where
  sign : ∀ b ∈ n.sign, isSign b = true
  whole_ne_nil : n.whole ≠ []
  whole : ∀ b ∈ n.whole, Bytes.isDigit b = true
  fraction : ∀ f ∈ n.fraction, ∀ b ∈ f, Bytes.isDigit b = true
  mark : ∀ e ∈ n.exponent, e.mark = Bytes.byte 'e' ∨ e.mark = Bytes.byte 'E'
  exponentSign : ∀ e ∈ n.exponent, ∀ b ∈ e.sign, isSign b = true
  exponentDigits : ∀ e ∈ n.exponent, ∀ b ∈ e.digits, Bytes.isDigit b = true

/-- What a number stands for. Without a point and without an exponent it is an integer of 64 bits, otherwise a double;
a number outside their range stands for nothing. -/
inductive Numeral.Denotes (n : Numeral) : Atom → Prop
  | int {v : Int64} (hf : n.fraction = none) (he : n.exponent = none)
      (hv : v.toInt = if n.negative then -(Bytes.ofDecimal n.whole : Int) else Bytes.ofDecimal n.whole) :
      Denotes n (.int v)
  | double {x : Binary64} (h : n.fraction ≠ none ∨ n.exponent ≠ none)
      (hx : Binary64.ofScientific? n.negative (Bytes.ofDecimal (n.whole ++ n.fraction.getD []))
        ((n.exponent.map Exponent.value).getD 0 - (n.fraction.getD []).length) = some x) : Denotes n (.double x)

def IsNumeral (s : Bytes) : Prop := ∃ n : Numeral, n.WellFormed ∧ n.text = s

def IsKeyword (s : Bytes) : Prop :=
  ∃ name : Bytes, name ≠ [] ∧ (∀ b ∈ name, isSymbolByte b = true) ∧ s = Bytes.byte ':' :: name

/-- A byte that starts a symbol, and more bytes of symbols. -/
def IsWord (s : Bytes) : Prop :=
  ∃ b name, isSymbolStart b = true ∧ (∀ b ∈ name, isSymbolByte b = true) ∧ s = b :: name

/-- A sign with a digit behind it: this is how a number starts. -/
def StartsSigned (s : Bytes) : Prop := ∃ b d rest, s = b :: d :: rest ∧ isSign b = true ∧ Bytes.isDigit d = true

/-- What a word stands for: three words have a meaning of their own, all others are symbols. -/
inductive WordDenotes : Bytes → Atom → Prop
  | nil : WordDenotes (Bytes.ascii "nil") .nil
  | true : WordDenotes (Bytes.ascii "true") (.bool true)
  | false : WordDenotes (Bytes.ascii "false") (.bool false)
  | symbol {w : Bytes} (hw : w ∉ ["nil", "true", "false"].map Bytes.ascii) : WordDenotes w (.symbol w)

/-- What a byte behind a backslash stands for: some letters for control characters, all else for itself. -/
inductive Escapes : UInt8 → UInt8 → Prop
  | lineFeed : Escapes (Bytes.byte 'n') 10
  | carriageReturn : Escapes (Bytes.byte 'r') 13
  | tab : Escapes (Bytes.byte 't') 9
  | other {b : UInt8} (hb : b ∉ [Bytes.byte 'n', Bytes.byte 'r', Bytes.byte 't']) : Escapes b b

/-- What stands between the quotation marks of a string, and the string. -/
inductive StringBody : Bytes → Bytes → Prop
  | nil : StringBody [] []
  | plain {b : UInt8} {s value : Bytes} (hq : b ≠ Bytes.quote) (hb : b ≠ Bytes.backslash) (hs : StringBody s value) :
      StringBody (b :: s) (b :: value)
  | escape {e b : UInt8} {s value : Bytes} (he : Escapes e b) (hs : StringBody s value) :
      StringBody (Bytes.backslash :: e :: s) (b :: value)

/-- A source starts with an atom, and the rest is behind it. -/
inductive Lexeme : Atom → Bytes → Bytes → Prop
  | number {n : Numeral} {a : Atom} {rest : Bytes} (hn : n.WellFormed) (h : Longest IsNumeral n.text rest)
      (ha : n.Denotes a) : Lexeme a (n.text ++ rest) rest
  | keyword {name rest : Bytes} (h : Longest IsKeyword (Bytes.byte ':' :: name) rest) :
      Lexeme (.keyword name) (Bytes.byte ':' :: name ++ rest) rest
  | word {w rest : Bytes} {a : Atom} (h : Longest IsWord w rest) (hw : ¬ StartsSigned w) (ha : WordDenotes w a) :
      Lexeme a (w ++ rest) rest
  | string {body value rest : Bytes} (h : StringBody body value) :
      Lexeme (.string value) (Bytes.quote :: body ++ Bytes.quote :: rest) rest

/-! ## Forms -/

mutual

/-- A source starts with the spelling of a tree, and the rest is behind it. -/
inductive Derives : Tree → Bytes → Bytes → Prop
  | atom {a : Atom} {s rest : Bytes} (h : Lexeme a s rest) : Derives (.atom a) s rest
  | list {items : List Tree} {s rest : Bytes} (h : DerivesAll items s (Bracket.closer .round :: rest)) :
      Derives (.list items) (Bracket.opener .round :: s) rest
  | vector {items : List Tree} {s rest : Bytes} (h : DerivesAll items s (Bracket.closer .square :: rest)) :
      Derives (.vector items) (Bracket.opener .square :: s) rest
  | map {entries : List (Tree × Tree)} {s rest : Bytes}
      (h : DerivesAll (unpaired entries) s (Bracket.closer .curly :: rest)) :
      Derives (.map entries) (Bracket.opener .curly :: s) rest

/-- A source starts with several trees and trivia before, between and behind them, and then comes the rest. -/
inductive DerivesAll : List Tree → Bytes → Bytes → Prop
  | nil {t rest : Bytes} (ht : Trivia t) : DerivesAll [] (t ++ rest) rest
  | cons {n : Tree} {ns : List Tree} {t s s' rest : Bytes} (ht : Trivia t) (hn : Derives n s s')
      (hns : DerivesAll ns s' rest) : DerivesAll (n :: ns) (t ++ s) rest

end

/-- **A source spells a tree**: trivia, the tree, and trivia again. -/
def Source (n : Tree) (source : Bytes) : Prop :=
  ∃ t s rest, source = t ++ s ∧ Trivia t ∧ Derives n s rest ∧ Trailing rest

end Typewright.Edn
