import Typewright.Name.Style
import Typewright.Options

/-!
# Identifiers of the target

Which characters identifiers of Python may hold, how labels are styled into them, and which words are
taken in each scope.
-/

namespace Typewright

/-- The scopes in which names must differ. -/
inductive Scope where
  /-- Declared types and aliases of the module. -/
  | global
  /-- The properties of one class. -/
  | properties
  /-- The cases of one enum. -/
  | cases
  deriving DecidableEq, Repr

namespace Identifier

section Characters

variable (u : CharacterData) (o : Options) (c : CodePoint)

/-- Whether an identifier may start with a character. -/
def isStart : Bool :=
  c == 95 || (if o.asciiIdentifiers then Character.isAsciiLetter c else u.isAlphabetic c)

/-- Whether a character may stand in an identifier. -/
def isPart : Bool :=
  if o.asciiIdentifiers then Character.isAsciiWord c
  else isStart u o c || u.isDigit c || u.isConnector c || u.isMark c

end Characters

/-- Type names and enum cases: `FirstUpperWords`, acronyms in capitals. -/
def typeStyle : NameStyle := ⟨.firstUpper, .firstUpper, .allUpper, .allUpper, []⟩

/-- Property names: `firstLowerWords`. -/
def propertyStyle : NameStyle := ⟨.allLower, .firstUpper, .allLower, .allUpper, []⟩

section Labels

variable (u : CharacterData) (o : Options)

/-- A label as an identifier. -/
def ofLabel (style : NameStyle) (label : Bytes) : Bytes :=
  combine u style (isPart u o) (isStart u o) (splitWords u label)

def typeName (label : Bytes) : Bytes := ofLabel u o typeStyle label

def propertyName (label : Bytes) : Bytes := ofLabel u o propertyStyle label

def caseName (label : Bytes) : Bytes := ofLabel u o typeStyle label

end Labels

def keywords : List Bytes := [
  "False", "None", "True", "and", "as", "assert", "async", "await", "break", "class", "continue", "def",
  "del", "elif", "else", "except", "finally", "for", "from", "global", "if", "import", "in", "is", "lambda",
  "nonlocal", "not", "or", "pass", "raise", "return", "try", "while", "with", "yield"].map Bytes.ascii

/-- The names that a module imports or relies on, and two that stay reserved. -/
def moduleNames : List Bytes := [
  "Any", "Optional", "Union", "Enum", "date", "time", "datetime", "list", "dict", "str", "int", "float",
  "bool", "type", "id"].map Bytes.ascii

/-- The names that an enum gives to members of its own. -/
def enumMembers : List Bytes := ["name", "value", "mro"].map Bytes.ascii

/-- The words that no name of a scope may be. -/
def reserved : Scope → List Bytes
  | .global => keywords ++ moduleNames
  | .properties => keywords ++ moduleNames ++ [Bytes.ascii "self"]
  | .cases => keywords ++ enumMembers

end Identifier

end Typewright
