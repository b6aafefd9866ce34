import Typewright.Text.Position

/-!
# Diagnostics

What can be wrong with a description of a graph, and how it is told.

* `Diagnostic`, `Report`: a coded message with its position, and the outcome of reading.
* `Fault`, `Caution`: the causes of errors and warnings; `Problem.diagnostic` and `Warning.diagnostic` word them.
* `Diagnostic.lines`: a diagnostic as lines for a terminal.
-/

namespace Typewright

/-- A remark that belongs to a diagnostic. -/
structure Note where
  message : Bytes
  pos : Position
  deriving DecidableEq, Repr

/-- A coded message about a place, with a hint how to mend it. -/
structure Diagnostic where
  code : Bytes
  message : Bytes
  hint : Bytes
  pos : Position
  notes : List Note
  deriving DecidableEq, Repr

/-- The outcome of reading a description. -/
structure Report where
  success : Bool
  errors : List Diagnostic
  warnings : List Diagnostic
  deriving DecidableEq, Repr

/-- The kinds of declarations. -/
inductive DeclarationKind where
  | record
  | enum
  | union
  deriving DecidableEq, Repr

namespace DeclarationKind

def word : DeclarationKind → Bytes
  | .record => Bytes.ascii "class"
  | .enum => Bytes.ascii "enum"
  | .union => Bytes.ascii "union"

def ofWord? (s : Bytes) : Option DeclarationKind := [.record, .enum, .union].find? fun k => k.word == s

end DeclarationKind

/-! ## Errors -/

/-- The causes of errors. A field `found` is the spelling of the form that stands there. -/
inductive Fault where
  | notAGraph
  | expectedKeyword (found : Bytes)
  | missingValue (key : Bytes)
  | commentsNotVector
  | commentNotString (found : Bytes)
  | typesNotVector
  | unknownDeclaration (found : Bytes)
  | unnamedDeclaration (kind : DeclarationKind)
  | shadowsPrimitive (name : Bytes) (kind : DeclarationKind)
  | duplicateDeclaration (name : Bytes) (previous : Position)
  | casesNotVector
  | caseNotName (found : Bytes)
  | membersMissing (name : Bytes)
  | propertiesNotVector
  | malformedProperty (found : Bytes)
  | incompleteProperty
  | duplicateProperty (name : Bytes)
  | optionalNotBool
  | topLevelsNotVector
  | malformedTopLevel (found : Bytes)
  | incompleteTopLevel
  | malformedType (found : Bytes)
  | notOneArgument (head : Bytes)
  | unknownConstructor (head : Bytes)
  | unknownType (name : Bytes) (similar : List Bytes)
  | recursiveUnion (name : Bytes)
  | tooFewMembers
  deriving DecidableEq, Repr

namespace Fault

def code (f : Fault) : Bytes :=
  Bytes.ascii <| match f with
    | .notAGraph => "E2001"
    | .expectedKeyword _ | .missingValue _ | .commentsNotVector | .commentNotString _ => "E2002"
    | .unnamedDeclaration _ => "E2010"
    | .duplicateDeclaration _ _ => "E2011"
    | .unknownDeclaration _ => "E2012"
    | .shadowsPrimitive _ _ => "E2013"
    | .unknownType _ _ => "E2020"
    | .malformedType _ | .notOneArgument _ | .unknownConstructor _ => "E2021"
    | .tooFewMembers => "E2022"
    | .recursiveUnion _ => "E2023"
    | .typesNotVector | .casesNotVector | .caseNotName _ | .membersMissing _ | .propertiesNotVector
    | .malformedProperty _ | .incompleteProperty | .optionalNotBool | .topLevelsNotVector
    | .malformedTopLevel _ => "E2030"
    | .duplicateProperty _ => "E2031"
    | .incompleteTopLevel => "E2040"

def message : Fault → Bytes
  | .notAGraph => Bytes.ascii "top form must be (graph ...)"
  | .expectedKeyword found => Bytes.ascii "expected keyword, found " ++ found
  | .missingValue key => Bytes.ascii "keyword :" ++ key ++ Bytes.ascii " has no value"
  | .commentsNotVector => Bytes.ascii ":comments must be a vector of strings"
  | .commentNotString found => Bytes.ascii "comment is not a string: " ++ found
  | .typesNotVector => Bytes.ascii ":types must be a vector of declarations"
  | .unknownDeclaration found => Bytes.ascii "unknown declaration kind: " ++ found
  | .unnamedDeclaration kind => kind.word ++ Bytes.ascii " declaration missing :name"
  | .shadowsPrimitive name _ =>
    Bytes.ascii "declaration name " ++ Bytes.named name ++ Bytes.ascii " shadows a primitive type"
  | .duplicateDeclaration name _ => Bytes.ascii "duplicate declaration " ++ Bytes.named name
  | .casesNotVector => Bytes.ascii "enum :cases must be a vector"
  | .caseNotName found => Bytes.ascii "enum case must be a string or symbol: " ++ found
  | .membersMissing name => Bytes.ascii "union " ++ Bytes.named name ++ Bytes.ascii " needs :members [...]"
  | .propertiesNotVector => Bytes.ascii "class :properties must be a vector"
  | .malformedProperty found => Bytes.ascii "property entry malformed: " ++ found
  | .incompleteProperty => Bytes.ascii "property needs :name and :type"
  | .duplicateProperty name => Bytes.ascii "duplicate property " ++ Bytes.named name
  | .optionalNotBool => Bytes.ascii ":optional must be true or false"
  | .topLevelsNotVector => Bytes.ascii ":top-levels must be a vector"
  | .malformedTopLevel found => Bytes.ascii "top-level entry malformed: " ++ found
  | .incompleteTopLevel => Bytes.ascii "top-level missing :name or :type"
  | .malformedType found => Bytes.ascii "malformed type form: " ++ found
  | .notOneArgument head => Bytes.ascii "(" ++ head ++ Bytes.ascii " ...) takes exactly one type"
  | .unknownConstructor head => Bytes.ascii "unknown type constructor " ++ Bytes.named head
  | .unknownType name _ => Bytes.ascii "unknown type " ++ Bytes.named name
  | .recursiveUnion name => Bytes.ascii "union " ++ Bytes.named name ++ Bytes.ascii " contains itself"
  | .tooFewMembers => Bytes.ascii "union has fewer than two distinct members"

def propertyShape : Bytes := Bytes.ascii "(prop :name \"x\" :type T)"

def topLevelShape : Bytes := Bytes.ascii "(top :name \"X\" :type T)"

/-- How to mend a fault. -/
def hint : Fault → Bytes
  | .notAGraph => Bytes.ascii "wrap the description in (graph :top-levels [...] :types [...])"
  | .expectedKeyword _ => Bytes.ascii "use :key value pairs"
  | .missingValue key => Bytes.ascii "add a value after :" ++ key
  | .commentsNotVector => Bytes.ascii "use :comments [\"...\"]"
  | .commentNotString _ => Bytes.ascii "quote the comment text"
  | .typesNotVector => Bytes.ascii "use :types [ (class ...) (enum ...) (union ...) ]"
  | .unknownDeclaration _ => Bytes.ascii "expected class, enum or union"
  | .unnamedDeclaration kind => Bytes.ascii "provide (" ++ kind.word ++ Bytes.ascii " :name Name ...)"
  | .shadowsPrimitive _ kind => Bytes.ascii "rename the " ++ kind.word
  | .duplicateDeclaration _ _ => Bytes.ascii "choose a unique name"
  | .casesNotVector => Bytes.ascii "use :cases [\"a\" \"b\"]"
  | .caseNotName _ => Bytes.ascii "quote the case label"
  | .membersMissing _ => Bytes.ascii "use :members [T1 T2 ...]"
  | .propertiesNotVector => Bytes.ascii "use :properties [ " ++ propertyShape ++ Bytes.ascii " ]"
  | .malformedProperty _ | .incompleteProperty => Bytes.ascii "use " ++ propertyShape
  | .duplicateProperty _ => Bytes.ascii "property names must be unique within a class"
  | .optionalNotBool => []
  | .topLevelsNotVector => Bytes.ascii "use :top-levels [ " ++ topLevelShape ++ Bytes.ascii " ]"
  | .malformedTopLevel _ | .incompleteTopLevel => Bytes.ascii "use " ++ topLevelShape
  | .malformedType _ => Bytes.ascii "use a type name or (array T) (map T) (nullable T) (union T...)"
  | .notOneArgument head => Bytes.ascii "write (" ++ head ++ Bytes.ascii " T)"
  | .unknownConstructor _ => Bytes.ascii "expected array, map, nullable or union"
  | .unknownType _ _ => Bytes.ascii "declare it under :types or use a primitive"
  | .recursiveUnion _ => Bytes.ascii "break the cycle through a class"
  | .tooFewMembers => Bytes.ascii "use the member type directly"

/-- Several words as an enumeration: `a, b or c`. -/
def enumerate : List Bytes → Bytes
  | [] => []
  | [a] => a
  | [a, b] => a ++ Bytes.ascii " or " ++ b
  | a :: rest => a ++ Bytes.ascii ", " ++ enumerate rest

/-- The remarks to a fault at a position: where a name was declared before, or similar names. -/
def notes (f : Fault) (pos : Position) : List Note :=
  match f with
  | .duplicateDeclaration _ previous => [⟨Bytes.ascii "previous declaration here", previous⟩]
  | .unknownType _ [] => []
  | .unknownType _ similar => [⟨Bytes.ascii "did you mean " ++ enumerate similar, pos⟩]
  | _ => []

end Fault

/-- A fault and where it is. -/
structure Problem where
  fault : Fault
  pos : Position
  deriving DecidableEq, Repr

def Problem.diagnostic (p : Problem) : Diagnostic :=
  ⟨p.fault.code, p.fault.message, p.fault.hint, p.pos, p.fault.notes p.pos⟩

/-! ## Warnings -/

/-- The causes of warnings. -/
inductive Caution where
  | unknownSection (key : Bytes)
  | noTopLevels
  | unreachable (kind : DeclarationKind) (name : Bytes)
  deriving DecidableEq, Repr

/-- A caution and where it applies. -/
structure Warning where
  caution : Caution
  pos : Position
  deriving DecidableEq, Repr

def Warning.diagnostic (w : Warning) : Diagnostic :=
  match w.caution with
  | .unknownSection key =>
    ⟨Bytes.ascii "W2101", Bytes.ascii "unknown graph section :" ++ key ++ Bytes.ascii " ignored",
      Bytes.ascii "known sections: :comments :top-levels :types", w.pos, []⟩
  | .noTopLevels =>
    ⟨Bytes.ascii "W2102", Bytes.ascii "graph has no :top-levels", Bytes.ascii "nothing will be rendered",
      w.pos, []⟩
  | .unreachable kind name =>
    ⟨Bytes.ascii "W2100",
      kind.word ++ Bytes.ascii " " ++ Bytes.named name ++ Bytes.ascii " is not reachable from any top-level",
      Bytes.ascii "it will not be rendered", w.pos, []⟩

/-! ## Diagnostics on a terminal -/

/-- The lines for a diagnostic of a kind (`error` or `warning`) about a file. A position outside every
source, and an empty code or hint, are left out. -/
def Diagnostic.lines (file : Bytes) (kind : String) (d : Diagnostic) : Bytes :=
  let place := if 0 ≤ d.pos.line then Bytes.byte ':' :: d.pos.text else []
  let code := if d.code.isEmpty then [] else Bytes.byte '[' :: d.code ++ [Bytes.byte ']']
  let hint := if d.hint.isEmpty then [] else Bytes.ascii "  hint: " ++ d.hint ++ [Bytes.lineFeed]
  let note (n : Note) : Bytes :=
    let place := if 0 ≤ n.pos.line then Bytes.ascii " (line " ++ n.pos.text ++ Bytes.ascii ")" else []
    Bytes.ascii "  note: " ++ n.message ++ place ++ [Bytes.lineFeed]
  file ++ place ++ Bytes.ascii ": " ++ Bytes.ascii kind ++ code ++ Bytes.ascii ": " ++ d.message
    ++ [Bytes.lineFeed] ++ hint ++ d.notes.flatMap note

end Typewright
