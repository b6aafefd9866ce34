import Typewright.Module.Sheet
import Typewright.Module.TypeExpr

/-!
# Modules

A module declares classes and enums, then unions, then aliases; comments and imports stand above. It imports
what its expressions and declarations use and nothing else.

* `Module`, `Block`, `UnionBlock`, `Alias`: the parts of a module.
* `Import`, `Module.imports`: what is imported.
* `Module.header`, `Module.lines`: the text.
-/

namespace Typewright

/-- A property of a class with its type. -/
structure Field where
  name : Bytes
  type : TypeExpr
  deriving Repr

/-- The declaration of a class or of an enum. -/
inductive Block where
  | record (name : Bytes) (fields : List Field)
  | enum (name : Bytes) (cases : List Bytes)
  deriving Repr

/-- The declaration of a union. -/
structure UnionBlock where
  name : Bytes
  members : List TypeExpr
  deriving Repr

/-- A name for a type expression. -/
structure Alias where
  name : Bytes
  type : TypeExpr
  deriving Repr

/-- A module. -/
structure Module where
  comments : List Bytes
  /-- Whether annotations are left unevaluated, so that they may refer to later declarations. -/
  postponed : Bool
  blocks : List Block
  unions : List UnionBlock
  aliases : List Alias
  deriving Repr

/-! ## Imports -/

/-- A name that a module may import. -/
inductive Import where
  | any
  | optional
  | union
  | date
  | datetime
  | time
  | enum
  deriving DecidableEq, Repr

def Import.name (i : Import) : Bytes :=
  Bytes.ascii <| match i with
    | .any => "Any"
    | .optional => "Optional"
    | .union => "Union"
    | .date => "date"
    | .datetime => "datetime"
    | .time => "time"
    | .enum => "Enum"

def Builtin.imports : Builtin → List Import
  | .any => [.any]
  | .date => [.date]
  | .time => [.time]
  | .datetime => [.datetime]
  | _ => []

namespace TypeExpr

mutual

def imports : TypeExpr → List Import
  | .builtin b => b.imports
  | .list e => e.imports
  | .dict e => e.imports
  | .optional e => .optional :: e.imports
  | .named _ => []
  | .quoted _ => []
  | .oneOf es => importsAll es

def importsAll : List TypeExpr → List Import
  | [] => []
  | e :: es => e.imports ++ importsAll es

end

end TypeExpr

def Block.imports : Block → List Import
  | .record _ fields => fields.flatMap fun f => f.type.imports
  | .enum _ _ => [.enum]

def UnionBlock.imports (u : UnionBlock) : List Import := .union :: TypeExpr.importsAll u.members

namespace Module

def imports (m : Module) : List Import :=
  m.blocks.flatMap Block.imports ++ m.unions.flatMap UnionBlock.imports
    ++ m.aliases.flatMap fun a => a.type.imports

/-- A line that imports from `library` those of some names that are needed; none if no name is. -/
def importLine (library : String) (names : List Import) (needed : List Import) : List Bytes :=
  match names.filter (· ∈ needed) with
  | [] => []
  | used =>
    [Bytes.ascii "from " ++ Bytes.ascii library ++ Bytes.ascii " import "
      ++ Bytes.join (Bytes.ascii ", ") (used.map Import.name)]

/-- The lines of the imports; libraries and names are in alphabetical order. -/
def importLines (m : Module) : List Bytes :=
  importLine "datetime" [.date, .datetime, .time] m.imports
    ++ importLine "enum" [.enum] m.imports
    ++ importLine "typing" [.any, .optional, .union] m.imports

/-- Groups of lines with an empty line between those that are not empty. -/
def joinGroups (groups : List (List Bytes)) : List Bytes :=
  match groups.filter fun g => !g.isEmpty with
  | [] => []
  | g :: gs => g ++ gs.flatMap ([] :: ·)

/-- The lines above the declarations: comments, the switch for annotations, imports. -/
def header (m : Module) : List Bytes :=
  joinGroups [
    commentLines (Bytes.ascii "# ") m.comments,
    if m.postponed then [Bytes.ascii "from __future__ import annotations"] else [],
    m.importLines]

end Module

/-! ## Text -/

def Field.text (f : Field) : Bytes := f.name ++ Bytes.ascii ": " ++ f.type.text

/-- The widest line for the signature of a constructor. -/
def signatureWidth : Nat := 79

/-- Writes the signature of a constructor: in one line if it fits, otherwise with a line for each parameter. -/
def Sheet.signature (s : Sheet) (fields : List Field) : Sheet :=
  let oneLine := Bytes.ascii "def __init__("
    ++ Bytes.join (Bytes.ascii ", ") (Bytes.ascii "self" :: fields.map Field.text) ++ Bytes.ascii ") -> None:"
  if s.indentation.length + oneLine.length ≤ signatureWidth then s.line oneLine
  else
    let s := (s.line (Bytes.ascii "def __init__(")).indent.line (Bytes.ascii "self,")
    let s := s.writeLines (fields.map fun f => f.text ++ Bytes.ascii ",")
    s.dedent.line (Bytes.ascii ") -> None:")

/-- The number of a case of an enum. It is counted in 32 bits. -/
def caseNumber (i : Nat) : Bytes := Bytes.decimalInt (Int32.ofNat i).toInt

def Block.write (s : Sheet) : Block → Sheet
  | .record name fields =>
    let s := (s.line (Bytes.ascii "class " ++ name ++ Bytes.ascii ":")).indent
    if fields.isEmpty then (s.line (Bytes.ascii "pass")).dedent
    else
      let s := (s.writeLines (fields.map Field.text)).gap 1
      let s := (s.signature fields).indent
      let s := s.writeLines (fields.map fun f => Bytes.ascii "self." ++ f.name ++ Bytes.ascii " = " ++ f.name)
      s.dedent.dedent
  | .enum name cases =>
    let s := (s.line (Bytes.ascii "class " ++ name ++ Bytes.ascii "(Enum):")).indent
    let s := if cases.isEmpty then s.line (Bytes.ascii "pass") else s
    let s := s.writeLines (cases.zipIdx.map fun (c, i) => c ++ Bytes.ascii " = " ++ caseNumber i)
    s.dedent

def UnionBlock.write (s : Sheet) (u : UnionBlock) : Sheet :=
  let s := (s.line (u.name ++ Bytes.ascii " = Union[")).indent
  let s := s.writeLines (u.members.map fun e => e.text ++ Bytes.ascii ",")
  s.dedent.line (Bytes.ascii "]")

def Alias.text (a : Alias) : Bytes := a.name ++ Bytes.ascii " = " ++ a.type.text

namespace Module

/-- Writes the declarations and aliases, two empty lines apart; aliases stand together. -/
def body (m : Module) : Sheet :=
  let s := Sheet.blank (Bytes.ascii "    ")
  let s := m.blocks.foldl (fun s b => Block.write (s.gap 2) b) s
  let s := m.unions.foldl (fun s u => UnionBlock.write (s.gap 2) u) s
  if m.aliases.isEmpty then s else (s.gap 2).writeLines (m.aliases.map Alias.text)

/-- The header with the gap that separates it from the rest, if there is both. -/
def headerLines (m : Module) : List Bytes :=
  if m.header.isEmpty || m.body.isEmpty then m.header else m.header ++ [[], []]

def lines (m : Module) : List Bytes := (m.body.putFirst m.headerLines).finish

end Module

end Typewright
