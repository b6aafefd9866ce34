import Typewright.Graph.Basic
import Typewright.Name.Table

/-!
# Type expressions

How types are written in a module.

* `TypeExpr`, `TypeExpr.text`: expressions and their text.
* `ExprContext`: what the expression for a type depends on besides the graph.
* `typeExpr`: the expression for a type.
-/

namespace Typewright

/-- Types that have a name of their own in Python. -/
inductive Builtin where
  | any
  | none
  | bool
  | int
  | float
  | str
  | date
  | time
  | datetime
  deriving DecidableEq, Repr

namespace Builtin

def name (b : Builtin) : Bytes :=
  Bytes.ascii <| match b with
    | .any => "Any"
    | .none => "None"
    | .bool => "bool"
    | .int => "int"
    | .float => "float"
    | .str => "str"
    | .date => "date"
    | .time => "time"
    | .datetime => "datetime"

/-- The builtin type that a primitive type is written as; the sentinel is not written at all. -/
def ofPrimitive? : Primitive → Option Builtin
  | .none => Option.none
  | .any => some .any
  | .null => some .none
  | .bool => some .bool
  | .integer => some .int
  | .double => some .float
  | .string => some .str
  | .date => some .date
  | .time => some .time
  | .dateTime => some .datetime

end Builtin

/-- A type expression. -/
inductive TypeExpr where
  | builtin (b : Builtin)
  | list (items : TypeExpr)
  | dict (values : TypeExpr)
  | optional (inner : TypeExpr)
  /-- The name of a declaration. -/
  | named (name : Bytes)
  /-- The name of a declaration that is not bound yet, as a string. -/
  | quoted (name : Bytes)
  /-- One of several types. -/
  | oneOf (members : List TypeExpr)
  deriving Repr

namespace TypeExpr

mutual

def text : TypeExpr → Bytes
  | .builtin b => b.name
  | .list e => Bytes.ascii "list[" ++ e.text ++ Bytes.ascii "]"
  | .dict e => Bytes.ascii "dict[str, " ++ e.text ++ Bytes.ascii "]"
  | .optional e => Bytes.ascii "Optional[" ++ e.text ++ Bytes.ascii "]"
  | .named name => name
  | .quoted name => Bytes.quoted name
  | .oneOf es => Bytes.join (Bytes.ascii " | ") (texts es)

def texts : List TypeExpr → List Bytes
  | [] => []
  | e :: es => e.text :: texts es

end

end TypeExpr

/-! ## Expressions for types -/

/-- What is being written. -/
inductive Place where
  | property (label : Bytes) (className : Bytes)
  | union (name : Bytes)
  | topLevel (label : Bytes)
  deriving DecidableEq, Repr

/-- A place in words. -/
def Place.text : Place → Bytes
  | .property label className =>
    Bytes.ascii "property " ++ Bytes.named label ++ Bytes.ascii " of class " ++ className
  | .union name => Bytes.ascii "union " ++ name
  | .topLevel label => Bytes.ascii "top-level " ++ Bytes.named label

/-- Why a type cannot be written. -/
inductive RenderError where
  /-- The sentinel among the primitive types was reached. -/
  | noneReached (place : Option Place)
  | unknownType (id : TypeId)
  | unnamed (e : NameError)
  deriving DecidableEq, Repr

/-- The wording of a render error, up to a NUL byte in it. -/
def RenderError.message? : RenderError → Option Bytes
  | .noneReached place =>
    let suffix := match place with
      | none => []
      | some p => Bytes.ascii " in " ++ p.text
    some (Bytes.ascii "none type reached the renderer: " ++ Primitive.none.name ++ suffix).untilNul
  | .unknownType _ => none
  | .unnamed e => e.message?

/-- What the expression for a type depends on besides the graph. -/
structure ExprContext where
  names : NameTable
  /-- Whether unions are declared under a name. -/
  declareUnions : Bool
  /-- Whether expressions are evaluated where they stand, so that names must be bound before. -/
  eager : Bool
  /-- The declared unions that are bound already. -/
  bound : List TypeId
  /-- What is being written. -/
  place : Option Place
  deriving DecidableEq, Repr

namespace ExprContext

/-- Nothing is named yet. -/
def initial (declareUnions : Bool) : ExprContext := ⟨.empty, declareUnions, false, [], none⟩

def atPlace (c : ExprContext) (p : Place) : ExprContext := { c with place := some p }

def typeName (c : ExprContext) (id : TypeId) : Except RenderError Bytes :=
  (c.names.type id).mapError .unnamed

end ExprContext

/-- The expression for a type. The parts of a type other than a class have smaller numbers. -/
def typeExpr (c : ExprContext) (g : Graph) (id : TypeId) : Except RenderError TypeExpr :=
  let part (t : TypeId) : Except RenderError TypeExpr :=
    if t < id then typeExpr c g t else .error (.unknownType t)
  match g.node? id with
  | none => .error (.unknownType id)
  | some (.primitive p) =>
    match Builtin.ofPrimitive? p with
    | none => .error (.noneReached c.place)
    | some b => .ok (.builtin b)
  | some (.array items) => (part items).map .list
  | some (.map values) => (part values).map .dict
  | some (.record _ _) | some (.enum _ _) => (c.typeName id).map .named
  | some (.union _ members) =>
    match g.nullableInner? id with
    | some inner => (part inner).map .optional
    | none =>
      if c.declareUnions then
        (c.typeName id).map (if c.eager && id ∉ c.bound then .quoted else .named)
      else (members.mapM part).map .oneOf
termination_by id

/-- The expression for a property: an optional one may be missing, unless its type allows that already. -/
def propertyExpr (c : ExprContext) (g : Graph) (p : Property) : Except RenderError TypeExpr :=
  let wrapped := p.optional && (g.nullableInner? p.type).isNone && !g.isPrimitive .null p.type
    && !g.isPrimitive .any p.type
  (typeExpr c g p.type).map fun e => if wrapped then .optional e else e

end Typewright
