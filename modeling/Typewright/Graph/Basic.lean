import Typewright.Text.Bytes

/-!
# Type graphs

Types live in a graph and are known by their number in it. The first ten are the primitive types; arrays
and maps exist once for each content; classes, enums and unions are new each time. Only the properties of a
class may lead back to later types, so apart from classes a type is built from earlier ones.

* `Primitive`, `Node`, `Graph`: the data.
* `Graph.array`, `Graph.record`, `Graph.union`, …: the ways to grow a graph; each checks the numbers it is given.
* `Graph.nullableInner?`, `Graph.describe`: questions about a type.
-/

namespace Typewright

/-- The number of a type in its graph. -/
abbrev TypeId := Nat

/-- The primitive types. `none` is a sentinel that cannot be rendered. -/
inductive Primitive where
  | none
  | any
  | null
  | bool
  | integer
  | double
  | string
  | date
  | time
  | dateTime
  deriving DecidableEq, Repr

namespace Primitive

/-- All primitive types, in the order of their numbers. -/
def all : List Primitive :=
  [.none, .any, .null, .bool, .integer, .double, .string, .date, .time, .dateTime]

/-- The number of a primitive type in every graph. -/
def id : Primitive → TypeId
  | .none => 0
  | .any => 1
  | .null => 2
  | .bool => 3
  | .integer => 4
  | .double => 5
  | .string => 6
  | .date => 7
  | .time => 8
  | .dateTime => 9

def name (p : Primitive) : Bytes :=
  Bytes.ascii <| match p with
    | .none => "none"
    | .any => "any"
    | .null => "null"
    | .bool => "bool"
    | .integer => "integer"
    | .double => "double"
    | .string => "string"
    | .date => "date"
    | .time => "time"
    | .dateTime => "date-time"

def ofName? (s : Bytes) : Option Primitive := all.find? fun p => p.name == s

end Primitive

/-- A property of a class. -/
structure Property where
  name : Bytes
  type : TypeId
  optional : Bool
  deriving DecidableEq, Repr

/-- A type. Classes (`record`), enums and unions carry a hint for their name. -/
inductive Node where
  | primitive (p : Primitive)
  | array (items : TypeId)
  | map (values : TypeId)
  | record (hint : Bytes) (properties : List Property)
  | enum (hint : Bytes) (cases : List Bytes)
  | union (hint : Bytes) (members : List TypeId)
  deriving DecidableEq, Repr

namespace Node

/-- The types that a type refers to directly. -/
def children : Node → List TypeId
  | .primitive _ => []
  | .array items => [items]
  | .map values => [values]
  | .record _ properties => properties.map Property.type
  | .enum _ _ => []
  | .union _ members => members

def hint : Node → Bytes
  | .record h _ => h
  | .enum h _ => h
  | .union h _ => h
  | _ => []

def isRecord : Node → Bool
  | .record _ _ => true
  | _ => false

def isUnion : Node → Bool
  | .union _ _ => true
  | _ => false

def isNamed : Node → Bool
  | .record _ _ | .enum _ _ | .union _ _ => true
  | _ => false

end Node

/-- A named entry point of a graph. -/
structure TopLevel where
  name : Bytes
  type : TypeId
  deriving DecidableEq, Repr

/-- A graph of types with its entry points. -/
structure Graph where
  nodes : Array Node
  tops : List TopLevel
  deriving DecidableEq, Repr

/-- Why a graph refuses to grow. -/
inductive GraphError where
  | unknownType (id : TypeId)
  | tooFewMembers (hint : Bytes)
  | notAClass (description : Bytes)
  deriving DecidableEq, Repr

/-- The wording of a graph error, up to a NUL byte in it. -/
def GraphError.message : GraphError → Bytes
  | .unknownType id => Bytes.ascii "type id " ++ Bytes.decimal id ++ Bytes.ascii " is not part of this graph"
  | .tooFewMembers hint =>
    (Bytes.ascii "union " ++ Bytes.named hint ++ Bytes.ascii " needs at least two distinct members").untilNul
  | .notAClass d => (Bytes.ascii "set_class_properties: " ++ d ++ Bytes.ascii " is not a class").untilNul

/-- The elements of a list, each where it occurs first. -/
def distinct : List TypeId → List TypeId
  | [] => []
  | a :: l => a :: (distinct l).filter (· ≠ a)

namespace Graph

/-- The graph of the primitive types. -/
def empty : Graph := ⟨(Primitive.all.map Node.primitive).toArray, []⟩

def size (g : Graph) : Nat := g.nodes.size

def node? (g : Graph) (id : TypeId) : Option Node := g.nodes[id]?

/-- The types that a type refers to directly; none for a number outside the graph. -/
def children (g : Graph) (id : TypeId) : List TypeId :=
  match g.node? id with
  | some n => n.children
  | none => []

def isPrimitive (g : Graph) (p : Primitive) (id : TypeId) : Bool := g.node? id = some (.primitive p)

/-- A union of two members, one of them `null`, is nullable; this is its other member. -/
def nullableInner? (g : Graph) (id : TypeId) : Option TypeId :=
  match g.node? id with
  | some (.union _ [a, b]) =>
    if g.isPrimitive .null a then some b
    else if g.isPrimitive .null b then some a
    else none
  | _ => none

/-- A short text for messages. Arrays and maps show their content, which has a smaller number. -/
def describe (g : Graph) (id : TypeId) : Bytes :=
  let inside (t : TypeId) : Bytes := if t < id then describe g t else []
  let tagged (kind : String) (hint : Bytes) : Bytes :=
    Bytes.ascii kind ++ Bytes.byte '#' :: Bytes.decimal id ++ Bytes.byte '(' :: hint ++ [Bytes.byte ')']
  match g.node? id with
  | none => Bytes.ascii "<bad-type#" ++ Bytes.decimal id ++ Bytes.ascii ">"
  | some (.primitive p) => p.name
  | some (.array items) => Bytes.ascii "array<" ++ inside items ++ Bytes.ascii ">"
  | some (.map values) => Bytes.ascii "map<" ++ inside values ++ Bytes.ascii ">"
  | some (.record hint _) => tagged "class" hint
  | some (.enum hint _) => tagged "enum" hint
  | some (.union hint _) => tagged "union" hint
termination_by id

/-! ## Growing a graph by known types -/

def push (g : Graph) (n : Node) : TypeId × Graph := (g.size, { g with nodes := g.nodes.push n })

/-- The number of a type, which is added unless it is there already. -/
def intern (g : Graph) (n : Node) : TypeId × Graph :=
  match g.nodes.findIdx? (· == n) with
  | some id => (id, g)
  | none => g.push n

/-- The type that allows `null` besides the values of another; a type that does already is kept. -/
def internNullable (g : Graph) (inner : TypeId) : TypeId × Graph :=
  if g.isPrimitive .null inner || (g.nullableInner? inner).isSome then (inner, g)
  else g.push (.union [] [inner, Primitive.null.id])

def putProperties (g : Graph) (id : TypeId) (properties : List Property) : Graph :=
  match g.node? id with
  | some (.record hint _) => { g with nodes := g.nodes.setIfInBounds id (.record hint properties) }
  | _ => g

/-- A further entry point. -/
def putTop (g : Graph) (name : Bytes) (type : TypeId) : Graph := { g with tops := g.tops ++ [⟨name, type⟩] }

/-! ## Growing a graph -/

/-- Fails at the first number that is outside the graph. -/
def check (g : Graph) : List TypeId → Except GraphError Unit
  | [] => .ok ()
  | id :: ids => if id < g.size then g.check ids else .error (.unknownType id)

def array (g : Graph) (items : TypeId) : Except GraphError (TypeId × Graph) := do
  g.check [items]
  return g.intern (.array items)

def map (g : Graph) (values : TypeId) : Except GraphError (TypeId × Graph) := do
  g.check [values]
  return g.intern (.map values)

def record (g : Graph) (hint : Bytes) (properties : List Property) : Except GraphError (TypeId × Graph) := do
  g.check (properties.map Property.type)
  return g.push (.record hint properties)

/-- Gives a class other properties. -/
def setProperties (g : Graph) (id : TypeId) (properties : List Property) : Except GraphError Graph := do
  g.check [id]
  if ((g.node? id).map Node.isRecord).getD false then
    g.check (properties.map Property.type)
    return g.putProperties id properties
  else .error (.notAClass (g.describe id))

def enum (g : Graph) (hint : Bytes) (cases : List Bytes) : TypeId × Graph := g.push (.enum hint cases)

/-- A new union; a member that is given twice counts once, and two members are needed. -/
def union (g : Graph) (hint : Bytes) (members : List TypeId) : Except GraphError (TypeId × Graph) := do
  g.check members
  if (distinct members).length < 2 then .error (.tooFewMembers hint)
  else return g.push (.union hint (distinct members))

def nullable (g : Graph) (inner : TypeId) : Except GraphError (TypeId × Graph) := do
  g.check [inner]
  return g.internNullable inner

def topLevel (g : Graph) (name : Bytes) (type : TypeId) : Except GraphError Graph := do
  g.check [type]
  return g.putTop name type

end Graph

end Typewright
