import Typewright.Graph.Basic

/-!
# Assigned names

`NameTable` holds the names that a rendering has given to types, top-levels, properties and enum cases.
A look-up that finds nothing fails with a `NameError`.
-/

namespace Typewright

/-- A name that was never assigned. -/
inductive NameError where
  | noTypeName (id : TypeId)
  | noPropertyNames (id : TypeId)
  | noCaseNames (id : TypeId)
  | noTopLevel (index : Nat)
  deriving DecidableEq, Repr

/-- The wording of a name error; an index outside the top-levels has none. -/
def NameError.message? : NameError → Option Bytes
  | .noTypeName id => some (Bytes.ascii "no name assigned to type #" ++ Bytes.decimal id)
  | .noPropertyNames id => some (Bytes.ascii "no property names assigned to class #" ++ Bytes.decimal id)
  | .noCaseNames id => some (Bytes.ascii "no case names assigned to enum #" ++ Bytes.decimal id)
  | .noTopLevel _ => none

/-- The names given so far. For each key the first entry counts. -/
structure NameTable where
  types : List (TypeId × Bytes)
  topLevels : List Bytes
  properties : List (TypeId × List Bytes)
  cases : List (TypeId × List Bytes)
  deriving DecidableEq, Repr

namespace NameTable

def empty : NameTable := ⟨[], [], [], []⟩

def setType (t : NameTable) (id : TypeId) (name : Bytes) : NameTable :=
  { t with types := (id, name) :: t.types }

def setProperties (t : NameTable) (id : TypeId) (names : List Bytes) : NameTable :=
  { t with properties := (id, names) :: t.properties }

def setCases (t : NameTable) (id : TypeId) (names : List Bytes) : NameTable :=
  { t with cases := (id, names) :: t.cases }

/-- Names a top-level; top-levels before it that have no name yet get the empty one. -/
def setTopLevel (t : NameTable) (index : Nat) (name : Bytes) : NameTable :=
  { t with topLevels := (t.topLevels ++ List.replicate (index + 1 - t.topLevels.length) []).set index name }

def hasType (t : NameTable) (id : TypeId) : Bool := (t.types.lookup id).isSome

def type (t : NameTable) (id : TypeId) : Except NameError Bytes :=
  (t.types.lookup id).elim (.error (.noTypeName id)) .ok

def propertiesOf (t : NameTable) (id : TypeId) : Except NameError (List Bytes) :=
  (t.properties.lookup id).elim (.error (.noPropertyNames id)) .ok

def casesOf (t : NameTable) (id : TypeId) : Except NameError (List Bytes) :=
  (t.cases.lookup id).elim (.error (.noCaseNames id)) .ok

def topLevel (t : NameTable) (index : Nat) : Except NameError Bytes :=
  t.topLevels[index]?.elim (.error (.noTopLevel index)) .ok

end NameTable

end Typewright
