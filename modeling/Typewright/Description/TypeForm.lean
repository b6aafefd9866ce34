import Typewright.Description.Diagnostic
import Typewright.Edn.Form

/-!
# Written types

A type in a description is a name, or a list that applies `array`, `map`, `nullable` or `union`. `TypeForm` is
such a type before its names are looked up. What is no type stays in place as the problem that it is, so that
problems are reported in the order in which they stand.
-/

namespace Typewright

/-- A type as it is written. -/
inductive TypeForm where
  /-- A place that was left empty. -/
  | absent
  | named (pos : Position) (name : Bytes)
  | array (items : TypeForm)
  | map (values : TypeForm)
  | nullable (inner : TypeForm)
  | union (pos : Position) (members : List TypeForm)
  /-- Something that is no type. -/
  | invalid (problem : Problem)

namespace TypeForm

def unary? (head : Bytes) : Option (TypeForm → TypeForm) :=
  if head = Bytes.ascii "array" then some .array
  else if head = Bytes.ascii "map" then some .map
  else if head = Bytes.ascii "nullable" then some .nullable
  else none

/-- The type that applies `head` to some types. -/
def apply (pos : Position) (head : Bytes) (args : List TypeForm) : TypeForm :=
  match unary? head with
  | some f =>
    match args with
    | [t] => f t
    | _ => .invalid ⟨.notOneArgument head, pos⟩
  | none =>
    if head = Bytes.ascii "union" then .union pos args
    else .invalid ⟨.unknownConstructor head, pos⟩

mutual

def ofForm : Edn.Form → TypeForm
  | .absent => .absent
  | .atom pos (.symbol name) => .named pos name
  | .atom pos (.string name) => .named pos name
  | .seq pos .round (.atom _ (.symbol head) :: args) => apply pos head (ofForms args)
  | f => .invalid ⟨.malformedType f.text, f.pos⟩

def ofForms : List Edn.Form → List TypeForm
  | [] => []
  | f :: fs => ofForm f :: ofForms fs

end

end TypeForm

end Typewright
