import Typewright.Graph.Order
import Typewright.Name.Assign
import Typewright.Name.Identifier
import Typewright.Name.Table

/-!
# Naming a graph

Top-levels are named first. The first top-level of a declared type gives that type its name; every other
top-level becomes an alias. The declared types that are left take names from their hints.
-/

namespace Typewright

/-- For each top-level the declared type that it names, if it is the first one to do so. The types in `claimed` have
been named before. -/
def claimsFrom (g : Graph) (declareUnions : Bool) (claimed : List TypeId) : List TopLevel → List (Option TypeId)
  | [] => []
  | t :: ts =>
    if g.isDeclared declareUnions t.type && t.type ∉ claimed then
      some t.type :: claimsFrom g declareUnions (t.type :: claimed) ts
    else none :: claimsFrom g declareUnions claimed ts

def Graph.claims (g : Graph) (declareUnions : Bool) : List (Option TypeId) :=
  claimsFrom g declareUnions [] g.tops

/-- The declared types that no top-level names. -/
def Graph.unclaimed (g : Graph) (declareUnions : Bool) : List TypeId :=
  (g.declared declareUnions).filter fun id => some id ∉ g.claims declareUnions

def Graph.hint (g : Graph) (id : TypeId) : Bytes := ((g.node? id).map Node.hint).getD []

section Names

variable (u : CharacterData) (o : Options)

def propertyNames (properties : List Property) : List Bytes :=
  assignNames (properties.map fun p => Identifier.propertyName u o p.name) (Identifier.reserved .properties)

def caseNames (cases : List Bytes) : List Bytes :=
  assignNames (cases.map (Identifier.caseName u o)) (Identifier.reserved .cases)

/-- The names for a rendering of a graph. -/
def NameTable.ofGraph (g : Graph) : NameTable :=
  let claims := g.claims o.declareUnions
  let unclaimed := g.unclaimed o.declareUnions
  let candidates := g.tops.map (fun t => Identifier.typeName u o t.name)
    ++ unclaimed.map fun id => Identifier.typeName u o (g.hint id)
  let global := assignNames candidates (Identifier.reserved .global)
  let topNames := global.take g.tops.length
  { types := ((claims.zip topNames).filterMap fun (claim, name) => claim.map (·, name))
      ++ unclaimed.zip (global.drop g.tops.length)
    topLevels := topNames
    properties := (g.declared o.declareUnions).filterMap fun id =>
      match g.node? id with
      | some (.record _ ps) => some (id, propertyNames u o ps)
      | _ => none
    cases := (g.declared o.declareUnions).filterMap fun id =>
      match g.node? id with
      | some (.enum _ cs) => some (id, caseNames u o cs)
      | _ => none }

end Names

end Typewright
