import Typewright.Graph.Walk

/-!
# Declarations and their order

Classes and enums are declared under a name, and unions too if that is asked for; nullable unions and all
other types are written in place. A declaration depends on the declared types that are met when the types
written in place are looked through.

* `Graph.isDeclared`, `Graph.declared`: what is declared, in the order in which it is reached.
* `Graph.marked`: what is reached, whether it is declared or not.
* `Graph.dependencies`, `Graph.dependencyLists`.
* `Graph.order`: the declarations in the order of a policy.
-/

namespace Typewright

/-- The order of declarations. -/
inductive OrderPolicy where
  /-- As given. -/
  | canonical
  /-- The other way round. -/
  | reverse
  /-- What a declaration depends on comes before it, as far as cycles allow. -/
  | dependenciesFirst
  deriving DecidableEq, Repr

/-- Declarations in order, what each depends on, and the dependencies that close a cycle. -/
structure OrderedTypes where
  order : List TypeId
  dependencies : Array (List TypeId)
  backEdges : List (TypeId × TypeId)
  deriving DecidableEq, Repr

def OrderedTypes.hasCycles (o : OrderedTypes) : Bool := !o.backEdges.isEmpty

namespace Graph

/-- Whether a type is declared under a name. -/
def isDeclared (g : Graph) (declareUnions : Bool) (id : TypeId) : Bool :=
  match g.node? id with
  | some (.record _ _) | some (.enum _ _) => true
  | some (.union _ _) => declareUnions && (g.nullableInner? id).isNone
  | _ => false

/-- The types that can be reached from the entry points, in the order in which they are. -/
def reachable (g : Graph) : List TypeId := preorder g.children g.size [] (g.tops.map TopLevel.type)

/-- The types that can be reached from the entry points, marked from the last entry point on. -/
def marked (g : Graph) : List TypeId := mark g.children g.size [] (g.tops.map TopLevel.type).reverse

/-- The types to declare, in the order in which they are reached. -/
def declared (g : Graph) (declareUnions : Bool) : List TypeId :=
  g.reachable.filter (g.isDeclared declareUnions)

/-- What to look at behind a type when dependencies are searched: nothing behind a declared type. -/
def lookThrough (g : Graph) (declareUnions : Bool) (id : TypeId) : List TypeId :=
  if g.isDeclared declareUnions id then [] else g.children id

/-- The declared types that a type depends on, in the order in which they are met. -/
def dependencies (g : Graph) (declareUnions : Bool) (id : TypeId) : List TypeId :=
  (preorder (g.lookThrough declareUnions) g.size [] (g.children id)).filter (g.isDeclared declareUnions)

/-- For each number of a type its dependencies if it is one of `ids`, and nothing otherwise. -/
def dependencyLists (g : Graph) (declareUnions : Bool) (ids : List TypeId) : Array (List TypeId) :=
  ids.foldl (fun lists id => lists.setIfInBounds id (g.dependencies declareUnions id))
    (Array.replicate g.size [])

/-- The declarations `ids` in the order of a policy. Dependencies that are not among `ids` are put in too
when they come first. -/
def order (g : Graph) (declareUnions : Bool) (policy : OrderPolicy) (ids : List TypeId) : OrderedTypes :=
  let lists := g.dependencyLists declareUnions ids
  match policy with
  | .canonical => ⟨ids, lists, []⟩
  | .reverse => ⟨ids.reverse, lists, []⟩
  | .dependenciesFirst =>
    let finished := postorder (fun id => lists.getD id []) g.size ids [] [] []
    ⟨finished.order, lists, finished.backEdges⟩

def contains (g : Graph) (ids : List TypeId) : Bool := ids.all (· < g.size)

end Graph

end Typewright
