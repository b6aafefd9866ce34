import Typewright.Module.Basic
import Typewright.Module.Naming
import Typewright.Trace

/-!
# Rendering

A rendering names the declared types of a graph, puts what a declaration depends on before it where it can, and
writes the module.

* `Stopped`: a rendering that failed, and the context in which it did.
* `Graph.module`: the module of a graph.
* `Renderer`: options together with what the last rendering left behind; `Renderer.render`, `Renderer.source`.
-/

namespace Typewright

/-- Why a rendering stopped, and in which context. -/
structure Stopped where
  error : RenderError
  context : ExprContext
  deriving DecidableEq, Repr

namespace ExprContext

/-- Goes on, or stops in this context. -/
def tryIn (c : ExprContext) (x : Except RenderError α) : Except Stopped α := x.mapError (⟨·, c⟩)

end ExprContext

/-! ## Declarations -/

def recordBlock (c : ExprContext) (g : Graph) (id : TypeId) (properties : List Property) :
    Except Stopped Block := do
  let name ← c.tryIn (c.typeName id)
  let names ← c.tryIn ((c.names.propertiesOf id).mapError .unnamed)
  let types ← properties.mapM fun p =>
    let c := c.atPlace (.property p.name name)
    c.tryIn (propertyExpr c g p)
  return .record name (List.zipWith Field.mk names types)

def enumBlock (c : ExprContext) (id : TypeId) : Except Stopped Block := do
  let name ← c.tryIn (c.typeName id)
  let cases ← c.tryIn ((c.names.casesOf id).mapError .unnamed)
  return .enum name cases

/-- The declaration of a class or enum; other types have none of this kind. -/
def block? (c : ExprContext) (g : Graph) (id : TypeId) : Except Stopped (Option Block) :=
  match g.node? id with
  | some (.record _ properties) => (recordBlock c g id properties).map some
  | some (.enum _ _) => (enumBlock c id).map some
  | _ => .ok none

def unionBlock (c : ExprContext) (g : Graph) (id : TypeId) : Except Stopped UnionBlock := do
  let name ← c.tryIn (c.typeName id)
  let c := c.atPlace (.union name)
  let members ← (g.children id).mapM fun m => c.tryIn (typeExpr c g m)
  return ⟨name, members⟩

/-- The declarations of unions in order; each is bound for the ones after it. -/
def unionBlocks (g : Graph) (c : ExprContext) : List TypeId → Except Stopped (List UnionBlock × ExprContext)
  | [] => .ok ([], c)
  | id :: ids => do
    let u ← unionBlock c g id
    let (us, c) ← unionBlocks g { c with bound := id :: c.bound } ids
    return (u :: us, c)

def aliasFor (c : ExprContext) (g : Graph) (t : TopLevel) (index : Nat) : Except Stopped Alias := do
  let c := c.atPlace (.topLevel t.name)
  let name ← c.tryIn ((c.names.topLevel index).mapError .unnamed)
  let type ← c.tryIn (typeExpr c g t.type)
  return ⟨name, type⟩

/-- The top-levels that become aliases, with their numbers. -/
def Graph.aliasTops (g : Graph) (declareUnions : Bool) : List (TopLevel × Nat) :=
  ((g.tops.zipIdx.zip (g.claims declareUnions)).filter fun (_, claim) => claim.isNone).map Prod.fst

/-! ## The module -/

/-- Whether annotations have to be left unevaluated: declarations depend on each other, or a class refers to a
union that is declared after it. -/
def needsPostponed (g : Graph) (o : OrderedTypes) (declareUnions : Bool) : Bool :=
  let isKind (p : Node → Bool) (id : TypeId) : Bool := ((g.node? id).map p).getD false
  o.hasCycles || (declareUnions && o.order.any fun id =>
    isKind Node.isRecord id && (o.dependencies.getD id []).any (isKind Node.isUnion))

def Graph.orderedFor (g : Graph) (o : Options) : OrderedTypes :=
  g.order o.declareUnions .dependenciesFirst (g.declared o.declareUnions)

/-- The module of a graph, and the context that writing it leaves. -/
def Graph.module (u : CharacterData) (g : Graph) (o : Options) : Except Stopped (Module × ExprContext) := do
  let ordered := g.orderedFor o
  let c : ExprContext := { ExprContext.initial o.declareUnions with names := .ofGraph u o g }
  let blocks ← ordered.order.mapM (block? c g)
  let unions := ordered.order.filter fun id => ((g.node? id).map Node.isUnion).getD false
  let (unions, c) ← unionBlocks g { c with eager := true } unions
  let aliases ← (g.aliasTops o.declareUnions).mapM fun (t, index) => aliasFor c g t index
  return (⟨o.comments, needsPostponed g ordered o.declareUnions, blocks.filterMap id, unions, aliases⟩,
    { c with eager := false })

/-- The steps of ordering a graph for a rendering. -/
def Graph.orderTrace (g : Graph) (o : Options) : List TraceEvent :=
  let ordered := g.orderedFor o
  ordered.trace g ++ [.render (g.declared o.declareUnions).length g.tops.length ordered.hasCycles]

def Module.trace (m : Module) : TraceEvent := .moduleText m.headerLines.length m.unions.length

/-! ## Renderers -/

/-- Options, and the context that the last rendering left. -/
structure Renderer where
  options : Options
  context : ExprContext
  deriving DecidableEq, Repr

/-- The outcome of a rendering and its steps. -/
structure Rendering where
  result : Except RenderError (List Bytes)
  trace : List TraceEvent

namespace Renderer

/-- A renderer that has rendered nothing. -/
def new (o : Options) : Renderer := ⟨o, .initial o.declareUnions⟩

def render (u : CharacterData) (r : Renderer) (g : Graph) : Rendering × Renderer :=
  let steps := g.orderTrace r.options
  match g.module u r.options with
  | .ok (m, context) => (⟨.ok m.lines, steps ++ [m.trace]⟩, { r with context })
  | .error stopped => (⟨.error stopped.error, steps⟩, { r with context := stopped.context })

/-- The expression for a type, with the names that the last rendering gave. -/
def source (r : Renderer) (g : Graph) (id : TypeId) : Except RenderError Bytes :=
  (typeExpr r.context g id).map TypeExpr.text

end Renderer

def Graph.render (u : CharacterData) (g : Graph) (o : Options) : Rendering := ((Renderer.new o).render u g).1

end Typewright
