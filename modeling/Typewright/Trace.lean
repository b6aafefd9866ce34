import Typewright.Description.Reader
import Typewright.Options

/-!
# Traces

With tracing on, the steps of a run are told on the error stream, one tagged line each.
-/

namespace Typewright

/-- A step that can be traced. -/
inductive TraceEvent where
  | options (o : Options)
  | read (declarations topLevels errors warnings : Nat)
  | backEdge (source target : Bytes)
  | render (declarations topLevels : Nat) (cycles : Bool)
  | moduleText (headerLines unions : Nat)
  deriving DecidableEq, Repr

namespace TraceEvent

def word (b : Bool) : Bytes := Bytes.ascii (if b then "true" else "false")

def content : TraceEvent → String × Bytes
  | .options o =>
    ("options", Bytes.ascii "declare-unions=" ++ word o.declareUnions ++ Bytes.ascii " ascii-identifiers="
      ++ word o.asciiIdentifiers)
  | .read declarations topLevels errors warnings =>
    ("reader", Bytes.decimal declarations ++ Bytes.ascii " declarations, " ++ Bytes.decimal topLevels
      ++ Bytes.ascii " top-levels, " ++ Bytes.decimal errors ++ Bytes.ascii " errors, " ++ Bytes.decimal warnings
      ++ Bytes.ascii " warnings")
  | .backEdge source target => ("order", Bytes.ascii "back-edge " ++ source ++ Bytes.ascii " -> " ++ target)
  | .render declarations topLevels cycles =>
    ("render", Bytes.decimal declarations ++ Bytes.ascii " declarations, " ++ Bytes.decimal topLevels
      ++ Bytes.ascii " top-levels, cycles=" ++ Bytes.ascii (if cycles then "yes" else "no"))
  | .moduleText headerLines unions =>
    ("python", Bytes.decimal headerLines ++ Bytes.ascii " header lines, " ++ Bytes.decimal unions
      ++ Bytes.ascii " declared unions")

def line (e : TraceEvent) : Bytes :=
  Bytes.ascii "[pyemit][" ++ Bytes.ascii e.content.1 ++ Bytes.ascii "] " ++ e.content.2 ++ [Bytes.lineFeed]

end TraceEvent

/-- What the error stream shows of some steps. -/
def Environment.traced (env : Environment) (events : List TraceEvent) : Bytes :=
  if env.debug then events.flatMap TraceEvent.line else []

/-- The step of reading a description, if reading came to its end. -/
def ReadResult.trace (r : ReadResult) : List TraceEvent :=
  match r.declarations with
  | none => []
  | some n => [.read n r.graph.tops.length r.problems.length r.warnings.length]

/-- The dependencies that close a cycle, as steps. -/
def OrderedTypes.trace (g : Graph) (o : OrderedTypes) : List TraceEvent :=
  o.backEdges.map fun (source, target) => .backEdge (g.describe source) (g.describe target)

end Typewright
