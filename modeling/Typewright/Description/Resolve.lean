import Typewright.Description.Similar
import Typewright.Description.TypeForm

/-!
# Resolving written types

A written type becomes a type of the graph. Names stand for primitive types or for declarations. Unions are
built when they are first needed, so that they may be declared in any order; one that needs itself is an error.

* `Reading`: the graph so far, the declarations built so far, the problems met, and whether all went well.
* `UnionScope`: the unions that are declared.
* `resolve`: the type that a written type denotes.
-/

namespace Typewright

/-- The state of reading a description. -/
structure Reading where
  graph : Graph
  /-- The declarations that were built; one that could not be has no type. -/
  built : List (Bytes × Option TypeId)
  problems : List Problem
  /-- Set at first, and cleared with each problem. -/
  success : Bool

namespace Reading

def report (r : Reading) (p : Problem) : Reading := { r with problems := r.problems ++ [p], success := false }

def reportAll (r : Reading) (ps : List Problem) : Reading := ps.foldl report r

def push (r : Reading) (n : Node) : TypeId × Reading :=
  let (id, graph) := r.graph.push n
  (id, { r with graph })

def define (r : Reading) (name : Bytes) (id : Option TypeId) : Reading :=
  { r with built := (name, id) :: r.built }

end Reading

/-- What a member adds to the hint of a union without a name. -/
def Graph.memberHint (g : Graph) (id : TypeId) : Bytes :=
  let inside (t : TypeId) : Bytes := if t < id then memberHint g t else []
  match g.node? id with
  | none => []
  | some (.primitive .dateTime) => Bytes.ascii "date_time"
  | some (.primitive p) => p.name
  | some (.array items) => inside items ++ Bytes.ascii "_array"
  | some (.map values) => inside values ++ Bytes.ascii "_map"
  | some n => n.hint
termination_by id

/-- The union of resolved members. Nothing is built if a member is missing; a member that is there twice counts
once, and two are needed. Without a hint the members give one. -/
def Reading.makeUnion (r : Reading) (pos : Position) (hint : Bytes) (members : List (Option TypeId)) :
    Option TypeId × Reading :=
  if members.any Option.isNone then (none, r)
  else
    let ids := distinct (members.filterMap id)
    if ids.length < 2 then (none, r.report ⟨.tooFewMembers, pos⟩)
    else
      let hint :=
        if hint.isEmpty then Bytes.join (Bytes.ascii "_or_") (ids.map r.graph.memberHint) else hint
      let (id, r) := r.push (.union hint ids)
      (some id, r)

/-- A declared union: where it is declared, and its members if they are given. -/
structure UnionForm where
  pos : Position
  members : Option (List TypeForm)

/-- The declared unions, the names of all declarations, and whether unknown names are answered with similar
ones. -/
structure UnionScope where
  unions : List (Bytes × UnionForm)
  names : List Bytes
  suggests : Bool

namespace UnionScope

def unknownType (s : UnionScope) (pos : Position) (name : Bytes) : Problem :=
  ⟨.unknownType name (if s.suggests then similarNames s.names name else []), pos⟩

/-- How many of the declared unions are not being built. -/
def unopened (s : UnionScope) (opened : List Bytes) : Nat :=
  ((s.unions.map Prod.fst).filter (· ∉ opened)).length

end UnionScope

theorem mem_fst_of_lookup {α : Type} {l : List (Bytes × α)} {k : Bytes} {v : α} (h : l.lookup k = some v) :
    k ∈ l.map Prod.fst := by
  induction l with
  | nil => simp at h
  | cons p l ih =>
    rw [List.lookup_cons] at h
    split at h
    · simp_all
    · exact List.mem_cons_of_mem _ (ih h)

theorem UnionScope.unopened_cons_lt {s : UnionScope} {opened : List Bytes} {name : Bytes}
    (h : name ∈ s.unions.map Prod.fst) (h' : name ∉ opened) :
    s.unopened (name :: opened) < s.unopened opened := by
  have hsub : (s.unions.map Prod.fst).filter (· ∉ name :: opened) =
      ((s.unions.map Prod.fst).filter (· ∉ opened)).filter (· ≠ name) := by
    rw [List.filter_filter]
    exact List.filter_congr fun x _ => by simp
  unfold UnionScope.unopened
  rw [hsub]
  refine List.length_filter_lt_length_iff_exists.mpr ⟨name, ?_, by simp⟩
  simpa using ⟨by simpa using h, h'⟩

mutual

/-- The type that a written type denotes, if it is valid. `opened` are the unions that are being built. -/
def resolve (s : UnionScope) (opened : List Bytes) (r : Reading) (t : TypeForm) : Option TypeId × Reading :=
  match t with
  | .absent => (none, r)
  | .invalid p => (none, r.report p)
  | .named pos name =>
    match Primitive.ofName? name with
    | some p => (some p.id, r)
    | none =>
      match r.built.lookup name with
      -- What could not be built is not tried again, so that its problems are told once.
      | some id => (id, r)
      | none =>
        match h : s.unions.lookup name with
        | none => (none, r.report (s.unknownType pos name))
        | some u =>
          if h' : name ∈ opened then (none, r.report ⟨.recursiveUnion name, pos⟩)
          else
            match u.members with
            | none => (none, (r.report ⟨.membersMissing name, u.pos⟩).define name none)
            | some ts =>
              have := UnionScope.unopened_cons_lt (mem_fst_of_lookup h) h'
              let (ids, r) := resolveAll s (name :: opened) r ts
              let (id, r) := r.makeUnion u.pos name ids
              (id, r.define name id)
  | .array t =>
    match resolve s opened r t with
    | (none, r) => (none, r)
    | (some id, r) =>
      let (id, graph) := r.graph.intern (.array id)
      (some id, { r with graph })
  | .map t =>
    match resolve s opened r t with
    | (none, r) => (none, r)
    | (some id, r) =>
      let (id, graph) := r.graph.intern (.map id)
      (some id, { r with graph })
  | .nullable t =>
    match resolve s opened r t with
    | (none, r) => (none, r)
    | (some id, r) =>
      let (id, graph) := r.graph.internNullable id
      (some id, { r with graph })
  | .union pos ts =>
    let (ids, r) := resolveAll s opened r ts
    r.makeUnion pos [] ids
termination_by (s.unopened opened, sizeOf t)

def resolveAll (s : UnionScope) (opened : List Bytes) (r : Reading) (ts : List TypeForm) :
    List (Option TypeId) × Reading :=
  match ts with
  | [] => ([], r)
  | t :: ts =>
    let (id, r) := resolve s opened r t
    let (ids, r) := resolveAll s opened r ts
    (id :: ids, r)
termination_by (s.unopened opened, sizeOf ts)

end

end Typewright
