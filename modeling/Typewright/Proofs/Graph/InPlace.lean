import Typewright.Proofs.Graph.Extension

/-!
# Calls that change a graph in place

A graph can be kept in one place and be changed there, with an index of the types that exist once, so that they are
not searched for. A call is then a sequence of checks and changes, and when a check fails the changes before it stay.

* `IndexedGraph`, `InPlace` : the graph with its index, and computations that change it;
* `InPlace.call` : the calls, check by check and change by change;
* `IndexedGraph.Linked` : the index lists the types that exist once, and so each of them is there once;
* `InPlace.call_matches` : in place, a call makes the graph that it makes otherwise, and if it fails it has changed
  nothing;
* `IndexedGraph.foldl_after` : so a run in place makes the graph that the same calls build.
-/

namespace Typewright

/-- Whether a type exists once in a graph: it is found again when it is asked for a second time. -/
def Node.isShared : Node → Bool
  | .primitive _ | .array _ | .map _ => true
  | _ => false

/-- A graph and the numbers of the types that exist once. -/
structure IndexedGraph where
  graph : Graph
  index : List (Node × TypeId)

/-- A computation that changes a graph in place. An error does not take back what was changed before it. -/
abbrev InPlace := ExceptT GraphError (StateM IndexedGraph)

namespace InPlace

variable {α β : Type}

/-- The answer of a computation, and the graph that it leaves. -/
def on (x : InPlace α) (s : IndexedGraph) : Except GraphError α × IndexedGraph := StateT.run (ExceptT.run x) s

/-! ## Checks and changes -/

def checkId (id : TypeId) : InPlace Unit := do
  if id < (← get).graph.size then return () else throw (.unknownType id)

def checkIds : List TypeId → InPlace Unit
  | [] => return ()
  | id :: ids => do
    checkId id
    checkIds ids

def addType (n : Node) : InPlace TypeId := do
  let s ← get
  set { s with graph := (s.graph.push n).2 }
  return s.graph.size

/-- The number of a type that exists once. It is added, and then entered into the index, unless it is there already. -/
def findType (n : Node) : InPlace TypeId := do
  match (← get).index.lookup n with
  | some id => return id
  | none =>
    let id ← addType n
    modify fun s => { s with index := (n, id) :: s.index }
    return id

/-- Checks the members of a union one by one, and keeps those that were not there before. -/
def keepDistinct (kept : List TypeId) : List TypeId → InPlace (List TypeId)
  | [] => return kept
  | m :: ms => do
    checkId m
    keepDistinct (if m ∈ kept then kept else kept ++ [m]) ms

def addUnion (hint : Bytes) (members : List TypeId) : InPlace TypeId := do
  let kept ← keepDistinct [] members
  if kept.length < 2 then throw (.tooFewMembers hint) else addType (.union hint kept)

/-- A call. The answer is the number of a type, if the call asks for one. -/
def call : Call → InPlace (Option TypeId)
  | .primitive p => return some (← findType (.primitive p))
  | .array items => do
    checkIds [items]
    return some (← findType (.array items))
  | .map values => do
    checkIds [values]
    return some (← findType (.map values))
  | .record hint properties => do
    checkIds (properties.map Property.type)
    return some (← addType (.record hint properties))
  | .setProperties id properties => do
    checkIds [id]
    let s ← get
    if ((s.graph.node? id).map Node.isRecord).getD false then
      checkIds (properties.map Property.type)
      modify fun s => { s with graph := s.graph.putProperties id properties }
      return none
    else throw (.notAClass (s.graph.describe id))
  | .enum hint cases => return some (← addType (.enum hint cases))
  | .union hint members => return some (← addUnion hint members)
  | .nullable inner => do
    checkIds [inner]
    let g := (← get).graph
    if g.isPrimitive .null inner || (g.nullableInner? inner).isSome then return some inner
    else
      let null ← findType (.primitive .null)
      return some (← addUnion [] [inner, null])
  | .topLevel name type => do
    checkIds [type]
    modify fun s => { s with graph := s.graph.putTop name type }
    return none

end InPlace

namespace IndexedGraph

open InPlace

def blank : IndexedGraph := ⟨⟨#[], []⟩, []⟩

/-- The graph of the primitive types, which are asked for one after the other. -/
def start : IndexedGraph := Primitive.all.foldl (fun s p => ((findType (.primitive p)).on s).2) blank

/-- The graph that a call leaves, whether it fails or not. -/
def after (s : IndexedGraph) (c : Call) : IndexedGraph := ((call c).on s).2

/-- The index lists the types that exist once. -/
def Linked (s : IndexedGraph) : Prop :=
  ∀ n id, s.index.lookup n = some id ↔ n.isShared = true ∧ s.graph.node? id = some n

end IndexedGraph

/-! ## Running -/

namespace InPlace

variable {α β : Type} {s : IndexedGraph} {e : GraphError}

theorem on_pure (a : α) : (pure a : InPlace α).on s = (.ok a, s) := rfl

theorem on_throw : (throw e : InPlace α).on s = (.error e, s) := rfl

theorem on_get : (get : InPlace IndexedGraph).on s = (.ok s, s) := rfl

theorem on_bind (x : InPlace α) (k : α → InPlace β) :
    (x >>= k).on s =
      match x.on s with
      | (.ok a, s') => (k a).on s'
      | (.error e, s') => (.error e, s') := by
  show StateT.run (ExceptT.run (x >>= k)) s = _
  rw [ExceptT.run_bind, StateT.run_bind]
  unfold on
  rcases StateT.run (ExceptT.run x) s with ⟨_ | a, s'⟩
  · rfl
  · rfl

theorem on_bind_of_ok {x : InPlace α} {a : α} {s' : IndexedGraph} (h : x.on s = (.ok a, s')) (k : α → InPlace β) :
    (x >>= k).on s = (k a).on s' := by
  rw [on_bind, h]

theorem on_bind_of_error {x : InPlace α} {s' : IndexedGraph} (h : x.on s = (.error e, s')) (k : α → InPlace β) :
    (x >>= k).on s = (.error e, s') := by
  rw [on_bind, h]

theorem on_checkId (id : TypeId) :
    (checkId id).on s = if id < s.graph.size then (.ok (), s) else (.error (.unknownType id), s) := by
  unfold checkId
  rw [on_bind_of_ok on_get]
  split
  · rw [on_pure]
  · rw [on_throw]

theorem on_checkIds (ids : List TypeId) : (checkIds ids).on s = (s.graph.check ids, s) := by
  induction ids with
  | nil => rfl
  | cons id ids ih =>
    rw [checkIds, Graph.check, on_bind, on_checkId]
    by_cases h : id < s.graph.size
    · rw [if_pos h, if_pos h]
      exact ih
    · rw [if_neg h, if_neg h]

theorem on_addType (n : Node) : (addType n).on s = (.ok s.graph.size, { s with graph := (s.graph.push n).2 }) := rfl

/-- What has been kept stays in front; of the rest only what is new comes behind it. -/
theorem on_keepDistinct (kept ms : List TypeId) :
    (keepDistinct kept ms).on s =
      ((s.graph.check ms).map fun _ => kept ++ (distinct ms).filter (· ∉ kept), s) := by
  induction ms generalizing kept with
  | nil => simp [keepDistinct, on_pure, Graph.check, distinct, Except.map]
  | cons m ms ih =>
    rw [keepDistinct, Graph.check, on_bind, on_checkId]
    by_cases h : m < s.graph.size
    · rw [if_pos h, if_pos h]
      show (keepDistinct _ ms).on s = _
      rw [ih]
      have hkept : (if m ∈ kept then kept else kept ++ [m]) ++
          (distinct ms).filter (· ∉ if m ∈ kept then kept else kept ++ [m]) =
            kept ++ (distinct (m :: ms)).filter (· ∉ kept) := by
        rw [distinct, List.filter_cons, List.filter_filter]
        by_cases hm : m ∈ kept
        · simp only [hm, if_true, not_true_eq_false, decide_false, Bool.false_eq_true, if_false]
          congr 1
          apply List.filter_congr
          intro x _
          by_cases hx : x = m
          · simp [hx, hm]
          · simp [hx]
        · simp [hm, Bool.and_comm]
      rw [hkept]
    · rw [if_neg h, if_neg h]
      rfl

theorem on_addUnion (hint : Bytes) (ms : List TypeId) :
    (addUnion hint ms).on s =
      match s.graph.union hint ms with
      | .ok (id, g) => (.ok id, { s with graph := g })
      | .error e => (.error e, s) := by
  have hkept := on_keepDistinct (s := s) [] ms
  unfold addUnion Graph.union
  cases hcheck : s.graph.check ms with
  | error e =>
    rw [hcheck] at hkept
    exact on_bind_of_error hkept _
  | ok u =>
    rw [hcheck] at hkept
    rw [on_bind_of_ok hkept]
    simp only [List.nil_append, List.not_mem_nil, not_false_eq_true, decide_true, List.filter_true]
    show _ = match (if (distinct ms).length < 2 then _ else _ : Except GraphError (TypeId × Graph)) with
      | .ok (id, g) => (Except.ok id, { s with graph := g })
      | .error e => (.error e, s)
    split
    · rw [on_throw]
    · rw [on_addType]
      rfl

end InPlace

/-! ## The index -/

namespace IndexedGraph

variable {s : IndexedGraph}

/-- A type that exists once has one number. -/
theorem Linked.eq_of_node? (h : s.Linked) {n : Node} (hn : n.isShared = true) {i j : TypeId}
    (hi : s.graph.node? i = some n) (hj : s.graph.node? j = some n) : i = j := by
  have hlookup := (h n i).mpr ⟨hn, hi⟩
  rw [(h n j).mpr ⟨hn, hj⟩] at hlookup
  exact (Option.some.inj hlookup).symm

theorem Linked.of_graph (h : s.Linked) {g : Graph}
    (hg : ∀ n id, n.isShared = true → (g.node? id = some n ↔ s.graph.node? id = some n)) :
    Linked { s with graph := g } := by
  intro n id
  rw [show ({ s with graph := g } : IndexedGraph).index.lookup n = s.index.lookup n from rfl, h n id]
  constructor
  · intro ⟨hn, hid⟩
    exact ⟨hn, (hg n id hn).mpr hid⟩
  · intro ⟨hn, hid⟩
    exact ⟨hn, (hg n id hn).mp hid⟩

theorem Linked.push (h : s.Linked) {n : Node} (hn : n.isShared = false) :
    Linked { s with graph := (s.graph.push n).2 } := by
  apply h.of_graph
  intro m id hm
  rw [Graph.node?_push]
  split
  · rename_i hid
    have hnone : s.graph.node? id = none := by
      rw [hid]
      exact Array.getElem?_size
    rw [hnone]
    constructor
    · intro hnm
      rw [Option.some.inj hnm, hm] at hn
      exact absurd hn (by decide)
    · intro hno
      exact absurd hno (by simp)
  · exact Iff.rfl

theorem Linked.putProperties (h : s.Linked) (id : TypeId) (ps : List Property) :
    Linked { s with graph := s.graph.putProperties id ps } := by
  apply h.of_graph
  intro m i hm
  by_cases hid : ∃ hint old, s.graph.node? id = some (.record hint old)
  · obtain ⟨hint, old, hid⟩ := hid
    rw [Graph.node?_putProperties hid]
    split
    · rename_i hi
      rw [hi, hid]
      constructor
      · intro hrec
        rw [← Option.some.inj hrec] at hm
        exact absurd hm Bool.false_ne_true
      · intro hrec
        rw [← Option.some.inj hrec] at hm
        exact absurd hm Bool.false_ne_true
    · exact Iff.rfl
  · have hsame : s.graph.putProperties id ps = s.graph := by
      unfold Graph.putProperties
      split
      · rename_i hint old hn
        exact absurd ⟨hint, old, hn⟩ hid
      · rfl
    rw [hsame]

theorem Linked.putTop (h : s.Linked) (name : Bytes) (type : TypeId) :
    Linked { s with graph := s.graph.putTop name type } :=
  h.of_graph fun _ _ _ => Iff.rfl

/-- A type that is new in the graph is entered into the index. -/
theorem Linked.enter (h : s.Linked) {n : Node} (hn : n.isShared = true) (hnew : ∀ id, s.graph.node? id ≠ some n) :
    Linked ⟨(s.graph.push n).2, (n, s.graph.size) :: s.index⟩ := by
  intro m id
  show List.lookup m ((n, s.graph.size) :: s.index) = some id ↔ _ ∧ (s.graph.push n).2.node? id = some m
  rw [Graph.node?_push, List.lookup_cons]
  by_cases hmn : m = n
  · subst hmn
    rw [beq_self_eq_true]
    constructor
    · intro hid
      rw [if_pos (Option.some.inj hid).symm]
      exact ⟨hn, rfl⟩
    · intro ⟨_, hid⟩
      split at hid
      · rename_i hsize
        rw [hsize]
      · exact absurd hid (hnew id)
  · rw [beq_false_of_ne hmn]
    show s.index.lookup m = some id ↔ _
    rw [h m id]
    have hbound : s.graph.node? s.graph.size = none := Array.getElem?_size
    split
    · rename_i hsize
      rw [hsize, hbound]
      simp [Ne.symm hmn]
    · exact Iff.rfl

end IndexedGraph

namespace InPlace

open IndexedGraph (Linked)

variable {s : IndexedGraph}

theorem on_findType (h : s.Linked) {n : Node} (hn : n.isShared = true) :
    ∃ s', (findType n).on s = (.ok (s.graph.intern n).1, s') ∧ s'.graph = (s.graph.intern n).2 ∧ s'.Linked := by
  unfold findType
  rw [on_bind_of_ok on_get]
  rcases s.graph.intern_cases n with ⟨id, hid, hintern⟩ | ⟨hnew, hintern⟩
  · rw [(h n id).mpr ⟨hn, hid⟩, hintern]
    exact ⟨s, rfl, rfl, h⟩
  · have hnone : s.index.lookup n = none := by
      rw [Option.eq_none_iff_forall_ne_some]
      intro id hid
      exact hnew id ((h n id).mp hid).2
    rw [hnone, hintern]
    exact ⟨_, rfl, rfl, h.enter hn hnew⟩

/-- The graph that a call makes, with an index that fits it; a call that fails has changed nothing. -/
def Matches (s : IndexedGraph) (expected : Except GraphError Graph)
    (r : Except GraphError (Option TypeId) × IndexedGraph) : Prop :=
  match expected with
  | .ok g => (∃ id, r.1 = .ok id) ∧ r.2.graph = g ∧ r.2.Linked
  | .error e => r = (.error e, s)

/-- The checks come first on both sides. -/
theorem matches_checkIds {ids : List TypeId} {k : Unit → InPlace (Option TypeId)} {k' : Unit → Except GraphError Graph}
    (hk : (∀ id ∈ ids, id < s.graph.size) → Matches s (k' ()) ((k ()).on s)) :
    Matches s (s.graph.check ids >>= k') ((checkIds ids >>= k).on s) := by
  have hrun := on_checkIds (s := s) ids
  have hcheck := Graph.check_ends s.graph ids
  cases h : s.graph.check ids with
  | error e =>
    rw [h] at hrun
    rw [on_bind_of_error hrun]
    rfl
  | ok u =>
    rw [h] at hrun
    rw [on_bind_of_ok hrun]
    exact hk (hcheck.of_ok h)

theorem matches_findType (h : s.Linked) {n : Node} (hn : n.isShared = true) :
    Matches s (.ok (s.graph.intern n).2) ((do return some (← findType n) : InPlace (Option TypeId)).on s) := by
  obtain ⟨s', hrun, hgraph, hlinked⟩ := on_findType h hn
  rw [on_bind_of_ok hrun, on_pure]
  exact ⟨⟨_, rfl⟩, hgraph, hlinked⟩

theorem matches_addType (h : s.Linked) {n : Node} (hn : n.isShared = false) :
    Matches s (.ok (s.graph.push n).2) ((do return some (← addType n) : InPlace (Option TypeId)).on s) := by
  rw [on_bind_of_ok (on_addType n), on_pure]
  exact ⟨⟨_, rfl⟩, rfl, h.push hn⟩

theorem matches_addUnion (h : s.Linked) (hint : Bytes) (ms : List TypeId) :
    Matches s ((s.graph.union hint ms).map Prod.snd)
      ((do return some (← addUnion hint ms) : InPlace (Option TypeId)).on s) := by
  have hrun := on_addUnion (s := s) hint ms
  cases hunion : s.graph.union hint ms with
  | error e =>
    rw [hunion] at hrun
    rw [on_bind_of_error hrun]
    rfl
  | ok r =>
    rw [hunion] at hrun
    rw [on_bind_of_ok hrun, on_pure]
    obtain ⟨rfl, -⟩ := Graph.union_eq_ok hunion
    exact ⟨⟨_, rfl⟩, rfl, h.push rfl⟩

theorem intern_primitive {g : Graph} (hg : g.WellFormed) (p : Primitive) : g.intern (.primitive p) = (p.id, g) := by
  rcases g.intern_cases (.primitive p) with ⟨id, hid, hintern⟩ | ⟨hnew, -⟩
  · rw [hintern, (hg.fits id _ hid).primitive p rfl]
  · exact absurd (hg.primitives p) (hnew p.id)

/-- `null` is found in the index, and differs from the other member. -/
theorem matches_nullable (hg : s.graph.WellFormed) (h : s.Linked) {inner : TypeId} (hi : inner < s.graph.size)
    (hinner : s.graph.isPrimitive .null inner = false) :
    Matches s (.ok (s.graph.push (.union [] [inner, Primitive.null.id])).2)
      ((do
        let null ← findType (.primitive .null)
        return some (← addUnion [] [inner, null]) : InPlace (Option TypeId)).on s) := by
  obtain ⟨s', hrun, hgraph, hlinked⟩ := on_findType h (n := .primitive .null) rfl
  rw [intern_primitive hg] at hrun hgraph
  have hne : inner ≠ Primitive.null.id := by
    intro heq
    rw [heq, Graph.isPrimitive, hg.primitives] at hinner
    simp at hinner
  have hdistinct : distinct [inner, Primitive.null.id] = [inner, Primitive.null.id] := by
    simp [distinct, hne.symm]
  have hunion : s.graph.union [] [inner, Primitive.null.id] =
      .ok (s.graph.push (.union [] [inner, Primitive.null.id])) := by
    have hnull : Primitive.null.id < s.graph.size := Graph.lt_size_of_node? (hg.primitives .null)
    have hcheck : s.graph.check [inner, Primitive.null.id] = .ok () := by
      apply Graph.check_eq_ok
      simp [hi, hnull]
    rw [Graph.union, hcheck, hdistinct]
    rfl
  have hmatch := matches_addUnion hlinked [] [inner, Primitive.null.id]
  rw [hgraph, hunion] at hmatch
  rw [on_bind_of_ok hrun]
  exact hmatch

theorem map_bind_check {ids : List TypeId} {g : Graph} {k : Unit → Except GraphError (TypeId × Graph)} :
    (g.check ids >>= k).map Prod.snd = g.check ids >>= fun u => (k u).map Prod.snd := by
  cases g.check ids <;> rfl

/-- **In place a call does what it does otherwise**, and if it fails it has changed nothing. -/
theorem call_matches (hg : s.graph.WellFormed) (h : s.Linked) (c : Call) :
    Matches s (s.graph.perform c) ((call c).on s) := by
  cases c with
  | primitive p =>
    have hfind := matches_findType h (n := .primitive p) rfl
    rw [intern_primitive hg] at hfind
    exact hfind
  | array items =>
    rw [Graph.perform, Graph.array, map_bind_check]
    exact matches_checkIds fun _ => matches_findType h rfl
  | map values =>
    rw [Graph.perform, Graph.map, map_bind_check]
    exact matches_checkIds fun _ => matches_findType h rfl
  | record hint properties =>
    rw [Graph.perform, Graph.record, map_bind_check]
    exact matches_checkIds fun _ => matches_addType h rfl
  | setProperties id properties =>
    apply matches_checkIds
    intro _
    rw [on_bind_of_ok on_get]
    split
    · apply matches_checkIds
      intro _
      exact ⟨⟨none, rfl⟩, rfl, h.putProperties id properties⟩
    · rfl
  | enum hint cases => exact matches_addType h rfl
  | union hint members => exact matches_addUnion h hint members
  | nullable inner =>
    rw [Graph.perform, Graph.nullable, map_bind_check]
    apply matches_checkIds
    intro hids
    rw [on_bind_of_ok on_get]
    rcases s.graph.internNullable_cases inner with ⟨hnull, hintern⟩ | ⟨hnull, hintern⟩
    · rw [if_pos hnull, hintern]
      exact ⟨⟨_, rfl⟩, rfl, h⟩
    · rw [if_neg (by simp [hnull]), hintern]
      exact matches_nullable hg h (hids inner List.mem_cons_self) (Bool.or_eq_false_iff.mp hnull).1
  | topLevel name type =>
    apply matches_checkIds
    intro _
    exact ⟨⟨none, rfl⟩, rfl, h.putTop name type⟩

end InPlace

namespace IndexedGraph

open InPlace

/-! ## Runs -/

theorem linked_blank : blank.Linked := by
  intro n id
  simp [blank, Graph.node?]

theorem linked_foldl_findType {s : IndexedGraph} (h : s.Linked) (ps : List Primitive) :
    (ps.foldl (fun s p => ((findType (.primitive p)).on s).2) s).Linked := by
  induction ps generalizing s with
  | nil => exact h
  | cons p ps ih =>
    obtain ⟨s', hrun, -, hlinked⟩ := on_findType h (n := .primitive p) rfl
    rw [List.foldl_cons, hrun]
    exact ih hlinked

theorem graph_start : start.graph = Graph.empty := by
  rfl

theorem linked_start : start.Linked := linked_foldl_findType linked_blank Primitive.all

theorem after_spec {s : IndexedGraph} (hg : s.graph.WellFormed) (h : s.Linked) (c : Call) :
    (s.after c).graph = s.graph.after c ∧ (s.after c).Linked := by
  have hcall := call_matches hg h c
  unfold after Graph.after
  cases hperform : s.graph.perform c with
  | ok g =>
    rw [hperform] at hcall
    exact hcall.2
  | error e =>
    rw [hperform] at hcall
    rw [show (call c).on s = (.error e, s) from hcall]
    exact ⟨rfl, h⟩

/-- The same calls make the same graph, and the index fits it. -/
theorem foldl_after {s : IndexedGraph} (hg : s.graph.WellFormed) (h : s.Linked) (calls : List Call) :
    (calls.foldl after s).graph = calls.foldl Graph.after s.graph ∧ (calls.foldl after s).Linked := by
  induction calls generalizing s with
  | nil => exact ⟨rfl, h⟩
  | cons c calls ih =>
    obtain ⟨hgraph, hlinked⟩ := after_spec hg h c
    have hnext := ih (s := s.after c) (hgraph ▸ hg.after c) hlinked
    rw [hgraph] at hnext
    exact hnext

end IndexedGraph

end Typewright
