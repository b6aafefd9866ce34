import Mathlib.Tactic.IntervalCases
import Typewright.Graph.Basic
import Typewright.Proofs.Outcome

/-!
# Graphs that grow call by call

* `Call`, `Graph.perform` : the ways to grow a graph as data, and what each does;
* `Graph.Built` : the graphs that some calls make out of the empty one, failed calls included;
* `Node.FitsAt`, `Graph.WellFormed` : what a type may refer to, and what holds of every graph that was built
  (`Graph.Built.wellFormed`): the primitive types have their numbers to themselves, no number leads out of the
  graph, and apart from classes a type is made of earlier ones.
-/

namespace Typewright

/-- A call that grows a graph. -/
inductive Call where
  | primitive (p : Primitive)
  | array (items : TypeId)
  | map (values : TypeId)
  | record (hint : Bytes) (properties : List Property)
  | setProperties (id : TypeId) (properties : List Property)
  | enum (hint : Bytes) (cases : List Bytes)
  | union (hint : Bytes) (members : List TypeId)
  | nullable (inner : TypeId)
  | topLevel (name : Bytes) (type : TypeId)
  deriving DecidableEq, Repr

namespace Graph

/-- The graph that a call makes. The primitive types are there from the start. -/
def perform (g : Graph) : Call → Except GraphError Graph
  | .primitive _ => .ok g
  | .array items => (g.array items).map Prod.snd
  | .map values => (g.map values).map Prod.snd
  | .record hint properties => (g.record hint properties).map Prod.snd
  | .setProperties id properties => g.setProperties id properties
  | .enum hint cases => .ok (g.enum hint cases).2
  | .union hint members => (g.union hint members).map Prod.snd
  | .nullable inner => (g.nullable inner).map Prod.snd
  | .topLevel name type => g.topLevel name type

/-- The graph after a call; a call that fails leaves it as it was. -/
def after (g : Graph) (c : Call) : Graph :=
  match g.perform c with
  | .ok g' => g'
  | .error _ => g

/-- The graphs that calls make out of the empty one. -/
def Built (g : Graph) : Prop := ∃ calls : List Call, calls.foldl after empty = g

/-- A class and two unions that depend on each other. -/
def knotCalls : List Call := [
  .record (Bytes.ascii "A") [],
  .union (Bytes.ascii "Y") [10, Primitive.integer.id],
  .union (Bytes.ascii "X") [11, Primitive.string.id],
  .setProperties 10 [⟨Bytes.ascii "x", 12, false⟩],
  .topLevel (Bytes.ascii "Y") 11]

def knot : Graph := knotCalls.foldl after empty

theorem built_knot : knot.Built := ⟨knotCalls, rfl⟩

end Graph

/-- What a type may refer to when it has the number `id` in a graph of `size` types. -/
structure Node.FitsAt (n : Node) (id size : Nat) : Prop where
  primitive : ∀ p, n = .primitive p → id = p.id
  known : ∀ c ∈ n.children, c < size
  earlier : n.isRecord = false → ∀ c ∈ n.children, c < id

/-- What holds of every graph that was built. -/
structure Graph.WellFormed (g : Graph) : Prop where
  primitives : ∀ p : Primitive, g.node? p.id = some (.primitive p)
  fits : ∀ id n, g.node? id = some n → n.FitsAt id g.size
  tops : ∀ t ∈ g.tops, t.type < g.size

theorem Node.FitsAt.mono {n : Node} {id size size' : Nat} (h : n.FitsAt id size) (hs : size ≤ size') :
    n.FitsAt id size' :=
  ⟨h.primitive, fun c hc => lt_of_lt_of_le (h.known c hc) hs, h.earlier⟩

namespace Graph

variable {g : Graph}

/-! ## Types by their numbers -/

theorem lt_size_of_node? {id : TypeId} {n : Node} (h : g.node? id = some n) : id < g.size :=
  (Array.getElem?_eq_some_iff.mp h).1

theorem exists_node? {id : TypeId} (h : id < g.size) : ∃ n, g.node? id = some n := by
  unfold size at h
  exact ⟨g.nodes[id], Array.getElem?_eq_getElem h⟩

theorem node?_push (n : Node) (id : TypeId) :
    (g.push n).2.node? id = if id = g.size then some n else g.node? id :=
  Array.getElem?_push

theorem size_push (n : Node) : (g.push n).2.size = g.size + 1 := Array.size_push n

theorem children_of_node? {id : TypeId} {n : Node} (h : g.node? id = some n) : g.children id = n.children := by
  rw [children, h]

theorem isPrimitive_iff {p : Primitive} {id : TypeId} :
    g.isPrimitive p id = true ↔ g.node? id = some (.primitive p) := by
  simp [isPrimitive]

/-! ## Growing keeps a graph well formed -/

theorem eq_primitive_of_node?_empty {id : TypeId} {n : Node} (h : empty.node? id = some n) :
    ∃ p : Primitive, n = .primitive p ∧ p.id = id := by
  have hid : id < 10 := lt_size_of_node? h
  interval_cases id <;> cases h <;> exact ⟨_, rfl, rfl⟩

theorem wellFormed_empty : empty.WellFormed where
  primitives p := by cases p <;> rfl
  fits id n h := by
    obtain ⟨p, rfl, rfl⟩ := eq_primitive_of_node?_empty h
    refine ⟨fun q hq => ?_, fun c hc => ?_, fun _ c hc => ?_⟩
    · cases hq
      rfl
    · cases hc
    · cases hc
  tops t ht := by cases ht

theorem WellFormed.push (h : g.WellFormed) {n : Node} (hp : ∀ p, n ≠ .primitive p)
    (hc : ∀ c ∈ n.children, c < g.size) : (g.push n).2.WellFormed where
  primitives p := by
    have hlt := lt_size_of_node? (h.primitives p)
    rw [node?_push, if_neg (Nat.ne_of_lt hlt)]
    exact h.primitives p
  fits id m hm := by
    rw [size_push]
    rw [node?_push] at hm
    by_cases hid : id = g.size
    · rw [if_pos hid] at hm
      cases hm
      subst hid
      exact ⟨fun p hn => absurd hn (hp p), fun c hn => Nat.lt_succ_of_lt (hc c hn), fun _ => hc⟩
    · rw [if_neg hid] at hm
      exact (h.fits id m hm).mono (Nat.le_succ _)
  tops t ht := by
    rw [size_push]
    exact Nat.lt_succ_of_lt (h.tops t ht)

theorem WellFormed.intern (h : g.WellFormed) {n : Node} (hp : ∀ p, n ≠ .primitive p)
    (hc : ∀ c ∈ n.children, c < g.size) : (g.intern n).2.WellFormed := by
  unfold Graph.intern
  split
  · exact h
  · exact h.push hp hc

theorem WellFormed.internNullable (h : g.WellFormed) {inner : TypeId} (hi : inner < g.size) :
    (g.internNullable inner).2.WellFormed := by
  unfold Graph.internNullable
  split
  · exact h
  · refine h.push (fun p => Node.noConfusion) fun c hc => ?_
    have hnull := lt_size_of_node? (h.primitives .null)
    simp only [Node.children, List.mem_cons, List.not_mem_nil, or_false] at hc
    rcases hc with rfl | rfl
    · exact hi
    · exact hnull

theorem WellFormed.putProperties (h : g.WellFormed) {id : TypeId} {properties : List Property}
    (hc : ∀ p ∈ properties, p.type < g.size) : (g.putProperties id properties).WellFormed := by
  unfold Graph.putProperties
  split
  case h_2 => exact h
  case h_1 hint old hid =>
    have hlt := lt_size_of_node? hid
    have hnode : ∀ i, ({ g with nodes := g.nodes.setIfInBounds id (.record hint properties) } : Graph).node? i =
        if id = i then some (.record hint properties) else g.node? i := by
      intro i
      unfold node?
      rw [Array.getElem?_setIfInBounds]
      split
      · rw [if_pos (by exact hlt)]
      · rfl
    have hsize : ({ g with nodes := g.nodes.setIfInBounds id (.record hint properties) } : Graph).size = g.size :=
      Array.size_setIfInBounds
    refine ⟨fun p => ?_, fun i n hn => ?_, fun t ht => ?_⟩
    · rw [hnode, if_neg, h.primitives p]
      rintro rfl
      rw [h.primitives p] at hid
      cases hid
    · rw [hnode] at hn
      rw [hsize]
      by_cases hi : id = i
      · rw [if_pos hi] at hn
        cases hn
        refine ⟨fun p hp => (by cases hp), fun c hc' => ?_, fun hr => (by cases hr)⟩
        obtain ⟨p, hp, rfl⟩ := List.mem_map.mp hc'
        exact hc p hp
      · rw [if_neg hi] at hn
        exact h.fits i n hn
    · rw [hsize]
      exact h.tops t ht

theorem WellFormed.putTop (h : g.WellFormed) {name : Bytes} {type : TypeId} (ht : type < g.size) :
    (g.putTop name type).WellFormed := by
  refine ⟨h.primitives, h.fits, fun t htop => ?_⟩
  rcases List.mem_append.mp htop with htop | htop
  · exact h.tops t htop
  · rw [List.mem_singleton.mp htop]
    exact ht

theorem mem_of_mem_distinct {a : TypeId} {l : List TypeId} (h : a ∈ distinct l) : a ∈ l := by
  induction l with
  | nil => exact h
  | cons b l ih =>
    rcases List.mem_cons.mp h with rfl | h
    · exact List.mem_cons_self
    · exact List.mem_cons_of_mem b (ih (List.mem_filter.mp h).1)

/-! ## Calls -/

theorem check_ends (g : Graph) (ids : List TypeId) :
    Ends (g.check ids) (fun _ => True) (fun _ => ∀ id ∈ ids, id < g.size) := by
  induction ids with
  | nil => exact fun id h => by cases h
  | cons id ids ih =>
    rw [check]
    by_cases h : id < g.size
    · rw [if_pos h]
      refine ih.mono (fun _ _ => trivial) fun _ hids => ?_
      rintro i (_ | ⟨_, hi⟩)
      · exact h
      · exact hids i hi
    · rw [if_neg h]
      trivial

/-- A call that succeeds keeps a graph well formed. -/
theorem WellFormed.perform (h : g.WellFormed) (c : Call) :
    Ends (g.perform c) (fun _ => True) WellFormed := by
  cases c with
  | primitive p => exact h
  | array items =>
    refine Ends.map ((check_ends g _).bind fun _ _ hc => ?_)
    exact h.intern (fun p => Node.noConfusion) hc
  | map values =>
    refine Ends.map ((check_ends g _).bind fun _ _ hc => ?_)
    exact h.intern (fun p => Node.noConfusion) hc
  | record hint properties =>
    refine Ends.map ((check_ends g _).bind fun _ _ hc => ?_)
    exact h.push (fun p => Node.noConfusion) hc
  | setProperties id properties =>
    refine (check_ends g _).bind fun _ _ _ => ?_
    split
    · refine (check_ends g _).bind fun _ _ hc => ?_
      exact h.putProperties fun p hp => hc p.type (List.mem_map_of_mem hp)
    · trivial
  | enum hint cases => exact h.push (fun p => Node.noConfusion) fun c hc => by cases hc
  | union hint members =>
    refine Ends.map ((check_ends g _).bind fun _ _ hc => ?_)
    split
    · trivial
    · exact h.push (fun p => Node.noConfusion) fun c hm => hc c (mem_of_mem_distinct hm)
  | nullable inner =>
    refine Ends.map ((check_ends g _).bind fun _ _ hc => ?_)
    exact h.internNullable (hc inner List.mem_cons_self)
  | topLevel name type =>
    refine (check_ends g _).bind fun _ _ hc => ?_
    exact h.putTop (hc type List.mem_cons_self)

theorem WellFormed.after (h : g.WellFormed) (c : Call) : (g.after c).WellFormed := by
  have hc := h.perform c
  unfold Graph.after
  split
  case h_1 g' hg' => exact hc.of_ok hg'
  case h_2 => exact h

theorem WellFormed.foldl_after (h : g.WellFormed) (calls : List Call) : (calls.foldl Graph.after g).WellFormed := by
  induction calls generalizing g with
  | nil => exact h
  | cons c calls ih => exact ih (h.after c)

/-- **Every graph that was built is well formed.** -/
theorem Built.wellFormed (h : g.Built) : g.WellFormed := by
  obtain ⟨calls, rfl⟩ := h
  exact wellFormed_empty.foldl_after calls

end Graph

end Typewright
