import Mathlib
import Typewright.Description.Resolve
import Typewright.Proofs.Graph.InPlace
import Typewright.Proofs.Module.TypeExpr

/-!
# What every run of calls keeps

* `Graph.Change` : all that a call may do to a graph when it succeeds (`WellFormed.perform_change`);
* `Graph.Invariant` : what holds of the types of a graph, whatever calls were made;
* `Graph.Descends` : the recursions over types go down to smaller numbers and so come to an end;
* `Graph.Keeps` : what a call leaves alone;
* `IndexedGraph.session_keeps_invariant` : all this for graphs that are changed in place, where a call that fails has
  changed nothing.
-/

namespace Typewright

/-- A union has two members at least, and they differ. -/
def Node.IsProper (n : Node) : Prop := ∀ hint ms, n = .union hint ms → 2 ≤ ms.length ∧ ms.Nodup

theorem Node.isProper_of_isUnion_eq_false {n : Node} (h : n.isUnion = false) : n.IsProper := by
  intro hint ms hn
  rw [hn] at h
  exact absurd h (by simp [Node.isUnion])

namespace Graph

variable {g g' : Graph} {id : TypeId}

/-! ## What a call may do -/

/-- What a call may do to a graph when it succeeds. -/
inductive Change (g : Graph) : Call → Graph → Prop
  /-- The type was there already. -/
  | found (c : Call) : Change g c g
  | added (c : Call) {n : Node} (hn : n.IsProper) : Change g c (g.push n).2
  | given {id : TypeId} {hint : Bytes} {old : List Property} (ps : List Property)
      (hid : g.node? id = some (.record hint old)) : Change g (.setProperties id ps) (g.putProperties id ps)
  | entered (name : Bytes) (type : TypeId) : Change g (.topLevel name type) (g.putTop name type)

theorem change_intern (c : Call) {n : Node} (hn : n.isUnion = false) : g.Change c (g.intern n).2 := by
  rcases g.intern_cases n with ⟨id, -, hintern⟩ | ⟨-, hintern⟩
  · rw [hintern]
    exact .found c
  · rw [hintern]
    exact .added c (Node.isProper_of_isUnion_eq_false hn)

theorem WellFormed.change_internNullable (h : g.WellFormed) (c : Call) (inner : TypeId) :
    g.Change c (g.internNullable inner).2 := by
  rcases g.internNullable_cases inner with ⟨-, hintern⟩ | ⟨hnull, hintern⟩
  · rw [hintern]
    exact .found c
  · rw [hintern]
    apply Change.added
    intro hint ms hms
    have hne : inner ≠ Primitive.null.id := by
      intro heq
      rw [heq, isPrimitive_iff.mpr (h.primitives .null)] at hnull
      exact absurd hnull (by simp)
    obtain ⟨-, rfl⟩ := Node.union.inj hms
    exact ⟨Nat.le_refl 2, by simpa using hne⟩

/-- **A call that succeeds does one of four things.** -/
theorem WellFormed.perform_change (h : g.WellFormed) (c : Call) :
    Ends (g.perform c) (fun _ => True) (g.Change c) := by
  cases c with
  | primitive p => exact Change.found _
  | array items => exact Ends.map ((check_ends g _).bind fun _ _ _ => change_intern _ rfl)
  | map values => exact Ends.map ((check_ends g _).bind fun _ _ _ => change_intern _ rfl)
  | record hint properties =>
    exact Ends.map ((check_ends g _).bind fun _ _ _ => .added _ (Node.isProper_of_isUnion_eq_false rfl))
  | setProperties id properties =>
    refine (check_ends g _).bind fun _ _ _ => ?_
    split
    · rename_i hrecord
      refine (check_ends g _).bind fun _ _ _ => ?_
      obtain ⟨n, hn, hr⟩ : ∃ n, g.node? id = some n ∧ n.isRecord = true := by
        cases hn : g.node? id with
        | none => simp [hn] at hrecord
        | some n => exact ⟨n, rfl, by simpa [hn] using hrecord⟩
      cases n with
      | record hint old => exact Change.given properties hn
      | _ => exact absurd hr Bool.false_ne_true
    · trivial
  | enum hint cases => exact Change.added _ (Node.isProper_of_isUnion_eq_false rfl)
  | union hint members =>
    refine Ends.map ((check_ends g _).bind fun _ _ _ => ?_)
    split
    · trivial
    · rename_i hlen
      apply Change.added
      intro hint' ms hms
      obtain ⟨-, rfl⟩ := Node.union.inj hms
      exact ⟨by omega, nodup_distinct members⟩
  | nullable inner => exact Ends.map ((check_ends g _).bind fun _ _ _ => h.change_internNullable _ inner)
  | topLevel name type => exact (check_ends g _).bind fun _ _ _ => Change.entered name type

/-! ## What a call leaves alone -/

/-- After a call the types are there as before, except that a class may have been given properties by that call; it
keeps its hint. The top-levels are there as before. -/
structure Keeps (g : Graph) (c : Call) (g' : Graph) : Prop where
  node? : ∀ id n, g.node? id = some n → g'.node? id = some n ∨
    ∃ hint old new, c = .setProperties id new ∧ n = .record hint old ∧ g'.node? id = some (.record hint new)
  tops : g.tops <+: g'.tops

theorem Change.keeps {c : Call} (h : g.Change c g') : g.Keeps c g' := by
  cases h with
  | found => exact ⟨fun _ _ hn => .inl hn, List.prefix_refl _⟩
  | added c hnew =>
    refine ⟨fun id n hn => .inl ?_, List.prefix_refl _⟩
    rw [node?_push, if_neg (Nat.ne_of_lt (lt_size_of_node? hn))]
    exact hn
  | @given record hint old ps hid =>
    refine ⟨fun i n hn => ?_, by rw [tops_putProperties]⟩
    rw [node?_putProperties hid]
    by_cases hi : i = record
    · subst hi
      rw [hid] at hn
      rw [if_pos rfl]
      exact .inr ⟨_, _, ps, rfl, (Option.some.inj hn).symm, rfl⟩
    · rw [if_neg hi]
      exact .inl hn
  | entered name type => exact ⟨fun _ _ hn => .inl hn, List.prefix_append _ _⟩

/-! ## Unions -/

/-- Every union has two members at least, and they differ. -/
def UnionsProper (g : Graph) : Prop := ∀ id n, g.node? id = some n → n.IsProper

theorem UnionsProper.change (h : g.UnionsProper) {c : Call} (hc : g.Change c g') : g'.UnionsProper := by
  intro i m hm
  cases hc with
  | found => exact h i m hm
  | added c hnew =>
    rw [node?_push] at hm
    split at hm
    · rw [← Option.some.inj hm]
      exact hnew
    · exact h i m hm
  | given ps hid =>
    rw [node?_putProperties hid] at hm
    split at hm
    · rw [← Option.some.inj hm]
      exact Node.isProper_of_isUnion_eq_false rfl
    · exact h i m hm
  | entered name type => exact h i m hm

theorem unionsProper_foldl_after (hg : g.WellFormed) (h : g.UnionsProper) (calls : List Call) :
    (calls.foldl after g).UnionsProper := by
  induction calls generalizing g with
  | nil => exact h
  | cons c calls ih =>
    apply ih (hg.after c)
    have hchange := hg.perform_change c
    unfold after
    split
    case h_1 g' hg' => exact h.change (hchange.of_ok hg')
    case h_2 => exact h

theorem unionsProper_empty : empty.UnionsProper := by
  intro id n hn
  obtain ⟨p, rfl, -⟩ := eq_primitive_of_node?_empty hn
  exact Node.isProper_of_isUnion_eq_false rfl

/-! ## Cycles -/

/-- Only the properties of a class lead to types that are not earlier. -/
theorem WellFormed.lt_of_leads (h : g.WellFormed) {c : TypeId} (hc : Leads g.children id c)
    (hid : ∀ hint ps, g.node? id ≠ some (.record hint ps)) : c < id := by
  unfold Leads children at hc
  split at hc
  case h_1 n hn =>
    refine (h.fits id n hn).earlier ?_ c hc
    cases n with
    | record hint ps => exact absurd hn (hid hint ps)
    | _ => rfl
  case h_2 => exact absurd hc List.not_mem_nil

/-- Along a cycle without a class the numbers would get smaller all the way round. -/
theorem WellFormed.exists_record_of_cycle (h : g.WellFormed) {path : List TypeId}
    (hpath : path.IsChain (Leads g.children)) (hlen : 2 ≤ path.length) (hends : path.head? = path.getLast?) :
    ∃ id ∈ path, ∃ hint ps, g.node? id = some (.record hint ps) := by
  by_contra hnone
  push Not at hnone
  have hdown : path.IsChain (· > ·) :=
    hpath.imp_of_mem_imp fun a c ha _ hac => h.lt_of_leads hac (hnone a ha)
  obtain ⟨a, b, rest, rfl⟩ : ∃ a b rest, path = a :: b :: rest := by
    rcases path with _ | ⟨a, _ | ⟨b, rest⟩⟩
    · simp at hlen
    · simp at hlen
    · exact ⟨a, b, rest, rfl⟩
  have hlast : a ∈ b :: rest := by
    apply List.mem_of_getLast?
    rw [← List.getLast?_cons_cons (a := a), ← hends]
    rfl
  exact absurd (List.rel_of_pairwise_cons hdown.pairwise hlast) (Nat.lt_irrefl a)

/-! ## Recursions over types -/

/-- The recursions over types go down from every type that is not a class, so they come to an end; and what they give
for a type is made of what they give for its parts, without any condition on the numbers. -/
structure Descends (g : Graph) : Prop where
  wellFounded : WellFounded fun c id => Leads g.children id c ∧ ∀ hint ps, g.node? id ≠ some (.record hint ps)
  describe_array : ∀ id items, g.node? id = some (.array items) →
    g.describe id = Bytes.ascii "array<" ++ g.describe items ++ Bytes.ascii ">"
  describe_map : ∀ id values, g.node? id = some (.map values) →
    g.describe id = Bytes.ascii "map<" ++ g.describe values ++ Bytes.ascii ">"
  memberHint_array : ∀ id items, g.node? id = some (.array items) →
    g.memberHint id = g.memberHint items ++ Bytes.ascii "_array"
  memberHint_map : ∀ id values, g.node? id = some (.map values) →
    g.memberHint id = g.memberHint values ++ Bytes.ascii "_map"
  typeExpr_array : ∀ (c : ExprContext) id items, g.node? id = some (.array items) →
    typeExpr c g id = (typeExpr c g items).map .list
  typeExpr_map : ∀ (c : ExprContext) id values, g.node? id = some (.map values) →
    typeExpr c g id = (typeExpr c g values).map .dict
  typeExpr_nullable : ∀ (c : ExprContext) id inner, g.nullableInner? id = some inner →
    typeExpr c g id = (typeExpr c g inner).map .optional
  typeExpr_union : ∀ (c : ExprContext) id hint ms, g.node? id = some (.union hint ms) → g.nullableInner? id = none →
    c.declareUnions = false → typeExpr c g id = (ms.mapM (typeExpr c g)).map .oneOf

theorem node?_of_nullableInner? {inner : TypeId} (h : g.nullableInner? id = some inner) :
    ∃ hint ms, g.node? id = some (.union hint ms) := by
  unfold nullableInner? at h
  split at h
  case h_1 hint a b hn => exact ⟨hint, [a, b], hn⟩
  case h_2 => exact absurd h (by simp)

theorem WellFormed.descends (h : g.WellFormed) : g.Descends := by
  have hitems : ∀ id items, g.node? id = some (.array items) → items < id := fun id items hn =>
    (h.fits id _ hn).earlier rfl items List.mem_cons_self
  have hvalues : ∀ id values, g.node? id = some (.map values) → values < id := fun id values hn =>
    (h.fits id _ hn).earlier rfl values List.mem_cons_self
  constructor
  case wellFounded =>
    apply Subrelation.wf (r := (· < ·)) _ Nat.lt_wfRel.wf
    intro c id hc
    exact h.lt_of_leads hc.1 hc.2
  case describe_array =>
    intro id items hn
    rw [describe, hn]
    simp only [if_pos (hitems id items hn)]
  case describe_map =>
    intro id values hn
    rw [describe, hn]
    simp only [if_pos (hvalues id values hn)]
  case memberHint_array =>
    intro id items hn
    rw [memberHint, hn]
    simp only [if_pos (hitems id items hn)]
  case memberHint_map =>
    intro id values hn
    rw [memberHint, hn]
    simp only [if_pos (hvalues id values hn)]
  case typeExpr_array =>
    intro c id items hn
    rw [typeExpr, hn]
    simp only [if_pos (hitems id items hn)]
  case typeExpr_map =>
    intro c id values hn
    rw [typeExpr, hn]
    simp only [if_pos (hvalues id values hn)]
  case typeExpr_nullable =>
    intro c id inner hinner
    obtain ⟨hint, ms, hn⟩ := node?_of_nullableInner? hinner
    have hmem := (nullableInner?_eq_some hinner).1
    rw [children_of_node? hn] at hmem
    rw [typeExpr, hn]
    simp only [hinner, if_pos ((h.fits id _ hn).earlier rfl inner hmem)]
  case typeExpr_union =>
    intro c id hint ms hn hinner hdeclare
    rw [typeExpr, hn]
    simp only [hinner, hdeclare, Bool.false_eq_true, if_false]
    congr 1
    apply mapM_congr
    intro m hm
    rw [if_pos ((h.fits id _ hn).earlier rfl m hm)]

/-! ## Every run -/

/-- What holds of the types of a graph, whatever calls were made. -/
structure Invariant (g : Graph) : Prop where
  /-- The numbers below ten are those of the primitive types. -/
  primitives : ∀ i < 10, g.node? i = (Primitive.all[i]?).map Node.primitive
  children : ∀ id, ∀ c ∈ g.children id, c < g.size
  tops : ∀ t ∈ g.tops, t.type < g.size
  unions : ∀ id hint ms, g.node? id = some (.union hint ms) → 2 ≤ ms.length ∧ ms.Nodup
  /-- There is one array of the same items, -/
  arrays : ∀ i j items, g.node? i = some (.array items) → g.node? j = some (.array items) → i = j
  /-- and one map of the same values. -/
  maps : ∀ i j values, g.node? i = some (.map values) → g.node? j = some (.map values) → i = j
  earlier : ∀ id n, g.node? id = some n → n.isRecord = false → ∀ c ∈ n.children, c < id
  /-- A way from a type back to itself, along the parts of types, passes through a class. -/
  cycles : ∀ path : List TypeId, path.IsChain (Leads g.children) → 2 ≤ path.length → path.head? = path.getLast? →
    ∃ id ∈ path, ∃ hint ps, g.node? id = some (.record hint ps)
  descends : g.Descends

end Graph

namespace IndexedGraph

open InPlace

theorem Linked.invariant {s : IndexedGraph} (h : s.Linked) (hg : s.graph.WellFormed) (hu : s.graph.UnionsProper) :
    s.graph.Invariant where
  primitives i hi := by
    obtain ⟨n, hn⟩ := Graph.exists_node? (show i < Graph.empty.size from hi)
    obtain ⟨p, -, rfl⟩ := Graph.eq_primitive_of_node?_empty hn
    rw [hg.primitives p]
    cases p <;> rfl
  children id c hc := hg.children_lt hc
  tops := hg.tops
  unions id hint ms hn := hu id _ hn hint ms rfl
  arrays i j items hi hj := h.eq_of_node? rfl hi hj
  maps i j values hi hj := h.eq_of_node? rfl hi hj
  earlier id n hn := (hg.fits id n hn).earlier
  cycles path hpath hlen hends := hg.exists_record_of_cycle hpath hlen hends
  descends := hg.descends

/-- **Whatever calls are made, the invariant holds**, and the next call keeps what is there: if it fails, graph and
index are as before, and if it succeeds, no type has changed except the class that it gives properties to. -/
theorem session_keeps_invariant (calls : List Call) :
    let s := calls.foldl IndexedGraph.after IndexedGraph.start
    s.graph = calls.foldl Graph.after Graph.empty ∧ s.graph.Invariant ∧
      ∀ c s', (∀ e, (call c).on s = (.error e, s') → s.graph.perform c = .error e ∧ s' = s) ∧
        ∀ answer, (call c).on s = (.ok answer, s') → s.graph.perform c = .ok s'.graph ∧ s.graph.Keeps c s'.graph := by
  intro s
  have hstart : IndexedGraph.start.graph.WellFormed := graph_start ▸ Graph.wellFormed_empty
  obtain ⟨hgraph, hlinked⟩ := foldl_after hstart linked_start calls
  rw [graph_start] at hgraph
  have hg : s.graph.WellFormed := hgraph ▸ Graph.wellFormed_empty.foldl_after calls
  have hu : s.graph.UnionsProper :=
    hgraph ▸ Graph.unionsProper_foldl_after Graph.wellFormed_empty Graph.unionsProper_empty calls
  refine ⟨hgraph, hlinked.invariant hg hu, fun c s' => ?_⟩
  have hcall := call_matches hg hlinked c
  cases hperform : s.graph.perform c with
  | error e =>
    rw [hperform] at hcall
    have hrun : (call c).on s = (.error e, s) := hcall
    constructor
    · intro e' he'
      rw [hrun] at he'
      obtain ⟨he, hs⟩ := Prod.mk.inj he'
      exact ⟨congrArg Except.error (Except.error.inj he), hs.symm⟩
    · intro answer hok
      rw [hrun] at hok
      exact absurd (Prod.mk.inj hok).1 (by simp)
  | ok g' =>
    rw [hperform] at hcall
    obtain ⟨⟨answer, hanswer⟩, hg', -⟩ := hcall
    constructor
    · intro e he
      rw [he] at hanswer
      exact absurd hanswer (by simp)
    · intro answer' hok
      rw [hok] at hg'
      refine ⟨congrArg Except.ok hg'.symm, ?_⟩
      rw [show s'.graph = g' from hg']
      exact ((hg.perform_change c).of_ok hperform).keeps

end IndexedGraph

end Typewright
