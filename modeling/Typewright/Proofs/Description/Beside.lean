import Typewright.Proofs.Description.Growth
import Typewright.Proofs.Graph.InPlace
import Typewright.Proofs.Graph.Renaming

/-!
# Readings beside each other

The same types are resolved in a new graph and in a graph that holds types already. Arrays and maps may be found among
the older types, so that the numbers of the two graphs differ in no regular way.

* `Graph.Beside base f g g'` : the graph `g'` holds `base`, and besides what `f` makes of the numbers of `g`;
* `Graph.Beside.extend` : a new type in `g` is a new or an older type of `g'`;
* `Reading.Beside` : the same of readings, with the same problems. What was declared is new in both of them;
* `Reading.Beside.resolve` : resolving keeps readings beside each other.
-/

namespace Typewright

/-! ## Renamed types -/

namespace Node

variable {f f' : TypeId → TypeId}

theorem rename_congr {n : Node} (h : ∀ c ∈ n.children, f' c = f c) : n.rename f' = n.rename f := by
  cases n with
  | primitive p => rfl
  | array items => rw [rename, rename, h items List.mem_cons_self]
  | map values => rw [rename, rename, h values List.mem_cons_self]
  | record hint ps =>
    have hps : ∀ p ∈ ps, ({ p with type := f' p.type } : Property) = { p with type := f p.type } := by
      intro p hp
      rw [h p.type (List.mem_map_of_mem hp)]
    rw [rename, rename, List.map_congr_left hps]
  | enum hint cs => rfl
  | union hint ms =>
    have hms : ∀ c ∈ ms, f' c = f c := h
    rw [rename, rename, List.map_congr_left hms]

/-- Types that exist once are told apart when they are renamed. -/
theorem eq_of_rename_eq {S : TypeId → Prop} (hinj : ∀ a b, S a → S b → f a = f b → a = b) {m n : Node}
    (hn : n.isShared = true) (hm : ∀ c ∈ m.children, S c) (hc : ∀ c ∈ n.children, S c)
    (h : m.rename f = n.rename f) : m = n := by
  cases n with
  | primitive p => exact (rename_eq_primitive f m).mp h
  | array items =>
    cases m with
    | array items' => rw [hinj items' items (hm _ List.mem_cons_self) (hc _ List.mem_cons_self) (Node.array.inj h)]
    | _ => cases h
  | map values =>
    cases m with
    | map values' => rw [hinj values' values (hm _ List.mem_cons_self) (hc _ List.mem_cons_self) (Node.map.inj h)]
    | _ => cases h
  | _ => cases hn

end Node

namespace Graph

theorem distinct_map {f : TypeId → TypeId} {l : List TypeId} (hinj : ∀ a ∈ l, ∀ b ∈ l, f a = f b → a = b) :
    distinct (l.map f) = (distinct l).map f := by
  induction l with
  | nil => rfl
  | cons a l ih =>
    rw [List.map_cons, distinct, distinct, List.map_cons,
      ih fun a ha b hb => hinj a (List.mem_cons_of_mem _ ha) b (List.mem_cons_of_mem _ hb), List.filter_map]
    refine congrArg (f a :: List.map f ·) (List.filter_congr fun b hb => ?_)
    have hb' : b ∈ l := mem_of_mem_distinct hb
    have hiff : f b = f a ↔ b = a :=
      ⟨hinj b (List.mem_cons_of_mem _ hb') a List.mem_cons_self, fun hba => by rw [hba]⟩
    simp [hiff]

/-! ## Graphs that were built -/

theorem Built.growsTo {g g' : Graph} (h : g.Built) (hg : g.GrowsTo g') : g'.Built := by
  obtain ⟨calls, rfl⟩ := h
  obtain ⟨calls', hcalls'⟩ := hg
  refine ⟨calls ++ calls', ?_⟩
  rw [List.foldl_append]
  generalize calls.foldl after empty = g at hcalls'
  induction calls' generalizing g with
  | nil => exact Except.ok.inj hcalls'
  | cons c calls' ih =>
    rw [List.foldlM_cons] at hcalls'
    cases hc : g.perform c with
    | error e => rw [hc] at hcalls'; cases hcalls'
    | ok g₁ =>
      rw [hc] at hcalls'
      rw [List.foldl_cons, after, hc]
      exact ih g₁ hcalls'

theorem Extends.size_le {g g' : Graph} (h : g.Extends g') : g.size ≤ g'.size := by
  by_contra hlt
  exact absurd (h.lt_size (Nat.not_le.mp hlt)) (Nat.lt_irrefl _)

/-- A type that exists once has one number. -/
theorem Built.eq_of_node? {g : Graph} (h : g.Built) {n : Node} (hn : n.isShared = true) {i j : TypeId}
    (hi : g.node? i = some n) (hj : g.node? j = some n) : i = j := by
  obtain ⟨calls, rfl⟩ := h
  obtain ⟨hgraph, hlinked⟩ :=
    IndexedGraph.foldl_after (IndexedGraph.graph_start ▸ wellFormed_empty) IndexedGraph.linked_start calls
  rw [IndexedGraph.graph_start] at hgraph
  rw [← hgraph] at hi hj
  exact hlinked.eq_of_node? hn hi hj

/-- The graph `g'` holds all types of `base`, and besides what `f` makes of the numbers of `g`. -/
structure Beside (base : Graph) (f : TypeId → TypeId) (g g' : Graph) : Prop where
  wellFormed : g.WellFormed
  built : g'.Built
  inj : ∀ a b, a < g.size → b < g.size → f a = f b → a = b
  node? : ∀ id n, g.node? id = some n → g'.node? (f id) = some (n.rename f)
  tops : g'.tops = base.tops ++ g.tops.map fun t => ⟨t.name, f t.type⟩
  old : ∀ id n, base.node? id = some n → g'.node? id = some n

namespace Beside

variable {base g g' g'' : Graph} {f : TypeId → TypeId} {id : TypeId} {n : Node}

theorem size_le (h : Beside base f g g') : base.size ≤ g'.size := by
  by_contra hlt
  obtain ⟨n, hn⟩ := exists_node? (Nat.not_le.mp hlt)
  exact absurd (lt_size_of_node? (h.old g'.size n hn)) (Nat.lt_irrefl _)

theorem lt_size (h : Beside base f g g') (hid : id < g.size) : f id < g'.size := by
  obtain ⟨n, hn⟩ := exists_node? hid
  exact lt_size_of_node? (h.node? id n hn)

theorem primitive (h : Beside base f g g') (p : Primitive) : f p.id = p.id := by
  have hp := h.node? p.id _ (h.wellFormed.primitives p)
  exact (h.built.wellFormed.fits _ _ hp).primitive p rfl

theorem child_lt (h : Beside base f g g') (hn : g.node? id = some n) {c : TypeId} (hc : c ∈ n.children) : c < g.size :=
  (h.wellFormed.fits id n hn).known c hc

/-- A new type of `g` stands for a type of `g'` that no type of `g` stands for yet. -/
theorem extend (h : Beside base f g g') (hg : g.GrowsTo (g.push n).2) (hc : ∀ c ∈ n.children, c < g.size)
    (hg' : g'.Extends g'') {j : TypeId} (hj : g''.node? j = some (n.rename f)) (hnew : ∀ a < g.size, f a ≠ j) :
    Beside base (Function.update f g.size j) (g.push n).2 g'' := by
  have hsame : ∀ a < g.size, Function.update f g.size j a = f a :=
    fun a ha => Function.update_of_ne (Nat.ne_of_lt ha) _ _
  have hself : Function.update f g.size j g.size = j := Function.update_self _ _ _
  have hcases : ∀ {a}, a < (g.push n).2.size → a < g.size ∨ a = g.size := by
    intro a ha
    rw [size_push] at ha
    omega
  refine ⟨hg.wellFormed h.wellFormed, h.built.growsTo hg'.growsTo, fun a b ha hb hab => ?_, fun id m hm => ?_, ?_,
    fun id m hm => hg'.node? id m (h.old id m hm)⟩
  · rcases hcases ha with ha | rfl
    · rcases hcases hb with hb | rfl
      · rw [hsame a ha, hsame b hb] at hab
        exact h.inj a b ha hb hab
      · rw [hsame a ha, hself] at hab
        exact absurd hab (hnew a ha)
    · rcases hcases hb with hb | rfl
      · rw [hsame b hb, hself] at hab
        exact absurd hab.symm (hnew b hb)
      · rfl
  · rw [node?_push] at hm
    split at hm
    · next hid =>
      cases hm
      rw [hid, hself, Node.rename_congr fun c hcn => hsame c (hc c hcn)]
      exact hj
    · have hlt := lt_size_of_node? hm
      rw [hsame id hlt, Node.rename_congr fun c hcm => hsame c (h.child_lt hm hcm)]
      exact hg'.node? _ _ (h.node? id m hm)
  · rw [hg'.tops, h.tops]
    refine congrArg (base.tops ++ ·) (List.map_congr_left fun t ht => ?_)
    rw [hsame t.type (h.wellFormed.tops t ht)]

/-- A new type in both graphs. -/
theorem push (h : Beside base f g g') (hg : g.GrowsTo (g.push n).2) (hc : ∀ c ∈ n.children, c < g.size)
    (hg' : g'.GrowsTo (g'.push (n.rename f)).2) :
    Beside base (Function.update f g.size g'.size) (g.push n).2 (g'.push (n.rename f)).2 := by
  refine h.extend hg hc (extends_push hg') ?_ fun a ha => Nat.ne_of_lt (h.lt_size ha)
  rw [node?_push, if_pos rfl]

/-- A type that exists once is found or added in both graphs. -/
theorem intern (h : Beside base f g g') (hn : n.isShared = true) (hg : g.GrowsTo (g.intern n).2)
    (hc : ∀ c ∈ n.children, c < g.size) (hg' : g'.GrowsTo (g'.intern (n.rename f)).2) :
    ∃ f', (∀ a < g.size, f' a = f a) ∧ Beside base f' (g.intern n).2 (g'.intern (n.rename f)).2 ∧
      (g'.intern (n.rename f)).1 = f' (g.intern n).1 := by
  have hn' : (n.rename f).isShared = true := by cases n <;> first | rfl | cases hn
  have hsame : ∀ j, ∀ a < g.size, Function.update f g.size j a = f a :=
    fun j a ha => Function.update_of_ne (Nat.ne_of_lt ha) _ _
  have hself : ∀ j, j = Function.update f g.size j g.size := fun j => (Function.update_self g.size j f).symm
  rcases g.intern_cases n with ⟨i, hi, heq⟩ | ⟨hnone, heq⟩
  · rcases g'.intern_cases (n.rename f) with ⟨j, hj, heq'⟩ | ⟨hnone', -⟩
    · rw [heq, heq']
      exact ⟨f, fun _ _ => rfl, h, h.built.eq_of_node? hn' hj (h.node? i n hi)⟩
    · exact absurd (h.node? i n hi) (hnone' _)
  · rw [heq] at hg ⊢
    rcases g'.intern_cases (n.rename f) with ⟨j, hj, heq'⟩ | ⟨-, heq'⟩
    · -- The type is among the older ones, and no type of `g` stands for it: it would be the same.
      have hnew : ∀ a < g.size, f a ≠ j := by
        rintro a ha rfl
        obtain ⟨m, hm⟩ := exists_node? ha
        have hrename : m.rename f = n.rename f := Option.some.inj ((h.node? a m hm).symm.trans hj)
        rw [Node.eq_of_rename_eq h.inj hn (fun c hcm => h.child_lt hm hcm) hc hrename] at hm
        exact hnone a hm
      rw [heq']
      exact ⟨_, hsame j, h.extend hg hc (.refl g') hj hnew, hself j⟩
    · rw [heq'] at hg' ⊢
      exact ⟨_, hsame g'.size, h.push hg hc hg', hself g'.size⟩

theorem isPrimitive (h : Beside base f g g') (p : Primitive) (hid : id < g.size) :
    g'.isPrimitive p (f id) = g.isPrimitive p id := by
  obtain ⟨n, hn⟩ := exists_node? hid
  unfold Graph.isPrimitive
  rw [h.node? id n hn, hn]
  simp [Node.rename_eq_primitive]

theorem isSome_nullableInner? (h : Beside base f g g') (hid : id < g.size) :
    (g'.nullableInner? (f id)).isSome = (g.nullableInner? id).isSome := by
  obtain ⟨n, hn⟩ := exists_node? hid
  unfold Graph.nullableInner?
  rw [h.node? id n hn, hn]
  cases n with
  | union hint members =>
    match members, hn with
    | [], _ => rfl
    | [_], _ => rfl
    | [a, b], hn =>
      have ha := h.isPrimitive .null (h.child_lt hn List.mem_cons_self)
      have hb := h.isPrimitive .null (h.child_lt hn (List.mem_cons_of_mem a List.mem_cons_self))
      simp only [Node.rename, List.map_cons, List.map_nil, ha, hb]
      split
      · rfl
      · split
        · rfl
        · rfl
    | _ :: _ :: _ :: _, _ => rfl
  | _ => rfl

/-- A type that allows `null` is found or added in both graphs. -/
theorem internNullable (h : Beside base f g g') (hid : id < g.size) :
    ∃ f', (∀ a < g.size, f' a = f a) ∧ Beside base f' (g.internNullable id).2 (g'.internNullable (f id)).2 ∧
      (g'.internNullable (f id)).1 = f' (g.internNullable id).1 := by
  have hallows := congrArg₂ (· || ·) (h.isPrimitive .null hid) (h.isSome_nullableInner? hid)
  have hg := growsTo_nullable hid
  have hg' := growsTo_nullable (h.lt_size hid)
  rcases g.internNullable_cases id with ⟨hsome, heq⟩ | ⟨hnone, heq⟩
  · rcases g'.internNullable_cases (f id) with ⟨-, heq'⟩ | ⟨hnone', -⟩
    · rw [heq, heq']
      exact ⟨f, fun _ _ => rfl, h, rfl⟩
    · rw [hnone', hsome] at hallows
      cases hallows
  · rcases g'.internNullable_cases (f id) with ⟨hsome', -⟩ | ⟨-, heq'⟩
    · rw [hsome', hnone] at hallows
      cases hallows
    · have hrename : (Node.union [] [id, Primitive.null.id]).rename f = .union [] [f id, Primitive.null.id] := by
        rw [Node.rename, List.map_cons, List.map_cons, h.primitive .null, List.map_nil]
      have hc : ∀ c ∈ (Node.union [] [id, Primitive.null.id]).children, c < g.size := by
        intro c hc
        simp only [Node.children, List.mem_cons, List.not_mem_nil, or_false] at hc
        rcases hc with rfl | rfl
        · exact hid
        · exact lt_size_of_node? (h.wellFormed.primitives .null)
      rw [heq] at hg ⊢
      rw [heq', ← hrename] at hg' ⊢
      exact ⟨_, fun a ha => Function.update_of_ne (Nat.ne_of_lt ha) _ _, h.push hg hc hg',
        (Function.update_self g.size g'.size f).symm⟩

theorem wrap (h : Beside base f g g') {wrap : TypeForm → TypeForm} {make : Graph → TypeId → TypeId × Graph}
    (hwrap : Wraps wrap make) (hid : id < g.size) :
    ∃ f', (∀ a < g.size, f' a = f a) ∧ Beside base f' (make g id).2 (make g' (f id)).2 ∧
      (make g' (f id)).1 = f' (make g id).1 := by
  cases hwrap with
  | array =>
    exact h.intern (n := .array id) rfl (growsTo_array hid) (List.forall_mem_singleton.mpr hid)
      (growsTo_array (h.lt_size hid))
  | map =>
    exact h.intern (n := .map id) rfl (growsTo_map hid) (List.forall_mem_singleton.mpr hid)
      (growsTo_map (h.lt_size hid))
  | nullable => exact h.internNullable hid

/-- What a member adds to the hint of a union is the same. -/
theorem memberHint (h : Beside base f g g') (hid : id < g.size) : g'.memberHint (f id) = g.memberHint id := by
  induction id using Nat.strong_induction_on with
  | _ id ih =>
    obtain ⟨n, hn⟩ := exists_node? hid
    have hn' := h.node? id n hn
    have hlt := (h.wellFormed.fits id n hn).earlier
    have hlt' := (h.built.wellFormed.fits _ _ hn').earlier
    rw [Graph.memberHint, Graph.memberHint, hn, hn']
    cases n with
    | primitive p => cases p <;> rfl
    | array items =>
      have hitems := hlt rfl items List.mem_cons_self
      simp only [Node.rename, if_pos hitems, if_pos (hlt' rfl (f items) List.mem_cons_self),
        ih items hitems (h.child_lt hn List.mem_cons_self)]
    | map values =>
      have hvalues := hlt rfl values List.mem_cons_self
      simp only [Node.rename, if_pos hvalues, if_pos (hlt' rfl (f values) List.mem_cons_self),
        ih values hvalues (h.child_lt hn List.mem_cons_self)]
    | _ => rfl

theorem unionHint (h : Beside base f g g') (hint : Bytes) {ids : List TypeId} (hids : ∀ id ∈ ids, id < g.size) :
    g'.unionHint hint (ids.map f) = g.unionHint hint ids := by
  have hmap : (ids.map f).map g'.memberHint = ids.map g.memberHint := by
    rw [List.map_map]
    exact List.map_congr_left fun id hid => h.memberHint (hids id hid)
  rw [Graph.unionHint, Graph.unionHint, hmap]

end Beside

end Graph

/-! ## Ways to resolve a type -/

section Equations

variable {s : UnionScope} {opened : List Bytes} {r r₁ : Reading} {pos : Position} {name : Bytes}

theorem resolve_primitive {p : Primitive} (hp : Primitive.ofName? name = some p) :
    resolve s opened r (.named pos name) = (some p.id, r) := by
  simp only [resolve, hp]

theorem resolve_built {id : Option TypeId} (hp : Primitive.ofName? name = none) (hid : r.built.lookup name = some id) :
    resolve s opened r (.named pos name) = (id, r) := by
  simp only [resolve, hp, hid]

theorem resolve_unknown (hp : Primitive.ofName? name = none) (hid : r.built.lookup name = none)
    (hu : s.unions.lookup name = none) :
    resolve s opened r (.named pos name) = (none, r.report (s.unknownType pos name)) := by
  simp only [resolve, hp, hid]
  split
  · rfl
  · next hu' => rw [hu] at hu'; cases hu'

theorem resolve_recursive {u : UnionForm} (hp : Primitive.ofName? name = none) (hid : r.built.lookup name = none)
    (hu : s.unions.lookup name = some u) (hopen : name ∈ opened) :
    resolve s opened r (.named pos name) = (none, r.report ⟨.recursiveUnion name, pos⟩) := by
  simp only [resolve, hp, hid]
  split
  · next hu' => rw [hu] at hu'; cases hu'
  · rw [dif_pos hopen]

theorem resolve_missing {u : UnionForm} (hp : Primitive.ofName? name = none) (hid : r.built.lookup name = none)
    (hu : s.unions.lookup name = some u) (hopen : name ∉ opened) (hm : u.members = none) :
    resolve s opened r (.named pos name) = (none, (r.report ⟨.membersMissing name, u.pos⟩).define name none) := by
  simp only [resolve, hp, hid]
  split
  · next hu' => rw [hu] at hu'; cases hu'
  · next u' hu' =>
    obtain rfl := Option.some.inj (hu.symm.trans hu')
    rw [dif_neg hopen, hm]

theorem resolve_declared {u : UnionForm} {ts : List TypeForm} (hp : Primitive.ofName? name = none)
    (hid : r.built.lookup name = none) (hu : s.unions.lookup name = some u) (hopen : name ∉ opened)
    (hm : u.members = some ts) :
    resolve s opened r (.named pos name) =
      let all := resolveAll s (name :: opened) r ts
      let made := all.2.makeUnion u.pos name all.1
      (made.1, made.2.define name made.1) := by
  simp only [resolve, hp, hid]
  split
  · next hu' => rw [hu] at hu'; cases hu'
  · next u' hu' =>
    obtain rfl := Option.some.inj (hu.symm.trans hu')
    rw [dif_neg hopen, hm]

theorem Wraps.resolve_none {wrap : TypeForm → TypeForm} {make : Graph → TypeId → TypeId × Graph} (h : Wraps wrap make)
    {t : TypeForm} (ht : resolve s opened r t = (none, r₁)) : resolve s opened r (wrap t) = (none, r₁) := by
  cases h <;> simp only [resolve, ht]

theorem Wraps.resolve_some {wrap : TypeForm → TypeForm} {make : Graph → TypeId → TypeId × Graph} (h : Wraps wrap make)
    {t : TypeForm} {id : TypeId} (ht : resolve s opened r t = (some id, r₁)) :
    resolve s opened r (wrap t) = (some (make r₁.graph id).1, { r₁ with graph := (make r₁.graph id).2 }) := by
  cases h <;> simp only [resolve, ht]

end Equations

/-! ## Readings -/

namespace Reading

/-- The reading `r'` goes on in a graph that holds `base` as `r` does in a graph of its own, where `f` turns the numbers
of the one into those of the other. What was declared has numbers that are not in `base`. -/
structure Beside (base : Graph) (f : TypeId → TypeId) (r r' : Reading) : Prop where
  graph : base.Beside f r.graph r'.graph
  known : ∀ name id, r.built.lookup name = some (some id) → id < r.graph.size ∧ base.size ≤ f id
  built : ∀ name, r'.built.lookup name = (r.built.lookup name).map (Option.map f)
  problems : r'.problems = r.problems
  success : r'.success = r.success

variable {base : Graph} {f : TypeId → TypeId} {r r' : Reading}

namespace Beside

theorem isKnown (h : Beside base f r r') : r.Known := ⟨h.graph.wellFormed, fun name id hid => (h.known name id hid).1⟩

theorem lookup_some (h : Beside base f r r') {name : Bytes} {id : Option TypeId}
    (hid : r.built.lookup name = some id) : r'.built.lookup name = some (id.map f) := by
  rw [h.built, hid, Option.map_some]

theorem lookup_none (h : Beside base f r r') {name : Bytes} (hid : r.built.lookup name = none) :
    r'.built.lookup name = none := by
  rw [h.built, hid, Option.map_none]

theorem report (h : Beside base f r r') (p : Problem) : Beside base f (r.report p) (r'.report p) :=
  ⟨h.graph, h.known, h.built, congrArg (· ++ [p]) h.problems, rfl⟩

theorem reportAll (h : Beside base f r r') (ps : List Problem) : Beside base f (r.reportAll ps) (r'.reportAll ps) := by
  induction ps generalizing r r' with
  | nil => exact h
  | cons p ps ih => exact ih (h.report p)

theorem define (h : Beside base f r r') (name : Bytes) {id : Option TypeId}
    (hid : ∀ i, id = some i → i < r.graph.size ∧ base.size ≤ f i) :
    Beside base f (r.define name id) (r'.define name (id.map f)) := by
  refine ⟨h.graph, fun other i hi => ?_, fun other => ?_, h.problems, h.success⟩
  · rw [lookup_define] at hi
    split at hi
    · exact hid i (Option.some.inj hi)
    · exact h.known other i hi
  · rw [lookup_define, lookup_define]
    split
    · rfl
    · exact h.built other

/-- Only the graphs go on. -/
theorem withGraph (h : Beside base f r r') {f' : TypeId → TypeId} {g g' : Graph} (hsame : ∀ a < r.graph.size, f' a = f a)
    (hsize : r.graph.size ≤ g.size) (hg : base.Beside f' g g') :
    Beside base f' { r with graph := g } { r' with graph := g' } := by
  refine ⟨hg, fun name id hid => ?_, fun name => ?_, h.problems, h.success⟩
  · obtain ⟨hlt, hle⟩ := h.known name id hid
    exact ⟨Nat.lt_of_lt_of_le hlt hsize, by rwa [hsame id hlt]⟩
  · show r'.built.lookup name = (r.built.lookup name).map (Option.map f')
    rw [h.built name]
    cases hid : r.built.lookup name with
    | none => rfl
    | some id =>
      cases id with
      | none => rfl
      | some id =>
        rw [Option.map_some, Option.map_some, Option.map_some, Option.map_some, hsame id (h.known name id hid).1]

/-- A new type in both readings, with a number that is not in `base`. -/
theorem push (h : Beside base f r r') {n : Node} (hg : r.graph.GrowsTo (r.graph.push n).2)
    (hc : ∀ c ∈ n.children, c < r.graph.size) (hg' : r'.graph.GrowsTo (r'.graph.push (n.rename f)).2) :
    ∃ f', (∀ a < r.graph.size, f' a = f a) ∧ Beside base f' (r.push n).2 (r'.push (n.rename f)).2 ∧
      f' r.graph.size = r'.graph.size ∧ base.size ≤ f' r.graph.size := by
  have hsame : ∀ a < r.graph.size, Function.update f r.graph.size r'.graph.size a = f a :=
    fun a ha => Function.update_of_ne (Nat.ne_of_lt ha) _ _
  have hself : Function.update f r.graph.size r'.graph.size r.graph.size = r'.graph.size := Function.update_self _ _ _
  have hsize : r.graph.size ≤ (r.graph.push n).2.size := by
    rw [Graph.size_push]
    exact Nat.le_succ _
  refine ⟨_, hsame, h.withGraph hsame hsize (h.graph.push hg hc hg'), hself, ?_⟩
  rw [hself]
  exact h.graph.size_le

/-- A union is made in both readings or in neither. -/
theorem makeUnion (h : Beside base f r r') (pos : Position) (hint : Bytes) {members : List (Option TypeId)}
    (hids : ∀ id, some id ∈ members → id < r.graph.size) :
    ∃ f', (∀ a < r.graph.size, f' a = f a) ∧
      Beside base f' (r.makeUnion pos hint members).2 (r'.makeUnion pos hint (members.map (Option.map f))).2 ∧
      (r'.makeUnion pos hint (members.map (Option.map f))).1 = (r.makeUnion pos hint members).1.map f' ∧
      ∀ i, (r.makeUnion pos hint members).1 = some i → base.size ≤ f' i := by
  rcases r.makeUnion_cases pos hint members with ⟨hnone, heq⟩ | ⟨ids, rfl, hmade⟩
  · have hnone' : none ∈ members.map (Option.map f) := List.mem_map.mpr ⟨none, hnone, rfl⟩
    rcases r'.makeUnion_cases pos hint (members.map (Option.map f)) with ⟨-, heq'⟩ | ⟨ids', hids', -⟩
    · rw [heq, heq']
      exact ⟨f, fun _ _ => rfl, h, rfl, fun i hi => by cases hi⟩
    · rw [hids'] at hnone'
      simp at hnone'
  · have hlt : ∀ id ∈ ids, id < r.graph.size := fun id hid => hids id (List.mem_map_of_mem hid)
    have hdistinct : distinct (ids.map f) = (distinct ids).map f :=
      Graph.distinct_map fun a ha b hb => h.graph.inj a b (hlt a ha) (hlt b hb)
    have hlength : (distinct (ids.map f)).length = (distinct ids).length := by rw [hdistinct, List.length_map]
    have hmap : (ids.map some).map (Option.map f) = (ids.map f).map some := by
      rw [List.map_map, List.map_map]
      rfl
    rw [hmap]
    rcases r'.makeUnion_cases pos hint ((ids.map f).map some) with ⟨hnone, -⟩ | ⟨ids', hids', hmade'⟩
    · simp at hnone
    obtain rfl : ids.map f = ids' := List.map_injective_iff.mpr (Option.some_injective _) hids'
    rw [hlength] at hmade'
    rcases hmade with ⟨hfew, heq⟩ | ⟨hmany, heq⟩
    · rcases hmade' with ⟨-, heq'⟩ | ⟨hmany', -⟩
      · rw [heq, heq']
        exact ⟨f, fun _ _ => rfl, h.report _, rfl, fun i hi => by cases hi⟩
      · exact absurd hfew hmany'
    · rcases hmade' with ⟨hfew', -⟩ | ⟨-, heq'⟩
      · exact absurd hfew' hmany
      · have hmem : ∀ id ∈ distinct ids, id < r.graph.size := fun id hid => hlt id (Graph.mem_of_mem_distinct hid)
        have hlt' : ∀ id ∈ ids.map f, id < r'.graph.size :=
          List.forall_mem_map.mpr fun i hi => h.graph.lt_size (hlt i hi)
        have hg' := Graph.growsTo_union (r.graph.unionHint hint (distinct ids)) hlt' (by rwa [hlength])
        rw [hdistinct] at hg' heq'
        rw [h.graph.unionHint hint hmem] at heq'
        obtain ⟨f', hsame, hbeside, hself, hnew⟩ := h.push (Graph.growsTo_union _ hlt hmany) hmem hg'
        rw [heq, heq']
        refine ⟨f', hsame, hbeside, congrArg some hself.symm, fun i hi => ?_⟩
        rwa [← Option.some.inj hi]

end Beside

/-! ## Resolving -/

/-- Resolving a type keeps readings beside each other. -/
def ResolvesBeside (base : Graph) (s : UnionScope) (opened : List Bytes) (r : Reading) (t : TypeForm)
    (x : Option TypeId × Reading) : Prop :=
  ∀ f r', Beside base f r r' → ∃ f', (∀ a < r.graph.size, f' a = f a) ∧ Beside base f' x.2 (resolve s opened r' t).2 ∧
    (resolve s opened r' t).1 = x.1.map f'

def ResolvesAllBeside (base : Graph) (s : UnionScope) (opened : List Bytes) (r : Reading) (ts : List TypeForm)
    (x : List (Option TypeId) × Reading) : Prop :=
  ∀ f r', Beside base f r r' → ∃ f', (∀ a < r.graph.size, f' a = f a) ∧
    Beside base f' x.2 (resolveAll s opened r' ts).2 ∧ (resolveAll s opened r' ts).1 = x.1.map (Option.map f')

theorem resolveRules_beside (base : Graph) (s : UnionScope) :
    ResolveRules s (ResolvesBeside base s) (ResolvesAllBeside base s) where
  absent opened r f r' h := by
    rw [resolve]
    exact ⟨f, fun _ _ => rfl, h, rfl⟩
  invalid opened r p f r' h := by
    rw [resolve]
    exact ⟨f, fun _ _ => rfl, h.report p, rfl⟩
  primitive opened r pos name p hp f r' h := by
    rw [resolve_primitive hp]
    exact ⟨f, fun _ _ => rfl, h, congrArg some (h.graph.primitive p).symm⟩
  built opened r pos name id hp hid f r' h := by
    rw [resolve_built hp (h.lookup_some hid)]
    exact ⟨f, fun _ _ => rfl, h, rfl⟩
  unknown opened r pos name hp hid hu f r' h := by
    rw [resolve_unknown hp (h.lookup_none hid) hu]
    exact ⟨f, fun _ _ => rfl, h.report _, rfl⟩
  recursive opened r pos name u hp hid hu hopen f r' h := by
    rw [resolve_recursive hp (h.lookup_none hid) hu hopen]
    exact ⟨f, fun _ _ => rfl, h.report _, rfl⟩
  missing opened r pos name u hp hid hu hopen hm f r' h := by
    rw [resolve_missing hp (h.lookup_none hid) hu hopen hm]
    exact ⟨f, fun _ _ => rfl, (h.report _).define name (by simp), rfl⟩
  declared opened r pos name u ts ids r₁ id r₂ hp hid hu hopen hm hall ih hmake f r' h := by
    rw [resolve_declared hp (h.lookup_none hid) hu hopen hm]
    obtain ⟨hgrows, -, hlt⟩ := (resolveRules_known s).holds_all (name :: opened) r ts h.isKnown
    rw [hall] at hgrows hlt
    obtain ⟨f₁, hsame₁, hbeside₁, hids⟩ := ih f r' h
    obtain ⟨f₂, hsame₂, hbeside₂, hanswer, hnew⟩ := hbeside₁.makeUnion u.pos name hlt
    have hmade := (hbeside₁.isKnown.makeUnion u.pos name hlt).lt_size
    rw [hmake] at hbeside₂ hanswer hnew hmade
    rw [← hids] at hbeside₂ hanswer
    refine ⟨f₂, fun a ha => ?_, ?_, hanswer⟩
    · rw [hsame₂ a (hgrows.graph.lt_size ha), hsame₁ a ha]
    · show Beside base f₂ (r₂.define name id) (Reading.define _ name _)
      rw [hanswer]
      refine hbeside₂.define name fun i hi => ⟨hmade i ?_, hnew i hi⟩
      rw [hi]
      exact List.mem_singleton_self _
  wrap_none opened r t r₁ wrap make hwrap ih f r' h := by
    obtain ⟨f₁, hsame, hbeside, hanswer⟩ := ih f r' h
    rw [hwrap.resolve_none (Prod.ext hanswer rfl)]
    exact ⟨f₁, hsame, hbeside, rfl⟩
  wrap opened r t id r₁ wrap make hwrap ht ih f r' h := by
    obtain ⟨hgrows, -, hlt⟩ := h.isKnown.resolves s opened t
    rw [ht] at hgrows hlt
    obtain ⟨f₁, hsame₁, hbeside₁, hanswer⟩ := ih f r' h
    have hid : id < r₁.graph.size := hlt id (List.mem_singleton_self _)
    obtain ⟨f₂, hsame₂, hgraph, hmade⟩ := hbeside₁.graph.wrap hwrap hid
    rw [hwrap.resolve_some (Prod.ext hanswer rfl)]
    refine ⟨f₂, fun a ha => ?_, hbeside₁.withGraph hsame₂ ?_ hgraph, congrArg some hmade⟩
    · rw [hsame₂ a (hgrows.graph.lt_size ha), hsame₁ a ha]
    · exact Graph.Extends.size_le (hwrap.extends hid).1
  union opened r pos ts ids r₁ hall ih f r' h := by
    obtain ⟨hgrows, -, hlt⟩ := (resolveRules_known s).holds_all opened r ts h.isKnown
    rw [hall] at hgrows hlt
    obtain ⟨f₁, hsame₁, hbeside₁, hids⟩ := ih f r' h
    obtain ⟨f₂, hsame₂, hbeside₂, hanswer, -⟩ := hbeside₁.makeUnion pos [] hlt
    rw [← hids] at hbeside₂ hanswer
    rw [resolve]
    refine ⟨f₂, fun a ha => ?_, hbeside₂, hanswer⟩
    rw [hsame₂ a (hgrows.graph.lt_size ha), hsame₁ a ha]
  nil opened r f r' h := by
    rw [resolveAll]
    exact ⟨f, fun _ _ => rfl, h, rfl⟩
  cons opened r t ts id r₁ ids r₂ ht hall ih ihs f r' h := by
    obtain ⟨hgrows, hknown, hlt⟩ := h.isKnown.resolves s opened t
    rw [ht] at hgrows hknown hlt
    obtain ⟨f₁, hsame₁, hbeside₁, hanswer⟩ := ih f r' h
    obtain ⟨f₂, hsame₂, hbeside₂, hids⟩ := ihs f₁ _ hbeside₁
    rw [resolveAll]
    refine ⟨f₂, fun a ha => ?_, hbeside₂, ?_⟩
    · rw [hsame₂ a (hgrows.graph.lt_size ha), hsame₁ a ha]
    · show (resolve s opened r' t).1 :: (resolveAll s opened (resolve s opened r' t).2 ts).1 = _
      rw [hanswer, hids, List.map_cons]
      cases id with
      | none => rfl
      | some id => rw [Option.map_some, Option.map_some, hsame₂ id (hlt id (List.mem_singleton_self _))]

/-- **Resolving keeps readings beside each other.** -/
theorem Beside.resolve (h : Beside base f r r') (s : UnionScope) (opened : List Bytes) (t : TypeForm) :
    ∃ f', (∀ a < r.graph.size, f' a = f a) ∧
      Beside base f' (resolve s opened r t).2 (resolve s opened r' t).2 ∧
      (resolve s opened r' t).1 = (resolve s opened r t).1.map f' :=
  (resolveRules_beside base s).holds opened r t f r' h

end Reading

end Typewright
