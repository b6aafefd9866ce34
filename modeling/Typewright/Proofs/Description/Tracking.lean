import Typewright.Proofs.Description.Growth
import Typewright.Proofs.Description.Key
import Typewright.Proofs.Description.Spelling

/-!
# The keys of the types of a graph

While a description is read without problems, every type of the graph has a key of its own.

* `NodeOf` : the type that belongs to a key;
* `Tracks s ks r` : `ks` are the keys of the types of the reading `r`. Types with different numbers have different
  keys;
* `Tracks.allowsNull_iff` : the graph takes a type for nullable just if the written type is;
* `Tracks.valid_of_key` : a type that has a key is valid.
-/

namespace Typewright

/-- What the members of a declared union say, if all of them are types. -/
def UnionScope.terms (s : UnionScope) (name : Bytes) : Option (List TypeTerm) :=
  ((s.unions.lookup name).bind UnionForm.members).bind TypeForm.terms?

theorem UnionScope.terms_eq_none {s : UnionScope} {name : Bytes} (h : s.unions.lookup name = none) :
    s.terms name = none := by
  simp [terms, h]

def HasKeys (ks : List TypeKey) (ids : List TypeId) (l : List TypeKey) : Prop :=
  List.Forall₂ (fun id k => ks[id]? = some k) ids l

/-- The type that belongs to a key. Of a class and an enum only the name is told. -/
inductive NodeOf (s : UnionScope) (g : Graph) (ks : List TypeKey) : TypeKey → Node → Prop where
  | primitive (p : Primitive) : NodeOf s g ks (.primitive p) (.primitive p)
  | array {k : TypeKey} {id : TypeId} : ks[id]? = some k → NodeOf s g ks (.array k) (.array id)
  | map {k : TypeKey} {id : TypeId} : ks[id]? = some k → NodeOf s g ks (.map k) (.map id)
  | nullable {site : Site} {k : TypeKey} {id : TypeId} :
    ks[id]? = some k → NodeOf s g ks (.nullable site k) (.union [] [id, Primitive.null.id])
  | union {site : Site} {l : List TypeKey} {ids : List TypeId} : HasKeys ks ids l → ¬ (distinct ids).length < 2 →
    NodeOf s g ks (.union site l) (.union (g.unionHint [] (distinct ids)) (distinct ids))
  | record {name : Bytes} {ps : List Property} :
    s.unions.lookup name = none → NodeOf s g ks (.declared name) (.record name ps)
  | enum {name : Bytes} {cases : List Bytes} :
    s.unions.lookup name = none → NodeOf s g ks (.declared name) (.enum name cases)
  | declared {name : Bytes} {ts : List TypeTerm} {ids : List TypeId} : s.terms name = some ts →
    HasKeys ks ids (TypeTerm.keys s.terms ⟨.union name, []⟩ 0 ts) → ¬ (distinct ids).length < 2 →
    NodeOf s g ks (.declared name) (.union (g.unionHint name (distinct ids)) (distinct ids))

/-- Every type of a reading has a key of its own. -/
structure Tracks (s : UnionScope) (ks : List TypeKey) (r : Reading) : Prop where
  known : r.Known
  length : ks.length = r.graph.size
  nodup : ks.Nodup
  node : ∀ id k n, ks[id]? = some k → r.graph.node? id = some n → NodeOf s r.graph ks k n
  built : ∀ name id, r.built.lookup name = some (some id) ↔ ks[id]? = some (.declared name)
  built_some : ∀ name, r.built.lookup name ≠ some none
  names : ∀ name, .declared name ∈ ks → name ∈ s.names

/-! ## Keys by number -/

theorem getElem?_mono {l l' : List α} (h : l <+: l') {i : Nat} {a : α} (hi : l[i]? = some a) :
    l'[i]? = some a := by
  obtain ⟨rest, rfl⟩ := h
  rw [List.getElem?_append_left (List.getElem?_eq_some_iff.mp hi).1, hi]

theorem getElem?_concat_eq_some {l : List α} {a b : α} {i : Nat} :
    (l ++ [a])[i]? = some b ↔ l[i]? = some b ∨ i = l.length ∧ a = b := by
  rcases Nat.lt_trichotomy i l.length with hi | rfl | hi
  · rw [List.getElem?_append_left hi]
    simp [Nat.ne_of_lt hi]
  · simp
  · rw [List.getElem?_eq_none (by simp; omega), List.getElem?_eq_none (by omega)]
    simp [Nat.ne_of_gt hi]

theorem HasKeys.mono {ks ks' l : List TypeKey} {ids : List TypeId} (h : HasKeys ks ids l) (hks : ks <+: ks') :
    HasKeys ks' ids l :=
  List.Forall₂.imp (fun _ _ hid => getElem?_mono hks hid) h

theorem HasKeys.lt_length {ks l : List TypeKey} {ids : List TypeId} (h : HasKeys ks ids l) {id : TypeId} (hid : id ∈ ids) :
    id < ks.length := by
  obtain ⟨k, _, hk⟩ := exists_of_forall₂_left h hid
  exact (List.getElem?_eq_some_iff.mp hk).1

/-- Every member has its key at a part of its own. -/
theorem HasKeys.exists_member {unions : Bytes → Option (List TypeTerm)} {ks : List TypeKey} {site : Site} {i : Nat}
    {ts : List TypeTerm} {ids : List TypeId} (h : HasKeys ks ids (TypeTerm.keys unions site i ts)) {t : TypeTerm}
    (ht : t ∈ ts) : ∃ id ∈ ids, ∃ n, ks[id]? = some (t.key unions (site.child n)) := by
  obtain ⟨n, -, hmem⟩ := TypeTerm.exists_mem_keys unions site i ht
  obtain ⟨id, hid, hk⟩ := exists_of_forall₂_right h hmem
  exact ⟨id, hid, i + n, hk⟩

section

variable {s : UnionScope} {g g' : Graph} {ks ks' : List TypeKey} {k : TypeKey} {n : Node}

/-- The type of a key stays when the graph grows. -/
theorem NodeOf.mono (h : NodeOf s g ks k n) (hg : ∀ id < ks.length, g'.memberHint id = g.memberHint id)
    (hks : ks <+: ks') : NodeOf s g' ks' k n := by
  have hhint : ∀ {hint l} {ids : List TypeId}, HasKeys ks ids l →
      g'.unionHint hint (distinct ids) = g.unionHint hint (distinct ids) := fun h =>
    Graph.unionHint_congr fun id hid => hg id (h.lt_length (Graph.mem_of_mem_distinct hid))
  cases h with
  | primitive p => exact .primitive p
  | array h => exact .array (getElem?_mono hks h)
  | map h => exact .map (getElem?_mono hks h)
  | nullable h => exact .nullable (getElem?_mono hks h)
  | union h h₂ =>
    rw [← hhint h]
    exact .union (h.mono hks) h₂
  | record h => exact .record h
  | enum h => exact .enum h
  | declared hts h h₂ =>
    rw [← hhint h]
    exact .declared hts (h.mono hks) h₂

end

namespace Tracks

variable {s : UnionScope} {ks : List TypeKey} {r : Reading}

theorem exists_key (h : Tracks s ks r) {id : TypeId} {n : Node} (hn : r.graph.node? id = some n) :
    ∃ k, ks[id]? = some k ∧ NodeOf s r.graph ks k n := by
  have hlt : id < ks.length := by
    rw [h.length]
    exact Graph.lt_size_of_node? hn
  exact ⟨ks[id], List.getElem?_eq_getElem hlt, h.node id _ n (List.getElem?_eq_getElem hlt) hn⟩

theorem exists_node (h : Tracks s ks r) {id : TypeId} {k : TypeKey} (hk : ks[id]? = some k) :
    ∃ n, r.graph.node? id = some n ∧ NodeOf s r.graph ks k n := by
  have hlt : id < r.graph.size := by
    rw [← h.length]
    exact (List.getElem?_eq_some_iff.mp hk).1
  obtain ⟨n, hn⟩ := Graph.exists_node? hlt
  exact ⟨n, hn, h.node id k n hk hn⟩

theorem eq_of_key (h : Tracks s ks r) {id id' : TypeId} {k : TypeKey} (hid : ks[id]? = some k) (hid' : ks[id']? = some k) :
    id = id' :=
  (List.getElem?_inj (List.getElem?_eq_some_iff.mp hid).1 h.nodup).mp (hid.trans hid'.symm)

theorem key_primitive (h : Tracks s ks r) (p : Primitive) : ks[p.id]? = some (.primitive p) := by
  obtain ⟨k, hk, hnode⟩ := h.exists_key (h.known.wellFormed.primitives p)
  cases hnode
  exact hk

theorem declared_mem_iff (h : Tracks s ks r) {name : Bytes} : .declared name ∈ ks ↔ r.built.lookup name ≠ none := by
  constructor
  · intro hmem
    obtain ⟨id, hid⟩ := List.mem_iff_getElem?.mp hmem
    simp [(h.built name id).mpr hid]
  · intro hne
    obtain ⟨id, hid⟩ := Option.ne_none_iff_exists'.mp hne
    cases id with
    | none => exact absurd hid (h.built_some name)
    | some id => exact List.mem_of_getElem? ((h.built name id).mp hid)

/-! ## Adding a type -/

/-- A new type with a new key, and perhaps a name for it. -/
theorem push (h : Tracks s ks r) {n : Node} {k : TypeKey} {r' : Reading} (hgraph : r'.graph = (r.graph.push n).2)
    (hknown : r'.Known) (hk : k ∉ ks) (hnode : NodeOf s r.graph ks k n)
    (hbuilt : ∀ name id, r'.built.lookup name = some (some id) ↔
      r.built.lookup name = some (some id) ∨ id = r.graph.size ∧ k = .declared name)
    (hsome : ∀ name, r'.built.lookup name ≠ some none) (hname : ∀ name, k = .declared name → name ∈ s.names) :
    Tracks s (ks ++ [k]) r' where
  known := hknown
  length := by rw [List.length_append, h.length, hgraph, Graph.size_push]; rfl
  nodup := List.nodup_append.mpr ⟨h.nodup, List.nodup_singleton k, by simpa using fun a ha => ne_of_mem_of_not_mem ha hk⟩
  node id k' n' hk' hn' := by
    have hhint : ∀ id < ks.length, r'.graph.memberHint id = r.graph.memberHint id := by
      intro id hid
      rw [h.length] at hid
      refine Graph.memberHint_congr fun i hi => ?_
      rw [hgraph, Graph.node?_push, if_neg (Nat.ne_of_lt (Nat.lt_of_le_of_lt hi hid))]
    rw [hgraph, Graph.node?_push, ← h.length] at hn'
    rcases getElem?_concat_eq_some.mp hk' with hk' | ⟨rfl, rfl⟩
    · rw [if_neg (Nat.ne_of_lt (List.getElem?_eq_some_iff.mp hk').1)] at hn'
      exact (h.node id k' n' hk' hn').mono hhint (List.prefix_append _ _)
    · rw [if_pos rfl] at hn'
      obtain rfl := Option.some.inj hn'
      exact hnode.mono hhint (List.prefix_append _ _)
  built name id := by rw [hbuilt, h.built, getElem?_concat_eq_some, h.length]
  built_some := hsome
  names name hmem := by
    rcases List.mem_append.mp hmem with hmem | hmem
    · exact h.names name hmem
    · exact hname name (List.mem_singleton.mp hmem).symm

theorem push_anonymous (h : Tracks s ks r) {n : Node} {k : TypeKey} (hg : r.graph.Extends (r.graph.push n).2) (hk : k ∉ ks)
    (hname : ∀ name, k ≠ .declared name) (hnode : NodeOf s r.graph ks k n) :
    Tracks s (ks ++ [k]) { r with graph := (r.graph.push n).2 } :=
  h.push rfl (h.known.graph hg) hk hnode (fun name id => by simp [hname name]) h.built_some
    fun name hkey => absurd hkey (hname name)

theorem push_declared (h : Tracks s ks r) {n : Node} {name : Bytes} (hg : r.graph.Extends (r.graph.push n).2)
    (hk : .declared name ∉ ks) (hname : name ∈ s.names) (hnode : NodeOf s r.graph ks (.declared name) n) :
    Tracks s (ks ++ [.declared name]) ({ r with graph := (r.graph.push n).2 }.define name (some r.graph.size)) := by
  have hnone : r.built.lookup name = none := by
    rw [h.declared_mem_iff] at hk
    exact not_not.mp hk
  refine h.push rfl ((h.known.graph hg).define name fun i hi => ?_) hk hnode (fun other id => ?_) (fun other => ?_)
    fun other hkey => ?_
  · obtain rfl := Option.some.inj hi
    rw [Graph.size_push]
    exact Nat.lt_succ_self _
  · rw [Reading.lookup_define]
    by_cases hother : other = name
    · subst hother
      simp [hnone, eq_comm]
    · simp [hother, Ne.symm hother]
  · rw [Reading.lookup_define]
    by_cases hother : other = name
    · simp [hother]
    · simpa [hother] using h.built_some other
  · obtain rfl : name = other := by simpa using hkey
    exact hname

/-- An array or map type that is there already is found by its key. -/
theorem intern (h : Tracks s ks r) {n : Node} {k : TypeKey} (hg : r.graph.Extends (r.graph.intern n).2)
    (hname : ∀ name, k ≠ .declared name) (hnode : NodeOf s r.graph ks k n)
    (hkey : ∀ k', NodeOf s r.graph ks k' n → k' = k) (hnode' : ∀ n', NodeOf s r.graph ks k n' → n' = n) :
    ∃ ks', Tracks s ks' { r with graph := (r.graph.intern n).2 } ∧ ks'[(r.graph.intern n).1]? = some k ∧
      (ks' = ks ∨ ks' = ks ++ [k]) := by
  rcases r.graph.intern_cases n with ⟨id, hid, heq⟩ | ⟨hnew, heq⟩ <;> rw [heq] at hg ⊢
  · obtain ⟨k', hk', hof⟩ := h.exists_key hid
    obtain rfl := hkey k' hof
    exact ⟨ks, h, hk', .inl rfl⟩
  · have hk : k ∉ ks := by
      intro hmem
      obtain ⟨id, hid⟩ := List.mem_iff_getElem?.mp hmem
      obtain ⟨n', hn', hof⟩ := h.exists_node hid
      obtain rfl := hnode' n' hof
      exact hnew id hn'
    refine ⟨ks ++ [k], h.push_anonymous hg hk hname hnode, ?_, .inr rfl⟩
    exact getElem?_concat_eq_some.mpr (.inr ⟨h.length.symm, rfl⟩)

theorem intern_array (h : Tracks s ks r) {id : TypeId} {k : TypeKey} (hk : ks[id]? = some k) :
    ∃ ks', Tracks s ks' { r with graph := (r.graph.intern (.array id)).2 } ∧
      ks'[(r.graph.intern (.array id)).1]? = some (.array k) ∧ (ks' = ks ∨ ks' = ks ++ [.array k]) := by
  have hid : id < r.graph.size := h.length ▸ (List.getElem?_eq_some_iff.mp hk).1
  refine h.intern (Wraps.array.extends hid).1 (by simp) (.array hk) (fun k' hk' => ?_) fun n' hn' => ?_
  · cases hk' with
    | array hk' => rw [Option.some.inj (hk.symm.trans hk')]
  · cases hn' with
    | array hn' => rw [h.eq_of_key hn' hk]

theorem intern_map (h : Tracks s ks r) {id : TypeId} {k : TypeKey} (hk : ks[id]? = some k) :
    ∃ ks', Tracks s ks' { r with graph := (r.graph.intern (.map id)).2 } ∧
      ks'[(r.graph.intern (.map id)).1]? = some (.map k) ∧ (ks' = ks ∨ ks' = ks ++ [.map k]) := by
  have hid : id < r.graph.size := h.length ▸ (List.getElem?_eq_some_iff.mp hk).1
  refine h.intern (Wraps.map.extends hid).1 (by simp) (.map hk) (fun k' hk' => ?_) fun n' hn' => ?_
  · cases hk' with
    | map hk' => rw [Option.some.inj (hk.symm.trans hk')]
  · cases hn' with
    | map hn' => rw [h.eq_of_key hn' hk]

/-! ## Members and their keys -/

theorem mem_iff_key_mem (h : Tracks s ks r) {ids : List TypeId} {l : List TypeKey} (hids : HasKeys ks ids l)
    {id : TypeId} {k : TypeKey} (hk : ks[id]? = some k) : id ∈ ids ↔ k ∈ l := by
  constructor
  · intro hid
    obtain ⟨k', hk', hid'⟩ := exists_of_forall₂_left hids hid
    rwa [Option.some.inj (hk.symm.trans hid')]
  · intro hl
    obtain ⟨id', hid', hk'⟩ := exists_of_forall₂_right hids hl
    rwa [h.eq_of_key hk hk']

section

variable {site : Site} {i : Nat} {ts : List TypeTerm} {ids : List TypeId}

theorem twoTypes_iff (h : Tracks s ks r) (hids : HasKeys ks ids (TypeTerm.keys s.terms site i ts)) :
    ¬ (distinct ids).length < 2 ↔ TwoTypes s.terms ts := by
  rw [Graph.length_distinct_lt_two_iff, twoTypes_iff_keys site i]
  push Not
  constructor
  · rintro ⟨a, ha, b, hb, hab⟩
    obtain ⟨k, hk, hak⟩ := exists_of_forall₂_left hids ha
    obtain ⟨k', hk', hbk⟩ := exists_of_forall₂_left hids hb
    refine ⟨k, hk, k', hk', ?_⟩
    rintro rfl
    exact hab (h.eq_of_key hak hbk)
  · rintro ⟨k, hk, k', hk', hne⟩
    obtain ⟨a, ha, hak⟩ := exists_of_forall₂_right hids hk
    obtain ⟨b, hb, hbk⟩ := exists_of_forall₂_right hids hk'
    refine ⟨a, ha, b, hb, ?_⟩
    rintro rfl
    exact hne (Option.some.inj (hak.symm.trans hbk))

theorem nullAndOne_iff (h : Tracks s ks r) (hids : HasKeys ks ids (TypeTerm.keys s.terms site i ts)) :
    (∃ a b, distinct ids = [a, b] ∧ (a = Primitive.null.id ∨ b = Primitive.null.id)) ↔ NullAndOne s.terms ts := by
  have hnull := h.key_primitive .null
  rw [Graph.distinct_eq_pair_iff, nullAndOne_iff_keys site i, h.mem_iff_key_mem hids hnull]
  refine and_congr_right fun _ => ⟨?_, ?_⟩
  · rintro ⟨x, hx, hxn, hsame⟩
    obtain ⟨k, hk, hxk⟩ := exists_of_forall₂_left hids hx
    refine ⟨k, hk, ?_, fun k' hk' hk'n => ?_⟩
    · rintro rfl
      exact hxn (h.eq_of_key hxk hnull)
    · obtain ⟨y, hy, hyk⟩ := exists_of_forall₂_right hids hk'
      have hyx : y = x := by
        refine hsame y hy ?_
        rintro rfl
        exact hk'n (Option.some.inj (hyk.symm.trans hnull))
      subst hyx
      exact Option.some.inj (hyk.symm.trans hxk)
  · rintro ⟨k, hk, hkn, hsame⟩
    obtain ⟨x, hx, hxk⟩ := exists_of_forall₂_right hids hk
    refine ⟨x, hx, ?_, fun y hy hyn => ?_⟩
    · rintro rfl
      exact hkn (Option.some.inj (hxk.symm.trans hnull))
    · obtain ⟨k', hk', hyk⟩ := exists_of_forall₂_left hids hy
      have hkk : k' = k := by
        refine hsame k' hk' ?_
        rintro rfl
        exact hyn (h.eq_of_key hyk hnull)
      subst hkk
      exact h.eq_of_key hyk hxk

end

/-! ## Types that allow `null` -/

theorem isPrimitive_iff_eq (h : Tracks s ks r) (p : Primitive) (id : TypeId) :
    r.graph.isPrimitive p id = true ↔ id = p.id := by
  rw [Graph.isPrimitive_iff]
  constructor
  · exact fun hid => (h.known.wellFormed.fits id _ hid).primitive p rfl
  · rintro rfl
    exact h.known.wellFormed.primitives p

theorem isSome_nullableInner?_union (h : Tracks s ks r) {id : TypeId} {hint : Bytes} {members : List TypeId}
    (hid : r.graph.node? id = some (.union hint members)) :
    (r.graph.nullableInner? id).isSome = true ↔
      ∃ a b, members = [a, b] ∧ (a = Primitive.null.id ∨ b = Primitive.null.id) := by
  unfold Graph.nullableInner?
  rw [hid]
  rcases members with _ | ⟨a, _ | ⟨b, _ | ⟨c, rest⟩⟩⟩
  · simp
  · simp
  · by_cases ha : a = Primitive.null.id
    · simp [h.isPrimitive_iff_eq, ha]
    · by_cases hb : b = Primitive.null.id
      · simp [h.isPrimitive_iff_eq, ha, hb]
      · simp [h.isPrimitive_iff_eq, ha, hb]
  · simp

theorem not_nullable_of_node? {id : TypeId} {n : Node} (hid : r.graph.node? id = some n) (hn : n.isUnion = false)
    (hnull : n ≠ .primitive .null) :
    (r.graph.isPrimitive .null id || (r.graph.nullableInner? id).isSome) = false := by
  unfold Graph.nullableInner? Graph.isPrimitive
  rw [hid]
  cases n <;> simp_all [Node.isUnion]

theorem nullable_union_iff (h : Tracks s ks r) {id : TypeId} {hint : Bytes} {members : List TypeId}
    (hid : r.graph.node? id = some (.union hint members)) :
    (r.graph.isPrimitive .null id || (r.graph.nullableInner? id).isSome) = true ↔
      ∃ a b, members = [a, b] ∧ (a = Primitive.null.id ∨ b = Primitive.null.id) := by
  rw [← h.isSome_nullableInner?_union hid]
  simp [Graph.isPrimitive, hid]

/-- The graph takes a type for `null` or nullable just if the written type is. -/
theorem allowsNull_iff (h : Tracks s ks r) {id : TypeId} {t : TypeTerm} {site : Site}
    (hid : ks[id]? = some (t.key s.terms site)) :
    (r.graph.isPrimitive .null id || (r.graph.nullableInner? id).isSome) = true ↔ AllowsNull s.terms t := by
  induction t using TypeTerm.induct generalizing site with
  | primitive p =>
    obtain rfl := h.eq_of_key hid (by simpa only [TypeTerm.key] using h.key_primitive p)
    by_cases hp : p = .null
    · subst hp
      simp [(h.isPrimitive_iff_eq .null _).mpr rfl, AllowsNull.null]
    · rw [not_nullable_of_node? (h.known.wellFormed.primitives p) rfl (by simpa using hp)]
      simp only [Bool.false_eq_true, false_iff]
      rintro ⟨⟩
      exact hp rfl
  | declared name =>
    rw [TypeTerm.key] at hid
    obtain ⟨n, hn, hof⟩ := h.exists_node hid
    have hnot : s.unions.lookup name = none → ¬ AllowsNull s.terms (.declared name) := by
      rintro hu (_ | _ | _ | ⟨hts, _⟩)
      rw [UnionScope.terms_eq_none hu] at hts
      cases hts
    cases hof with
    | record hu => simp [not_nullable_of_node? hn rfl (by simp), hnot hu]
    | enum hu => simp [not_nullable_of_node? hn rfl (by simp), hnot hu]
    | declared hts hids _ =>
      rw [h.nullable_union_iff hn, h.nullAndOne_iff hids]
      constructor
      · exact .declared hts
      · rintro (_ | _ | _ | ⟨hts', hone⟩)
        rwa [Option.some.inj (hts.symm.trans hts')]
  | array t _ =>
    rw [TypeTerm.key] at hid
    obtain ⟨n, hn, ⟨⟩⟩ := h.exists_node hid
    rw [not_nullable_of_node? hn rfl (by simp)]
    simp only [Bool.false_eq_true, false_iff]
    rintro ⟨⟩
  | map t _ =>
    rw [TypeTerm.key] at hid
    obtain ⟨n, hn, ⟨⟩⟩ := h.exists_node hid
    rw [not_nullable_of_node? hn rfl (by simp)]
    simp only [Bool.false_eq_true, false_iff]
    rintro ⟨⟩
  | nullable t ih =>
    by_cases hnull : AllowsNull s.terms t
    · rw [TypeTerm.key_nullable_of_allowsNull hnull] at hid
      simp [(ih hid).mpr hnull, AllowsNull.nullable]
    · rw [TypeTerm.key_nullable_of_not_allowsNull hnull] at hid
      obtain ⟨n, hn, ⟨⟩⟩ := h.exists_node hid
      simp [(h.nullable_union_iff hn).mpr ⟨_, _, rfl, .inr rfl⟩, AllowsNull.nullable]
  | union ts _ =>
    rw [TypeTerm.key] at hid
    obtain ⟨n, hn, hof⟩ := h.exists_node hid
    cases hof with
    | union hids _ =>
      rw [h.nullable_union_iff hn, h.nullAndOne_iff hids]
      constructor
      · exact .union
      · rintro (_ | _ | hone)
        exact hone

/-! ## Types with a key are valid -/

theorem valid_of_key (h : Tracks s ks r) {id : TypeId} {t : TypeTerm} {site : Site}
    (hid : ks[id]? = some (t.key s.terms site)) : t.Valid s.names s.terms := by
  induction t using TypeTerm.induct generalizing id site with
  | primitive p => exact .primitive p
  | declared name =>
    rw [TypeTerm.key] at hid
    exact .declared (h.names name (List.mem_of_getElem? hid))
  | array t ih =>
    rw [TypeTerm.key] at hid
    obtain ⟨n, -, hof⟩ := h.exists_node hid
    cases hof with
    | array hk => exact .array (ih hk)
  | map t ih =>
    rw [TypeTerm.key] at hid
    obtain ⟨n, -, hof⟩ := h.exists_node hid
    cases hof with
    | map hk => exact .map (ih hk)
  | nullable t ih =>
    by_cases hnull : AllowsNull s.terms t
    · rw [TypeTerm.key_nullable_of_allowsNull hnull] at hid
      exact .nullable (ih hid)
    · rw [TypeTerm.key_nullable_of_not_allowsNull hnull] at hid
      obtain ⟨n, -, hof⟩ := h.exists_node hid
      cases hof with
      | nullable hk => exact .nullable (ih hk)
  | union ts ih =>
    rw [TypeTerm.key] at hid
    obtain ⟨n, -, hof⟩ := h.exists_node hid
    cases hof with
    | union hids h₂ =>
      refine .union (fun t ht => ?_) ((h.twoTypes_iff hids).mp h₂)
      obtain ⟨id', -, n, hk⟩ := hids.exists_member ht
      exact ih t ht hk

theorem child_lt (h : Tracks s ks r) {id : TypeId} {n : Node} (hn : r.graph.node? id = some n) (hr : n.isRecord = false)
    {c : TypeId} (hc : c ∈ n.children) : c < id :=
  (h.known.wellFormed.fits id n hn).earlier hr c hc

/-- The names in a type are built before it. -/
theorem exists_mentioned (h : Tracks s ks r) {t : TypeTerm} {name : Bytes} (hm : t.Mentions name) {id : TypeId}
    {site : Site} (hid : ks[id]? = some (t.key s.terms site)) : ∃ id' ≤ id, ks[id']? = some (.declared name) := by
  induction hm generalizing id site with
  | declared name =>
    rw [TypeTerm.key] at hid
    exact ⟨id, Nat.le_refl id, hid⟩
  | array _ ih =>
    rw [TypeTerm.key] at hid
    obtain ⟨n, hn, hof⟩ := h.exists_node hid
    cases hof with
    | array hk =>
      obtain ⟨id', hle, hid'⟩ := ih hk
      exact ⟨id', Nat.le_trans hle (Nat.le_of_lt (h.child_lt hn rfl (by simp [Node.children]))), hid'⟩
  | map _ ih =>
    rw [TypeTerm.key] at hid
    obtain ⟨n, hn, hof⟩ := h.exists_node hid
    cases hof with
    | map hk =>
      obtain ⟨id', hle, hid'⟩ := ih hk
      exact ⟨id', Nat.le_trans hle (Nat.le_of_lt (h.child_lt hn rfl (by simp [Node.children]))), hid'⟩
  | @nullable t _ _ ih =>
    by_cases hnull : AllowsNull s.terms t
    · rw [TypeTerm.key_nullable_of_allowsNull hnull] at hid
      exact ih hid
    · rw [TypeTerm.key_nullable_of_not_allowsNull hnull] at hid
      obtain ⟨n, hn, hof⟩ := h.exists_node hid
      cases hof with
      | nullable hk =>
        obtain ⟨id', hle, hid'⟩ := ih hk
        exact ⟨id', Nat.le_trans hle (Nat.le_of_lt (h.child_lt hn rfl (by simp [Node.children]))), hid'⟩
  | union ht _ ih =>
    rw [TypeTerm.key] at hid
    obtain ⟨n, hn, hof⟩ := h.exists_node hid
    cases hof with
    | union hids _ =>
      obtain ⟨m, hm, _, hk⟩ := hids.exists_member ht
      obtain ⟨id', hle, hid'⟩ := ih hk
      exact ⟨id', Nat.le_trans hle (Nat.le_of_lt (h.child_lt hn rfl (Graph.mem_distinct.mpr hm))), hid'⟩

/-- A declared union is built after the names in its members. -/
theorem exists_needed (h : Tracks s ks r) {name other : Bytes} {ts : List TypeTerm} (hts : s.terms name = some ts)
    {t : TypeTerm} (ht : t ∈ ts) (hm : t.Mentions other) {id : TypeId} (hid : ks[id]? = some (.declared name)) :
    ∃ id' < id, ks[id']? = some (.declared other) := by
  obtain ⟨n, hn, hof⟩ := h.exists_node hid
  cases hof with
  | record hu => simp [UnionScope.terms_eq_none hu] at hts
  | enum hu => simp [UnionScope.terms_eq_none hu] at hts
  | declared hts' hids _ =>
    obtain rfl := Option.some.inj (hts.symm.trans hts')
    obtain ⟨m, hmem, _, hk⟩ := hids.exists_member ht
    obtain ⟨id', hle, hid'⟩ := h.exists_mentioned hm hk
    exact ⟨id', Nat.lt_of_le_of_lt hle (h.child_lt hn rfl (Graph.mem_distinct.mpr hmem)), hid'⟩

end Tracks

end Typewright
