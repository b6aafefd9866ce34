import Typewright.Proofs.Description.Acceptance

/-!
# What the graph of a description holds

* `Denotes g names decl t id` : the type `id` of a graph is what `t` writes, where `decl` are the types of the declared
  names;
* `Realizes g d decl` : a graph holds what a description says;
* `readForm_realizes` : the graph that is read of an accepted form realizes what the form spells.
-/

namespace Typewright

open Edn (Form)

/-- A type of a graph is `null`, or a union of two, one of them `null`. -/
def Graph.AllowsNull (g : Graph) (id : TypeId) : Prop :=
  id = Primitive.null.id ∨
    ∃ hint a b, g.node? id = some (.union hint [a, b]) ∧ (a = Primitive.null.id ∨ b = Primitive.null.id)

/-- A type of a graph is the one that is written. The declared names have the types `decl`. -/
inductive Denotes (g : Graph) (names : List Bytes) (decl : Bytes → TypeId) : TypeTerm → TypeId → Prop where
  | primitive (p : Primitive) : Denotes g names decl (.primitive p) p.id
  | declared {name : Bytes} : name ∈ names → Denotes g names decl (.declared name) (decl name)
  | array {t : TypeTerm} {items id : TypeId} :
    Denotes g names decl t items → g.node? id = some (.array items) → Denotes g names decl (.array t) id
  | map {t : TypeTerm} {values id : TypeId} :
    Denotes g names decl t values → g.node? id = some (.map values) → Denotes g names decl (.map t) id
  | same {t : TypeTerm} {id : TypeId} :
    Denotes g names decl t id → g.AllowsNull id → Denotes g names decl (.nullable t) id
  | nullable {t : TypeTerm} {inner id : TypeId} {hint : Bytes} : Denotes g names decl t inner → ¬ g.AllowsNull inner →
    g.node? id = some (.union hint [inner, Primitive.null.id]) → Denotes g names decl (.nullable t) id
  | union {ts : List TypeTerm} {ids : List TypeId} {id : TypeId} {hint : Bytes} :
    List.Forall₂ (Denotes g names decl) ts ids → g.node? id = some (.union hint (distinct ids)) →
    Denotes g names decl (.union ts) id

/-- The type of a declared name is what the declaration says. -/
inductive RealizesDecl (g : Graph) (names : List Bytes) (decl : Bytes → TypeId) : TypeDecl → Prop where
  | record {name : Bytes} {qs : List PropertyTerm} {ps : List Property} :
    g.node? (decl name) = some (.record name ps) →
    List.Forall₂ (fun q p => p.name = q.name ∧ p.optional = q.optional ∧ Denotes g names decl q.type p.type) qs ps →
    RealizesDecl g names decl ⟨name, .record qs⟩
  | enum {name : Bytes} {cs : List Bytes} :
    g.node? (decl name) = some (.enum name cs) → RealizesDecl g names decl ⟨name, .enum cs⟩
  | union {name hint : Bytes} {ts : List TypeTerm} {ids : List TypeId} : List.Forall₂ (Denotes g names decl) ts ids →
    g.node? (decl name) = some (.union hint (distinct ids)) → RealizesDecl g names decl ⟨name, .union ts⟩

/-- A graph holds what a description says. -/
structure Realizes (g : Graph) (d : Description) (decl : Bytes → TypeId) : Prop where
  injOn : Set.InjOn decl {name | name ∈ d.names}
  types : ∀ t ∈ d.types, RealizesDecl g d.names decl t
  tops : List.Forall₂ (fun t top => top.name = t.name ∧ Denotes g d.names decl t.type top.type) d.tops g.tops

/-! ## From keys to types -/

theorem HasKeys.members {unions : Bytes → Option (List TypeTerm)} {ks : List TypeKey} {site : Site} {i : Nat}
    {ts : List TypeTerm} {ids : List TypeId} (h : HasKeys ks ids (TypeTerm.keys unions site i ts)) :
    List.Forall₂ (fun t id => ∃ site', ks[id]? = some (TypeTerm.key unions site' t)) ts ids := by
  induction ts generalizing i ids with
  | nil =>
    cases h
    exact .nil
  | cons t ts ih =>
    rw [TypeTerm.keys] at h
    cases h with
    | cons hk h => exact .cons ⟨_, hk⟩ (ih h)

namespace Tracks

variable {sc : UnionScope} {ks : List TypeKey} {r : Reading}

theorem graph_allowsNull_iff (h : Tracks sc ks r) {id : TypeId} {t : TypeTerm} {site : Site}
    (hid : ks[id]? = some (t.key sc.terms site)) : r.graph.AllowsNull id ↔ AllowsNull sc.terms t := by
  rw [← h.allowsNull_iff hid, Bool.or_eq_true, h.isPrimitive_iff_eq, Graph.AllowsNull]
  refine or_congr Iff.rfl ?_
  obtain ⟨n, hn, -⟩ := h.exists_node hid
  cases n with
  | union hint members =>
    rw [h.isSome_nullableInner?_union hn, hn]
    simp only [Option.some.injEq, Node.union.injEq]
    constructor
    · rintro ⟨_, a, b, ⟨rfl, rfl⟩, hab⟩
      exact ⟨a, b, rfl, hab⟩
    · rintro ⟨a, b, rfl, hab⟩
      exact ⟨hint, a, b, ⟨rfl, rfl⟩, hab⟩
  | _ => simp [Graph.nullableInner?, hn]

/-- A type with the key of a written type is the one that is written. -/
theorem denotes (h : Tracks sc ks r) {decl : Bytes → TypeId}
    (hdecl : ∀ name ∈ sc.names, ks[decl name]? = some (.declared name)) {id : TypeId} {t : TypeTerm} {site : Site}
    (hid : ks[id]? = some (t.key sc.terms site)) : Denotes r.graph sc.names decl t id := by
  induction t using TypeTerm.induct generalizing id site with
  | primitive p =>
    rw [TypeTerm.key] at hid
    rw [h.eq_of_key hid (h.key_primitive p)]
    exact .primitive p
  | declared name =>
    rw [TypeTerm.key] at hid
    have hname := h.names name (List.mem_of_getElem? hid)
    rw [h.eq_of_key hid (hdecl name hname)]
    exact .declared hname
  | array t ih =>
    rw [TypeTerm.key] at hid
    obtain ⟨n, hn, hof⟩ := h.exists_node hid
    cases hof with
    | array hk => exact .array (ih hk) hn
  | map t ih =>
    rw [TypeTerm.key] at hid
    obtain ⟨n, hn, hof⟩ := h.exists_node hid
    cases hof with
    | map hk => exact .map (ih hk) hn
  | nullable t ih =>
    by_cases hnull : AllowsNull sc.terms t
    · rw [TypeTerm.key_nullable_of_allowsNull hnull] at hid
      exact .same (ih hid) ((h.graph_allowsNull_iff hid).mpr hnull)
    · rw [TypeTerm.key_nullable_of_not_allowsNull hnull] at hid
      obtain ⟨n, hn, hof⟩ := h.exists_node hid
      cases hof with
      | nullable hk => exact .nullable (ih hk) (fun hnull' => hnull ((h.graph_allowsNull_iff hk).mp hnull')) hn
  | union ts ih =>
    rw [TypeTerm.key] at hid
    obtain ⟨n, hn, hof⟩ := h.exists_node hid
    cases hof with
    | union hids _ =>
      have hmembers := (List.forall₂_and_left ts _).mpr ⟨ih, hids.members⟩
      refine .union (hmembers.imp ?_) hn
      rintro t id ⟨ih, site, hk⟩
      exact ih hk

end Tracks

/-- A reading that holds what a description says realizes it, with the types that have the keys of the names. -/
theorem Elaborates.realizes {d : Description} {sc : UnionScope} {ks : List TypeKey} {r : Reading}
    (h : Elaborates d sc ks r) {decl : Bytes → TypeId} (hdecl : ∀ name ∈ d.names, ks[decl name]? = some (.declared name)) :
    Realizes r.graph d decl := by
  have hdenotes : ∀ (id : TypeId) (t : TypeTerm) site, ks[id]? = some (t.key d.unions site) →
      Denotes r.graph d.names decl t id := by
    rw [← h.names] at hdecl ⊢
    rw [← h.terms]
    exact fun id t site => h.tracks.denotes hdecl
  -- a declared name has one type
  have hnode : ∀ t ∈ d.types, ∀ n, HasNode ks r.graph t.name n → r.graph.node? (decl t.name) = some n := by
    rintro t ht n ⟨id, hid, hn⟩
    rwa [h.tracks.eq_of_key (hdecl t.name (List.mem_map_of_mem ht)) hid]
  refine ⟨fun a ha b hb hab => ?_, fun t ht => ?_, ?_⟩
  · have hk := hdecl a ha
    rw [hab, hdecl b hb] at hk
    exact (TypeKey.declared.inj (Option.some.inj hk)).symm
  · have hbuilds := h.types t ht
    have hn := hnode t ht
    cases hbuilds with
    | record hhas hprops =>
      exact .record (hn _ hhas) (hprops.listed.imp fun q p ⟨site, hp⟩ =>
        ⟨hp.name, hp.optional, hdenotes p.type q.type site hp.type⟩)
    | enum hhas => exact .enum (hn _ hhas)
    | union hids hhas =>
      exact .union (hids.members.imp fun t id ⟨site, hk⟩ => hdenotes id t site hk) (hn _ hhas)
  · exact h.tops.listed.imp fun t top ⟨hname, site, hk⟩ => ⟨hname, hdenotes top.type t.type site hk⟩

/-- Every declared name has a type. -/
theorem Elaborates.exists_key {d : Description} {sc : UnionScope} {ks : List TypeKey} {r : Reading}
    (h : Elaborates d sc ks r) {name : Bytes} (hname : name ∈ d.names) :
    ∃ id : TypeId, ks[id]? = some (.declared name) := by
  obtain ⟨t, ht, rfl⟩ := List.mem_map.mp hname
  exact List.mem_iff_getElem?.mp (h.types t ht).mem

theorem Elaborates.exists_realizes {d : Description} {sc : UnionScope} {ks : List TypeKey} {r : Reading}
    (h : Elaborates d sc ks r) : ∃ decl, Realizes r.graph d decl := by
  have hkeys : ∀ name, ∃ id : TypeId, name ∈ d.names → ks[id]? = some (.declared name) := by
    intro name
    by_cases hname : name ∈ d.names
    · obtain ⟨id, hid⟩ := h.exists_key hname
      exact ⟨id, fun _ => hid⟩
    · exact ⟨0, fun hmem => absurd hmem hname⟩
  choose decl hdecl using hkeys
  exact ⟨decl, h.realizes hdecl⟩

/-- The graph that is read of an accepted form holds what the form spells. -/
theorem readForm_realizes {source : Bytes} {f : Form} (h : Edn.parse source = .ok f) {suggests : Bool}
    (hs : (readForm suggests Graph.empty f).report.success = true) :
    ∃ d, Spells f d ∧ ∃ decl, Realizes (readForm suggests Graph.empty f).graph d decl := by
  have hp := accepted_iff.mp hs
  obtain ⟨d, hd, -, sc, ks, r, hr, helab⟩ := exists_elaborates_of_readForm (Edn.whole_of_parse h) hp
  rw [← hr]
  exact ⟨d, hd, helab.exists_realizes⟩

/-- A class and a union that contain each other get types that refer to each other. -/
theorem chain_is_realized :
    Edn.parse chainSource = .ok (chainForm [chainUnion, chainClass]) ∧
      (readForm false Graph.empty (chainForm [chainUnion, chainClass])).report.success = true ∧
      ∃ decl, Realizes (readForm false Graph.empty (chainForm [chainUnion, chainClass])).graph chainDescription decl := by
  have hs : (readForm false Graph.empty (chainForm [chainUnion, chainClass])).report.success = true :=
    accepted_iff.mpr (readForm_passes (Edn.whole_of_parse parse_chainSource) false spells_chain valid_chain)
  obtain ⟨d, hd, hdecl⟩ := readForm_realizes parse_chainSource hs
  rw [rightUnique_spells hd spells_chain] at hdecl
  exact ⟨parse_chainSource, hs, hdecl⟩

end Typewright
