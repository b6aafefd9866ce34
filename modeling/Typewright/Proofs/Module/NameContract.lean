import Mathlib
import Typewright.Proofs.Module.Naming

/-!
# What the names of a rendering promise

* `Graph.Introduces` : a top-level is the first one of a declared type; the other top-levels are aliases
  (`Graph.mem_aliasTops_iff`);
* `NameTable.mem_types_iff` : where the name of a type stands among the names that were given;
* `NamesFor` : one name for each candidate of a scope;
* `NameTable.Contract` : who has a name, which names are the same and which differ;
* `Graph.Built.names_contract` : every rendering of a graph that was built leaves such a table, whether it fails or not.
-/

namespace Typewright

/-! ## The first top-level of a type -/

/-- A top-level stands for a declared type, and no top-level before it does. -/
structure Graph.Introduces (g : Graph) (declareUnions : Bool) (i : Nat) (id : TypeId) : Prop where
  top : (g.tops[i]?).map TopLevel.type = some id
  declared : g.isDeclared declareUnions id = true
  first : ∀ j < i, (g.tops[j]?).map TopLevel.type ≠ some id

theorem getElem?_claimsFrom (g : Graph) (b : Bool) (claimed : List TypeId) (tops : List TopLevel) (i : Nat)
    (id : TypeId) :
    (claimsFrom g b claimed tops)[i]? = some (some id) ↔
      ((tops[i]?).map TopLevel.type = some id ∧ g.isDeclared b id = true ∧
        ∀ j < i, (tops[j]?).map TopLevel.type ≠ some id) ∧ id ∉ claimed := by
  induction tops generalizing claimed i with
  | nil => simp [claimsFrom]
  | cons t ts ih =>
    rw [claimsFrom]
    by_cases h : (g.isDeclared b t.type && t.type ∉ claimed) = true
    · rw [if_pos h]
      have ht : g.isDeclared b t.type = true ∧ t.type ∉ claimed := by simpa using h
      cases i with
      | zero =>
        simp only [List.getElem?_cons_zero, Option.map_some, Option.some.injEq, Nat.not_lt_zero, false_imp_iff,
          implies_true, and_true]
        constructor
        · intro hid
          exact ⟨⟨hid, hid ▸ ht.1⟩, hid ▸ ht.2⟩
        · intro hid
          exact hid.1.1
      | succ i =>
        rw [List.getElem?_cons_succ, ih, Nat.forall_lt_succ_left]
        simp only [List.getElem?_cons_succ, List.getElem?_cons_zero, Option.map_some, List.mem_cons, not_or, ne_eq,
          Option.some.injEq, eq_comm (a := id)]
        tauto
    · rw [if_neg h]
      cases i with
      | zero =>
        simp only [List.getElem?_cons_zero, Option.map_some, Option.some.injEq, reduceCtorEq, false_iff]
        intro hid
        rw [hid.1.1] at h
        exact h (by simp [hid.1.2.1, hid.2])
      | succ i =>
        rw [List.getElem?_cons_succ, ih, Nat.forall_lt_succ_left]
        simp only [List.getElem?_cons_succ, List.getElem?_cons_zero, Option.map_some, ne_eq, Option.some.injEq]
        constructor
        · intro hid
          refine ⟨⟨hid.1.1, hid.1.2.1, ?_, hid.1.2.2⟩, hid.2⟩
          intro heq
          rw [heq] at h
          exact h (by simp [hid.1.2.1, hid.2])
        · intro hid
          exact ⟨⟨hid.1.1, hid.1.2.1, hid.1.2.2.2⟩, hid.2⟩

namespace Graph

variable {g : Graph} {b : Bool}

theorem getElem?_claims {i : Nat} {id : TypeId} : (g.claims b)[i]? = some (some id) ↔ g.Introduces b i id := by
  rw [claims, getElem?_claimsFrom]
  constructor
  · intro h
    exact ⟨h.1.1, h.1.2.1, h.1.2.2⟩
  · intro h
    exact ⟨⟨h.top, h.declared, h.first⟩, List.not_mem_nil⟩

theorem Introduces.lt_length {i : Nat} {id : TypeId} (h : g.Introduces b i id) : i < g.tops.length := by
  obtain ⟨t, ht, -⟩ := Option.map_eq_some_iff.mp h.top
  exact (List.getElem?_eq_some_iff.mp ht).1

/-- A type is introduced once. -/
theorem Introduces.eq {i j : Nat} {id : TypeId} (h : g.Introduces b i id) (h' : g.Introduces b j id) : i = j := by
  have hij : ¬ i < j := fun hlt => h'.first i hlt h.top
  have hji : ¬ j < i := fun hlt => h.first j hlt h'.top
  omega

theorem Introduces.mem_declared (hg : g.WellFormed) {i : Nat} {id : TypeId} (h : g.Introduces b i id) :
    id ∈ g.declared b := by
  obtain ⟨t, ht, rfl⟩ := Option.map_eq_some_iff.mp h.top
  exact hg.mem_declared_iff.mpr ⟨⟨t, List.mem_of_getElem? ht, .refl⟩, h.declared⟩

/-- **The aliases are the top-levels that introduce no type.** -/
theorem mem_aliasTops_iff {t : TopLevel} {i : Nat} :
    (t, i) ∈ g.aliasTops b ↔ g.tops[i]? = some t ∧ ¬ g.Introduces b i t.type := by
  have hclaims : ∀ {t}, g.tops[i]? = some t → ((g.claims b)[i]? = some none ↔ ¬ g.Introduces b i t.type) := by
    intro t ht
    have hlt : i < (g.claims b).length := by
      rw [length_claims]
      exact (List.getElem?_eq_some_iff.mp ht).1
    rw [List.getElem?_eq_getElem hlt]
    cases hclaim : (g.claims b)[i] with
    | none =>
      refine ⟨fun _ h => ?_, fun _ => rfl⟩
      have hget := getElem?_claims.mpr h
      rw [List.getElem?_eq_getElem hlt, hclaim] at hget
      simp at hget
    | some id =>
      have hintro : g.Introduces b i id := by
        rw [← getElem?_claims, List.getElem?_eq_getElem hlt, hclaim]
      have hid : t.type = id := by simpa [ht] using hintro.top
      simp [hid, hintro]
  unfold aliasTops
  constructor
  · intro h
    obtain ⟨⟨x, claim⟩, hx, rfl⟩ := List.mem_map.mp h
    obtain ⟨hx, hnone⟩ := List.mem_filter.mp hx
    obtain ⟨k, hk⟩ := List.mem_iff_getElem?.mp hx
    rw [List.getElem?_zip_eq_some] at hk
    have htop : g.tops[k]? = some t ∧ k = i := by simpa [List.getElem?_zipIdx] using hk.1
    obtain ⟨htop, rfl⟩ := htop
    refine ⟨htop, (hclaims htop).mp ?_⟩
    rw [hk.2, Option.isNone_iff_eq_none.mp hnone]
  · intro h
    obtain ⟨htop, hnot⟩ := h
    refine List.mem_map.mpr ⟨((t, i), none), List.mem_filter.mpr ⟨?_, rfl⟩, rfl⟩
    apply List.mem_of_getElem? (i := i)
    rw [List.getElem?_zip_eq_some]
    exact ⟨by simp [List.getElem?_zipIdx, htop], (hclaims htop).mpr hnot⟩

end Graph

/-! ## The names of types -/

section Tables

variable {α β : Type}

theorem mem_filterMap_zip_iff {cs : List (Option α)} {names : List β} {a : α} {n : β} :
    (a, n) ∈ ((cs.zip names).filterMap fun (c, n) => c.map (·, n)) ↔
      ∃ i : Nat, cs[i]? = some (some a) ∧ names[i]? = some n := by
  rw [List.mem_filterMap]
  constructor
  · intro h
    obtain ⟨⟨c, m⟩, hmem, hc⟩ := h
    obtain ⟨i, hi⟩ := List.mem_iff_getElem?.mp hmem
    obtain ⟨x, rfl, hx⟩ := Option.map_eq_some_iff.mp hc
    obtain ⟨rfl, rfl⟩ := Prod.mk.inj hx
    exact ⟨i, List.getElem?_zip_eq_some.mp hi⟩
  · intro h
    obtain ⟨i, hi⟩ := h
    exact ⟨(some a, n), List.mem_of_getElem? (List.getElem?_zip_eq_some.mpr hi), rfl⟩

theorem map_fst_filterMap_zip {cs : List (Option α)} {names : List β} (hlen : cs.length ≤ names.length) :
    ((cs.zip names).filterMap fun (c, n) => c.map (·, n)).map Prod.fst = cs.filterMap id := by
  induction cs generalizing names with
  | nil => rfl
  | cons c cs ih =>
    cases names with
    | nil => simp at hlen
    | cons n names =>
      have hrest := ih (show cs.length ≤ names.length by simpa using hlen)
      cases c with
      | none => exact hrest
      | some a => exact congrArg (a :: ·) hrest

end Tables

namespace NameTable

variable {u : CharacterData} {o : Options} {g : Graph}

/-- The name of a type stands where a top-level introduces it, or behind all top-levels. -/
theorem mem_types_iff {id : TypeId} {n : Bytes} :
    (id, n) ∈ (ofGraph u o g).types ↔
      (∃ i, g.Introduces o.declareUnions i id ∧ (globalNames u o g)[i]? = some n) ∨
        ∃ j, (g.unclaimed o.declareUnions)[j]? = some id ∧ (globalNames u o g)[g.tops.length + j]? = some n := by
  change (id, n) ∈ _ ++ _ ↔ _
  rw [List.mem_append, mem_filterMap_zip_iff, List.mem_iff_getElem?]
  simp only [List.getElem?_zip_eq_some, Graph.getElem?_claims, List.getElem?_drop]
  refine or_congr (exists_congr fun i => and_congr_right fun hi => ?_) Iff.rfl
  rw [List.getElem?_take_of_lt hi.lt_length]
  rfl

theorem nodup_claims : ((g.claims o.declareUnions).filterMap id).Nodup := by
  unfold List.Nodup
  rw [List.pairwise_filterMap, List.pairwise_iff_getElem]
  intro i j hi hj hij a ha b hb heq
  have hi' : g.Introduces o.declareUnions i a := Graph.getElem?_claims.mp (ha ▸ List.getElem?_eq_getElem hi)
  have hj' : g.Introduces o.declareUnions j a := Graph.getElem?_claims.mp (heq ▸ hb ▸ List.getElem?_eq_getElem hj)
  have hsame := hi'.eq hj'
  omega

/-- **The types with names are those to declare**, each of them once. -/
theorem perm_types (hg : g.WellFormed) :
    ((ofGraph u o g).types.map Prod.fst).Perm (g.declared o.declareUnions) := by
  have hlen := length_globalNames u o g
  have hkeys : (ofGraph u o g).types.map Prod.fst =
      (g.claims o.declareUnions).filterMap id ++ g.unclaimed o.declareUnions := by
    change (_ ++ _ : List (TypeId × Bytes)).map Prod.fst = _
    rw [List.map_append, map_fst_filterMap_zip, List.map_fst_zip]
    · change _ ≤ ((globalNames u o g).drop g.tops.length).length
      rw [List.length_drop]
      omega
    · change _ ≤ ((globalNames u o g).take g.tops.length).length
      rw [Graph.length_claims, List.length_take]
      omega
  have hnodup : ((g.claims o.declareUnions).filterMap id ++ g.unclaimed o.declareUnions).Nodup := by
    refine List.nodup_append.mpr ⟨nodup_claims, Graph.nodup_declared.filter _, ?_⟩
    intro a ha b hb hab
    have hnot := (List.mem_filter.mp hb).2
    obtain ⟨c, hc, hca⟩ := List.mem_filterMap.mp ha
    rw [← hab, show some a = c from hca.symm] at hnot
    simp [hc] at hnot
  rw [hkeys, List.perm_ext_iff_of_nodup hnodup Graph.nodup_declared]
  intro x
  rw [List.mem_append, Graph.unclaimed, List.mem_filter]
  constructor
  · intro hx
    rcases hx with hx | hx
    · obtain ⟨c, hc, rfl⟩ := List.mem_filterMap.mp hx
      obtain ⟨i, hi⟩ := List.mem_iff_getElem?.mp hc
      exact (Graph.getElem?_claims.mp hi).mem_declared hg
    · exact hx.1
  · intro hx
    by_cases hclaim : some x ∈ g.claims o.declareUnions
    · exact .inl (List.mem_filterMap.mpr ⟨some x, hclaim, rfl⟩)
    · exact .inr ⟨hx, decide_eq_true hclaim⟩

theorem nodup_types (hg : g.WellFormed) : ((ofGraph u o g).types.map Prod.fst).Nodup :=
  (perm_types hg).nodup_iff.mpr Graph.nodup_declared

/-- No entry hides another one. -/
theorem type_iff_mem_types (hg : g.WellFormed) {id : TypeId} {n : Bytes} :
    (ofGraph u o g).type id = .ok n ↔ (id, n) ∈ (ofGraph u o g).types := by
  refine ⟨mem_types_of_type, fun h => ?_⟩
  have hid : id ∈ g.declared o.declareUnions := (perm_types hg).mem_iff.mp (List.mem_map_of_mem h)
  obtain ⟨m, hm⟩ := exists_type hid
  have hpair := List.inj_on_of_nodup_map (nodup_types hg) (mem_types_of_type hm) h rfl
  rw [hm, (Prod.mk.inj hpair).2]

/-! ## The names of top-levels -/

theorem topLevel_eq_ok_iff {i : Nat} {n : Bytes} :
    (ofGraph u o g).topLevel i = .ok n ↔ i < g.tops.length ∧ (globalNames u o g)[i]? = some n := by
  change (((globalNames u o g).take g.tops.length)[i]?).elim _ _ = _ ↔ _
  rw [List.getElem?_take]
  by_cases hi : i < g.tops.length
  · rw [if_pos hi]
    cases (globalNames u o g)[i]? with
    | none => simp
    | some m => simp [hi]
  · rw [if_neg hi]
    simp [hi]

theorem eq_of_getElem?_globalNames {i j : Nat} {n : Bytes} (hi : (globalNames u o g)[i]? = some n)
    (hj : (globalNames u o g)[j]? = some n) : i = j := by
  have hlt : i < (globalNames u o g).length := (List.getElem?_eq_some_iff.mp hi).1
  exact (List.getElem?_inj hlt (assignNames_nodup _ _)).mp (hi.trans hj.symm)

/-- The top-level that introduces a type has the same name. -/
theorem topLevel_eq_type (hg : g.WellFormed) {i : Nat} {id : TypeId} (h : g.Introduces o.declareUnions i id) :
    (ofGraph u o g).topLevel i = (ofGraph u o g).type id := by
  obtain ⟨n, hn⟩ := exists_topLevel (u := u) (o := o) h.lt_length
  rw [hn, eq_comm, type_iff_mem_types hg, mem_types_iff]
  exact .inl ⟨i, h, (topLevel_eq_ok_iff.mp hn).2⟩

theorem topLevel_ne_type {t : TopLevel} {i : Nat} {id : TypeId} {n : Bytes}
    (h : (t, i) ∈ g.aliasTops o.declareUnions) (hi : (ofGraph u o g).topLevel i = .ok n) :
    (ofGraph u o g).type id ≠ .ok n := by
  intro hid
  obtain ⟨hlt, hi⟩ := topLevel_eq_ok_iff.mp hi
  obtain ⟨htop, hnot⟩ := Graph.mem_aliasTops_iff.mp h
  rcases mem_types_iff.mp (mem_types_of_type hid) with ⟨j, hj, hget⟩ | ⟨j, -, hget⟩
  · obtain rfl := eq_of_getElem?_globalNames hi hget
    have hid : t.type = id := by simpa [htop] using hj.top
    exact hnot (hid ▸ hj)
  · have hij := eq_of_getElem?_globalNames hi hget
    omega

end NameTable

/-! ## Names in a scope -/

/-- One name for each candidate of a scope: it starts with the candidate, all differ, and none is reserved. -/
structure NamesFor (scope : Scope) (candidates names : List Bytes) : Prop where
  suffixed : List.Forall₂ Suffixed candidates names
  nodup : names.Nodup
  free : ∀ n ∈ names, n ∉ Identifier.reserved scope

theorem namesFor_assignNames (scope : Scope) (candidates : List Bytes) :
    NamesFor scope candidates (assignNames candidates (Identifier.reserved scope)) where
  suffixed := assignNames_suffixed _ _
  nodup := assignNames_nodup _ _
  free := assignNames_not_mem _ _

/-! ## The contract -/

/-- Who has a name in a rendering of a graph, which names are the same and which differ. -/
structure NameTable.Contract (names : NameTable) (u : CharacterData) (o : Options) (g : Graph) : Prop where
  /-- The types to declare have names and no other type has; -/
  types : (names.types.map Prod.fst).Perm (g.declared o.declareUnions)
  /-- each has one name, -/
  types_nodup : (names.types.map Prod.fst).Nodup
  /-- which a look-up finds; -/
  type_iff : ∀ id n, names.type id = .ok n ↔ (id, n) ∈ names.types
  /-- different types have different names. -/
  type_injective : ∀ id id' n, names.type id = .ok n → names.type id' = .ok n → id = id'
  topLevel : ∀ i, (∃ n, names.topLevel i = .ok n) ↔ i < g.tops.length
  /-- A top-level is an alias unless it is the first one of a declared type; -/
  alias_iff : ∀ t i, (t, i) ∈ g.aliasTops o.declareUnions ↔
    g.tops[i]? = some t ∧ ¬ g.Introduces o.declareUnions i t.type
  /-- then it has the name of the type. -/
  introduced : ∀ i id, g.Introduces o.declareUnions i id → names.topLevel i = names.type id
  /-- Aliases differ from each other -/
  alias_injective : ∀ t i t' i' n, (t, i) ∈ g.aliasTops o.declareUnions → (t', i') ∈ g.aliasTops o.declareUnions →
    names.topLevel i = .ok n → names.topLevel i' = .ok n → i = i'
  /-- and from the types. -/
  alias_ne_type : ∀ t i id n, (t, i) ∈ g.aliasTops o.declareUnions → names.topLevel i = .ok n →
    names.type id ≠ .ok n
  /-- No name of a type or a top-level is reserved. -/
  type_free : ∀ id n, names.type id = .ok n → n ∉ Identifier.reserved .global
  topLevel_free : ∀ i n, names.topLevel i = .ok n → n ∉ Identifier.reserved .global
  properties : ∀ id hint ps, id ∈ g.declared o.declareUnions → g.node? id = some (.record hint ps) →
    ∃ ns, names.propertiesOf id = .ok ns ∧
      NamesFor .properties (ps.map fun p => Identifier.propertyName u o p.name) ns
  cases : ∀ id hint cs, id ∈ g.declared o.declareUnions → g.node? id = some (.enum hint cs) →
    ∃ ns, names.casesOf id = .ok ns ∧ NamesFor .cases (cs.map (Identifier.caseName u o)) ns

theorem NameTable.contract_ofGraph {g : Graph} (hg : g.WellFormed) (u : CharacterData) (o : Options) :
    (ofGraph u o g).Contract u o g where
  types := perm_types hg
  types_nodup := nodup_types hg
  type_iff id n := type_iff_mem_types hg
  type_injective id id' n h h' := NameTable.type_injective h h'
  topLevel i := by
    constructor
    · intro h
      obtain ⟨n, hn⟩ := h
      exact (topLevel_eq_ok_iff.mp hn).1
    · exact exists_topLevel
  alias_iff t i := Graph.mem_aliasTops_iff
  introduced i id h := topLevel_eq_type hg h
  alias_injective t i t' i' n _ _ hi hi' :=
    eq_of_getElem?_globalNames (topLevel_eq_ok_iff.mp hi).2 (topLevel_eq_ok_iff.mp hi').2
  alias_ne_type t i id n h hi := topLevel_ne_type h hi
  type_free id n h := not_reserved_of_type h
  topLevel_free i n h := assignNames_not_mem _ _ n (List.mem_of_getElem? (topLevel_eq_ok_iff.mp h).2)
  properties id hint ps hid hn := ⟨_, propertiesOf_record hid hn, namesFor_assignNames _ _⟩
  cases id hint cs hid hn := ⟨_, casesOf_enum hid hn, namesFor_assignNames _ _⟩

/-! ## Renderings -/

/-- A rendering that stops has given these names. -/
def Stopped.Named (names : NameTable) (s : Stopped) : Prop := s.context.names = names

section Naming

variable {names : NameTable} {c : ExprContext} {g : Graph}

theorem tryIn_named {α : Type} (hc : c.names = names) (x : Except RenderError α) :
    Ends (c.tryIn x) (Stopped.Named names) (fun _ => True) := by
  cases x with
  | error e => exact hc
  | ok a => trivial

theorem mapM_tryIn_named {α β : Type} (k : α → ExprContext) (hk : ∀ a, (k a).names = names)
    (x : α → Except RenderError β) (l : List α) :
    Ends (l.mapM fun a => (k a).tryIn (x a)) (Stopped.Named names) (fun _ => True) :=
  (Ends.mapM (Q := fun _ _ => True) fun a _ => tryIn_named (hk a) (x a)).mono (fun _ h => h) fun _ _ => trivial

theorem block?_named (hc : c.names = names) (id : TypeId) :
    Ends (block? c g id) (Stopped.Named names) (fun _ => True) := by
  unfold block?
  split
  · refine Ends.map ((tryIn_named hc _).bind fun name _ _ => (tryIn_named hc _).bind fun _ _ _ => ?_)
    apply Ends.bind (mapM_tryIn_named (fun p : Property => c.atPlace (.property p.name name)) (fun _ => hc) _ _)
    intro _ _ _
    trivial
  · exact Ends.map ((tryIn_named hc _).bind fun _ _ _ => (tryIn_named hc _).bind fun _ _ _ => trivial)
  · trivial

theorem unionBlock_named (hc : c.names = names) (id : TypeId) :
    Ends (unionBlock c g id) (Stopped.Named names) (fun _ => True) := by
  refine (tryIn_named hc _).bind fun name _ _ => ?_
  apply Ends.bind (mapM_tryIn_named (fun _ => c.atPlace (.union name)) (fun _ => hc) _ _)
  intro _ _ _
  trivial

theorem unionBlocks_named (hc : c.names = names) (ids : List TypeId) :
    Ends (unionBlocks g c ids) (Stopped.Named names) (fun r => r.2.names = names) := by
  induction ids generalizing c with
  | nil => exact hc
  | cons id ids ih =>
    refine (unionBlock_named hc id).bind fun u _ _ => ?_
    exact (ih (c := { c with bound := id :: c.bound }) hc).bind fun r _ hr => hr

theorem aliasFor_named (hc : c.names = names) (t : TopLevel) (i : Nat) :
    Ends (aliasFor c g t i) (Stopped.Named names) (fun _ => True) := by
  have hc' : (c.atPlace (.topLevel t.name)).names = names := hc
  exact (tryIn_named hc' _).bind fun _ _ _ => (tryIn_named hc' _).bind fun _ _ _ => trivial

theorem module_named (u : CharacterData) (g : Graph) (o : Options) :
    Ends (g.module u o) (Stopped.Named (.ofGraph u o g)) (fun r => r.2.names = .ofGraph u o g) := by
  unfold Graph.module
  refine (Ends.mapM fun id _ => block?_named rfl id).bind fun blocks _ _ => ?_
  refine (unionBlocks_named rfl _).bind fun r _ hr => ?_
  refine (Ends.mapM fun top _ => aliasFor_named hr top.1 top.2).bind fun aliases _ _ => ?_
  exact hr

end Naming

/-- A rendering leaves the names of its graph behind, wherever it stops. -/
theorem Renderer.names_render (u : CharacterData) (r : Renderer) (g : Graph) :
    (r.render u g).2.context.names = .ofGraph u r.options g := by
  have hmodule := module_named u g r.options
  unfold render
  cases hm : g.module u r.options with
  | error s => exact hmodule.of_error hm
  | ok m => exact hmodule.of_ok hm

namespace Graph

/-- **After every rendering the names keep the contract.** -/
theorem Built.names_contract {g : Graph} (hg : g.Built) (u : CharacterData) (r : Renderer) :
    (r.render u g).2.context.names.Contract u r.options g := by
  rw [Renderer.names_render u r g]
  exact NameTable.contract_ofGraph hg.wellFormed u r.options

/-- A class with two properties of one style, an enum with reserved cases, and top-levels that share a type or a label. -/
def sharedCalls : List Call := [
  .record (Bytes.ascii "item") [⟨Bytes.ascii "first name", 6, false⟩, ⟨Bytes.ascii "first_name", 6, false⟩],
  .array 10,
  .enum (Bytes.ascii "item") [Bytes.ascii "None", Bytes.ascii "none"],
  .topLevel (Bytes.ascii "item") 11,
  .topLevel (Bytes.ascii "item") 10,
  .topLevel (Bytes.ascii "main") 10,
  .topLevel (Bytes.ascii "Item1") 12]

def shared : Graph := sharedCalls.foldl after empty

theorem shared_names_contract :
    shared.Built ∧ ((Renderer.new .default).render .ascii shared).2.context.names.Contract .ascii .default shared :=
  ⟨⟨sharedCalls, rfl⟩, Built.names_contract ⟨sharedCalls, rfl⟩ .ascii (Renderer.new .default)⟩

end Graph

end Typewright
