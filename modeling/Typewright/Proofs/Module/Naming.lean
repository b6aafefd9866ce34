import Typewright.Module.Render
import Typewright.Proofs.Graph.Order
import Typewright.Proofs.Name.Spelling

/-!
# The names of a rendering

* `NameTable.globalNames` : the names of top-levels and declarations, in the order in which they are given;
* `NameTable.exists_type`, `NameTable.type_injective`, `NameTable.isName_of_type`, `NameTable.not_reserved_of_type` :
  every declared type has a name, different types have different ones, and all are names that are not reserved;
* `NameTable.propertiesOf_record`, `NameTable.casesOf_enum`, `NameTable.exists_topLevel` : so have properties, cases and
  top-levels;
* `Graph.isDeclared_or_aliasTop` : a top-level that is not an alias stands for a declared type.
-/

namespace Typewright

/-! ## Tables -/

section Tables

variable {α β : Type}

theorem map_snd_filterMap_zip_sublist (cs : List (Option α)) (names : List β) :
    (((cs.zip names).filterMap fun (c, n) => c.map (·, n)).map Prod.snd).Sublist names := by
  induction cs generalizing names with
  | nil => exact List.nil_sublist names
  | cons c cs ih =>
    cases names with
    | nil => exact List.Sublist.refl []
    | cons n names =>
      cases c with
      | none => exact (ih names).cons n
      | some a => exact (ih names).cons_cons n

theorem exists_mem_filterMap_zip {cs : List (Option α)} {names : List β} (hlen : cs.length ≤ names.length) {a : α}
    (ha : some a ∈ cs) : ∃ n, (a, n) ∈ (cs.zip names).filterMap fun (c, n) => c.map (·, n) := by
  obtain ⟨i, hi, hget⟩ := List.getElem_of_mem ha
  have hzip : i < (cs.zip names).length := by
    rw [List.length_zip]
    omega
  refine ⟨names[i], List.mem_filterMap.mpr ⟨(some a, names[i]), ?_, rfl⟩⟩
  rw [← hget, ← List.getElem_zip (h := hzip)]
  exact List.getElem_mem hzip

theorem exists_mem_zip {l : List α} {names : List β} (hlen : l.length ≤ names.length) {a : α} (ha : a ∈ l) :
    ∃ n, (a, n) ∈ l.zip names := by
  obtain ⟨i, hi, rfl⟩ := List.getElem_of_mem ha
  have hzip : i < (l.zip names).length := by
    rw [List.length_zip]
    omega
  refine ⟨names[i], ?_⟩
  rw [← List.getElem_zip (h := hzip)]
  exact List.getElem_mem hzip

theorem lookup_filterMap [BEq α] [LawfulBEq α] {F : α → Option (α × β)} (hF : ∀ x p, F x = some p → p.1 = x)
    {l : List α} {a : α} {v : β} (ha : a ∈ l) (hv : F a = some (a, v)) : (l.filterMap F).lookup a = some v := by
  induction l with
  | nil => cases ha
  | cons x l ih =>
    by_cases hx : x = a
    · rw [hx, List.filterMap_cons_some hv, List.lookup_cons_self]
    · have ha : a ∈ l := (List.mem_cons.mp ha).resolve_left fun h => hx h.symm
      cases hFx : F x with
      | none =>
        rw [List.filterMap_cons_none hFx]
        exact ih ha
      | some p =>
        have hne : (a == p.1) = false := by
          rw [hF x p hFx]
          exact beq_false_of_ne (Ne.symm hx)
        rw [List.filterMap_cons_some hFx, List.lookup_cons, hne]
        exact ih ha

end Tables

/-! ## Top-levels -/

theorem length_claimsFrom (g : Graph) (b : Bool) (claimed : List TypeId) (tops : List TopLevel) :
    (claimsFrom g b claimed tops).length = tops.length := by
  induction tops generalizing claimed with
  | nil => rfl
  | cons t ts ih =>
    rw [claimsFrom]
    split
    · rw [List.length_cons, ih, List.length_cons]
    · rw [List.length_cons, ih, List.length_cons]

/-- A top-level that names a type names its own, which is declared. -/
theorem claimsFrom_spec (g : Graph) (b : Bool) (claimed : List TypeId) (tops : List TopLevel) :
    List.Forall₂ (fun t claim => ∀ id, claim = some id → id = t.type ∧ g.isDeclared b t.type = true) tops
      (claimsFrom g b claimed tops) := by
  induction tops generalizing claimed with
  | nil => exact .nil
  | cons t ts ih =>
    rw [claimsFrom]
    split
    · next h =>
      refine .cons (fun id hid => ?_) (ih _)
      cases hid
      exact ⟨rfl, (Bool.and_eq_true_iff.mp h).1⟩
    · exact .cons (fun id hid => by cases hid) (ih _)

namespace Graph

variable {g : Graph} {b : Bool}

theorem length_claims : (g.claims b).length = g.tops.length := length_claimsFrom g b [] g.tops

theorem getElem?_of_mem_aliasTops {t : TopLevel} {i : Nat} (h : (t, i) ∈ g.aliasTops b) : g.tops[i]? = some t := by
  obtain ⟨⟨x, claim⟩, hx, rfl⟩ := List.mem_map.mp h
  exact List.mk_mem_zipIdx_iff_getElem?.mp (List.of_mem_zip (List.mem_filter.mp hx).1).1

/-- A top-level stands for a declared type, or becomes an alias. -/
theorem isDeclared_or_aliasTop {t : TopLevel} (ht : t ∈ g.tops) :
    g.isDeclared b t.type = true ∨ ∃ i, (t, i) ∈ g.aliasTops b := by
  obtain ⟨i, hi, rfl⟩ := List.getElem_of_mem ht
  have hlen : i < (g.claims b).length := by rwa [length_claims]
  cases hclaim : (g.claims b)[i] with
  | some id =>
    have hspec := (List.forall₂_iff_get.mp (claimsFrom_spec g b [] g.tops)).2 i hi hlen
    exact Or.inl (hspec id hclaim).2
  | none =>
    refine Or.inr ⟨i, List.mem_map.mpr ⟨((g.tops[i], i), none), List.mem_filter.mpr ⟨?_, rfl⟩, rfl⟩⟩
    have hzip : (g.tops.zipIdx.zip (g.claims b))[i]? = some ((g.tops[i], i), none) := by
      rw [List.getElem?_zip_eq_some, List.getElem?_zipIdx, List.getElem?_eq_getElem hi, List.getElem?_eq_getElem hlen,
        hclaim]
      simp
    exact List.mem_of_getElem? hzip

end Graph

namespace NameTable

variable (u : CharacterData) (o : Options) (g : Graph)

/-! ## Types -/

/-- The names of the top-levels and of the declarations that no top-level names. -/
def globalNames : List Bytes :=
  assignNames (g.tops.map (fun t => Identifier.typeName u o t.name)
    ++ (g.unclaimed o.declareUnions).map fun id => Identifier.typeName u o (g.hint id)) (Identifier.reserved .global)

theorem length_globalNames : (globalNames u o g).length = g.tops.length + (g.unclaimed o.declareUnions).length := by
  rw [globalNames, length_assignNames, List.length_append, List.length_map, List.length_map]

theorem isName_of_mem_globalNames (hu : u.Standard) : ∀ n ∈ globalNames u o g, IsName n := by
  refine isName_of_mem_assignNames fun c hc => ?_
  rcases List.mem_append.mp hc with hc | hc
  · obtain ⟨t, -, rfl⟩ := List.mem_map.mp hc
    exact isName_typeName hu t.name
  · obtain ⟨id, -, rfl⟩ := List.mem_map.mp hc
    exact isName_typeName hu (g.hint id)

theorem types_sublist : ((ofGraph u o g).types.map Prod.snd).Sublist (globalNames u o g) := by
  have hlen := length_globalNames u o g
  have hsplit : ((ofGraph u o g).types.map Prod.snd).Sublist
      ((globalNames u o g).take g.tops.length ++ (globalNames u o g).drop g.tops.length) := by
    change (List.map Prod.snd (_ ++ _)).Sublist _
    rw [List.map_append]
    refine (map_snd_filterMap_zip_sublist _ _).append ?_
    rw [List.map_snd_zip]
    · exact List.Sublist.refl _
    · change ((globalNames u o g).drop g.tops.length).length ≤ _
      rw [List.length_drop]
      omega
  rwa [List.take_append_drop] at hsplit

theorem exists_mem_types {id : TypeId} (hid : id ∈ g.declared o.declareUnions) :
    ∃ n, (id, n) ∈ (ofGraph u o g).types := by
  have hlen := length_globalNames u o g
  by_cases hclaim : some id ∈ g.claims o.declareUnions
  · have htops : (g.claims o.declareUnions).length ≤ ((globalNames u o g).take g.tops.length).length := by
      rw [Graph.length_claims, List.length_take]
      omega
    obtain ⟨n, hn⟩ := exists_mem_filterMap_zip htops hclaim
    exact ⟨n, List.mem_append_left _ hn⟩
  · have hrest : (g.unclaimed o.declareUnions).length ≤ ((globalNames u o g).drop g.tops.length).length := by
      rw [List.length_drop]
      omega
    obtain ⟨n, hn⟩ := exists_mem_zip hrest (List.mem_filter.mpr ⟨hid, decide_eq_true hclaim⟩)
    exact ⟨n, List.mem_append_right _ hn⟩

variable {u o g}

theorem type_eq_ok_iff {t : NameTable} {id : TypeId} {n : Bytes} : t.type id = .ok n ↔ t.types.lookup id = some n := by
  unfold type
  cases t.types.lookup id with
  | none => exact ⟨nofun, nofun⟩
  | some m => exact ⟨fun h => congrArg some (Except.ok.inj h), fun h => congrArg Except.ok (Option.some.inj h)⟩

theorem mem_types_of_type {t : NameTable} {id : TypeId} {n : Bytes} (h : t.type id = .ok n) : (id, n) ∈ t.types := by
  obtain ⟨l₁, l₂, hsplit, -⟩ := List.lookup_eq_some_iff.mp (type_eq_ok_iff.mp h)
  rw [hsplit]
  exact List.mem_append_right _ List.mem_cons_self

/-- Every declared type has a name. -/
theorem exists_type {id : TypeId} (hid : id ∈ g.declared o.declareUnions) : ∃ n, (ofGraph u o g).type id = .ok n := by
  obtain ⟨n, hn⟩ := exists_mem_types u o g hid
  have hsome : ((ofGraph u o g).types.lookup id).isSome := List.lookup_isSome_iff.mpr ⟨(id, n), hn, beq_self_eq_true id⟩
  obtain ⟨m, hm⟩ := Option.isSome_iff_exists.mp hsome
  exact ⟨m, type_eq_ok_iff.mpr hm⟩

theorem mem_globalNames_of_type {id : TypeId} {n : Bytes} (h : (ofGraph u o g).type id = .ok n) :
    n ∈ globalNames u o g :=
  (types_sublist u o g).subset (List.mem_map_of_mem (mem_types_of_type h))

theorem isName_of_type (hu : u.Standard) {id : TypeId} {n : Bytes} (h : (ofGraph u o g).type id = .ok n) : IsName n :=
  isName_of_mem_globalNames u o g hu n (mem_globalNames_of_type h)

theorem not_reserved_of_type {id : TypeId} {n : Bytes} (h : (ofGraph u o g).type id = .ok n) :
    n ∉ Identifier.reserved .global :=
  assignNames_not_mem _ _ n (mem_globalNames_of_type h)

/-- Different types have different names. -/
theorem type_injective {id id' : TypeId} {n : Bytes} (h : (ofGraph u o g).type id = .ok n)
    (h' : (ofGraph u o g).type id' = .ok n) : id = id' := by
  have hnodup : ((ofGraph u o g).types.map Prod.snd).Nodup := (assignNames_nodup _ _).sublist (types_sublist u o g)
  have hpair := List.inj_on_of_nodup_map hnodup (mem_types_of_type h) (mem_types_of_type h') rfl
  exact congrArg Prod.fst hpair

theorem exists_topLevel {i : Nat} (hi : i < g.tops.length) : ∃ n, (ofGraph u o g).topLevel i = .ok n := by
  have hlen : i < ((globalNames u o g).take g.tops.length).length := by
    rw [List.length_take, length_globalNames]
    omega
  refine ⟨((globalNames u o g).take g.tops.length)[i], ?_⟩
  change (((globalNames u o g).take g.tops.length)[i]?).elim _ _ = _
  rw [List.getElem?_eq_getElem hlen]
  rfl

theorem isName_of_topLevel (hu : u.Standard) {i : Nat} {n : Bytes} (h : (ofGraph u o g).topLevel i = .ok n) :
    IsName n := by
  change (((globalNames u o g).take g.tops.length)[i]?).elim _ _ = _ at h
  cases hget : ((globalNames u o g).take g.tops.length)[i]? with
  | none =>
    rw [hget] at h
    cases h
  | some m =>
    rw [hget] at h
    obtain rfl := Except.ok.inj h
    exact isName_of_mem_globalNames u o g hu m (List.mem_of_mem_take (List.mem_of_getElem? hget))

/-! ## Properties and cases -/

theorem propertiesOf_record {id : TypeId} {hint : Bytes} {ps : List Property} (hid : id ∈ g.declared o.declareUnions)
    (hn : g.node? id = some (.record hint ps)) : (ofGraph u o g).propertiesOf id = .ok (propertyNames u o ps) := by
  have hlookup : (ofGraph u o g).properties.lookup id = some (propertyNames u o ps) := by
    refine lookup_filterMap (fun x p hp => ?_) hid (by rw [hn])
    split at hp
    · cases hp
      rfl
    · cases hp
  rw [propertiesOf, hlookup]
  rfl

theorem casesOf_enum {id : TypeId} {hint : Bytes} {cs : List Bytes} (hid : id ∈ g.declared o.declareUnions)
    (hn : g.node? id = some (.enum hint cs)) : (ofGraph u o g).casesOf id = .ok (caseNames u o cs) := by
  have hlookup : (ofGraph u o g).cases.lookup id = some (caseNames u o cs) := by
    refine lookup_filterMap (fun x p hp => ?_) hid (by rw [hn])
    split at hp
    · cases hp
      rfl
    · cases hp
  rw [casesOf, hlookup]
  rfl

end NameTable

theorem length_propertyNames (u : CharacterData) (o : Options) (ps : List Property) :
    (propertyNames u o ps).length = ps.length := by
  rw [propertyNames, length_assignNames, List.length_map]

theorem length_caseNames (u : CharacterData) (o : Options) (cs : List Bytes) : (caseNames u o cs).length = cs.length := by
  rw [caseNames, length_assignNames, List.length_map]

theorem isName_of_mem_propertyNames {u : CharacterData} (hu : u.Standard) (o : Options) (ps : List Property) :
    ∀ n ∈ propertyNames u o ps, IsName n := by
  refine isName_of_mem_assignNames fun c hc => ?_
  obtain ⟨p, -, rfl⟩ := List.mem_map.mp hc
  exact isName_propertyName hu p.name

theorem isName_of_mem_caseNames {u : CharacterData} (hu : u.Standard) (o : Options) (cs : List Bytes) :
    ∀ n ∈ caseNames u o cs, IsName n := by
  refine isName_of_mem_assignNames fun c hc => ?_
  obtain ⟨label, -, rfl⟩ := List.mem_map.mp hc
  exact isName_caseName hu label

end Typewright
