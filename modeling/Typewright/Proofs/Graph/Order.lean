import Typewright.Proofs.Graph.Postorder

/-!
# Declarations in the order of their dependencies

* `Graph.getD_dependencyLists` : the lists of dependencies, type by type;
* `Graph.WellFormed.sorted_order` : the order of declarations is what the post-order walk over the dependencies
  returns;
* `Graph.Built.order_dependenciesFirst` : all declarations are there once, a dependency stands before its user or
  leads back to it, and cycles are reported exactly.
-/

namespace Typewright

open Relation

/-! ## Lists of dependencies -/

theorem getD_foldl_setIfInBounds (f : TypeId → List TypeId) (ids : List TypeId) (lists : Array (List TypeId))
    (x : TypeId) :
    (ids.foldl (fun lists id => lists.setIfInBounds id (f id)) lists).getD x [] =
      if x ∈ ids ∧ x < lists.size then f x else lists.getD x [] := by
  induction ids generalizing lists with
  | nil => simp
  | cons id ids ih =>
    rw [List.foldl_cons, ih, Array.size_setIfInBounds]
    by_cases hid : id = x
    · subst hid
      by_cases hx : id < lists.size
      · simp [hx, Array.getD_eq_getD_getElem?]
      · simp [hx, Array.getD_eq_getD_getElem?]
    · have hset : (lists.setIfInBounds id (f id)).getD x [] = lists.getD x [] := by
        rw [Array.getD_eq_getD_getElem?, Array.getElem?_setIfInBounds_ne hid, Array.getD_eq_getD_getElem?]
      simp [hset, Ne.symm hid]

theorem size_foldl_setIfInBounds (f : TypeId → List TypeId) (ids : List TypeId) (lists : Array (List TypeId)) :
    (ids.foldl (fun lists id => lists.setIfInBounds id (f id)) lists).size = lists.size := by
  induction ids generalizing lists with
  | nil => rfl
  | cons id ids ih => rw [List.foldl_cons, ih, Array.size_setIfInBounds]

theorem OrderedTypes.hasCycles_iff (o : OrderedTypes) : o.hasCycles = true ↔ o.backEdges ≠ [] := by
  simp [hasCycles]

namespace Graph

variable {g : Graph} {b : Bool}

theorem getD_dependencyLists {ids : List TypeId} {id : TypeId} (hid : id ∈ ids) (hlt : id < g.size) :
    (g.dependencyLists b ids).getD id [] = g.dependencies b id := by
  rw [dependencyLists, getD_foldl_setIfInBounds, if_pos ⟨hid, by rwa [Array.size_replicate]⟩]

theorem size_dependencyLists (ids : List TypeId) : (g.dependencyLists b ids).size = g.size := by
  rw [dependencyLists, size_foldl_setIfInBounds, Array.size_replicate]

/-! ## The order -/

theorem WellFormed.lt_size_of_mem_declared (h : g.WellFormed) {id : TypeId} (hid : id ∈ g.declared b) : id < g.size :=
  lt_size_of_isDeclared (h.mem_declared_iff.mp hid).2

/-- The declarations of a graph, their order, and the dependencies that close a cycle. -/
theorem WellFormed.sorted_order (h : g.WellFormed) :
    Sorted (g.dependencies b) (g.declared b)
      ⟨(g.order b .dependenciesFirst (g.declared b)).order,
        (g.order b .dependenciesFirst (g.declared b)).backEdges⟩ := by
  have hlists : ∀ a ∈ g.declared b, (g.dependencyLists b (g.declared b)).getD a [] = g.dependencies b a :=
    fun a ha => getD_dependencyLists ha (h.lt_size_of_mem_declared ha)
  have hclosed : ∀ a ∈ g.declared b, ∀ d ∈ (g.dependencyLists b (g.declared b)).getD a [], d ∈ g.declared b := by
    intro a ha d hd
    rw [hlists a ha] at hd
    exact h.mem_declared_of_depends ha hd
  have hbound : ∀ a ∈ g.declared b, a < g.size := fun a ha => h.lt_size_of_mem_declared ha
  exact (Sorted.postorder hbound hclosed).congr hclosed hlists

/-- **Dependencies come first.** Every type that is to be declared stands in the order once. The order has a cycle
just if a declaration depends on itself, directly or through others. A dependency stands before its user or leads
back to it: always before it if there is no cycle, and otherwise at least unless the two depend on each other. -/
theorem Built.order_dependenciesFirst (hg : g.Built) (b : Bool) :
    let canonical := g.declared b
    let r := g.order b .dependenciesFirst canonical
    (r.order.Perm canonical ∧ r.order.Nodup) ∧
      (r.hasCycles = true ↔ ∃ a ∈ canonical, TransGen (g.Depends b) a a) ∧
      (∀ a ∈ r.order, ∀ d ∈ g.dependencies b a, Precedes r.order d a ∨ ReflTransGen (g.Depends b) d a) ∧
      (r.hasCycles = false → ∀ a ∈ r.order, ∀ d ∈ g.dependencies b a, Precedes r.order d a) ∧
      ∀ a ∈ r.order, ∀ d ∈ g.dependencies b a, ¬ Precedes r.order d a →
        ReflTransGen (g.Depends b) a d ∧ ReflTransGen (g.Depends b) d a := by
  intro canonical r
  have hsorted := hg.wellFormed.sorted_order (b := b)
  have hback : ∀ a ∈ r.order, ∀ d ∈ g.dependencies b a, Precedes r.order d a ∨ (a, d) ∈ r.backEdges :=
    fun a ha d hd => hsorted.precedes_or_backEdge ha hd
  refine ⟨⟨hsorted.perm nodup_declared, hsorted.nodup⟩, ?_, fun a ha d hd => ?_, fun hc a ha d hd => ?_,
    fun a ha d hd hnot => ?_⟩
  · rw [OrderedTypes.hasCycles_iff]
    exact hsorted.exists_backEdge_iff
  · rcases hback a ha d hd with h | h
    · exact Or.inl h
    · exact Or.inr (hsorted.cyclic a d h).2.2
  · refine (hback a ha d hd).resolve_right fun he => ?_
    have hne : r.hasCycles = true := (OrderedTypes.hasCycles_iff r).mpr (List.ne_nil_of_mem he)
    rw [hc] at hne
    cases hne
  · have he := (hback a ha d hd).resolve_left hnot
    exact ⟨.single hd, (hsorted.cyclic a d he).2.2⟩

/-- The knot is reported: each of its three declarations leads back to itself. -/
theorem knot_order_hasCycles :
    knot.Built ∧ (knot.order true .dependenciesFirst (knot.declared true)).hasCycles = true := by
  have h₁ : knot.Depends true 12 11 := by
    have hlist : knot.dependencies true 12 = [11] := by cbv
    rw [Depends, Leads, hlist]
    exact List.mem_cons_self
  have h₂ : knot.Depends true 11 10 := by
    have hlist : knot.dependencies true 11 = [10] := by cbv
    rw [Depends, Leads, hlist]
    exact List.mem_cons_self
  have h₃ : knot.Depends true 10 12 := by
    have hlist : knot.dependencies true 10 = [12] := by cbv
    rw [Depends, Leads, hlist]
    exact List.mem_cons_self
  have hcycle : TransGen (knot.Depends true) 12 12 := ((TransGen.single h₁).tail h₂).tail h₃
  have hdeclared : 12 ∈ knot.declared true := by
    rw [declared_knot]
    decide
  exact ⟨built_knot, (built_knot.order_dependenciesFirst true).2.1.mpr ⟨12, hdeclared, hcycle⟩⟩

end Graph

end Typewright
