import Typewright.Proofs.Module.Render

/-!
# The order of declarations in a module

* `Graph.layout`, `Graph.rank` : the declarations in the order of the module, classes and enums before unions, and the
  place of one of them;
* `Graph.WellFormed.rank_lt_of_precedes` : types of one kind keep the order of their dependencies;
* `Graph.WellFormed.needsPostponed_iff` : annotations are left unevaluated just if a class depends on a type that is not
  declared before it.
-/

namespace Typewright

open Relation

theorem Precedes.filter {l : List TypeId} {a c : TypeId} {P : TypeId → Bool} (h : Precedes l a c) (ha : P a = true)
    (hc : P c = true) : Precedes (l.filter P) a c := by
  obtain ⟨l₁, l₂, rfl, hmem⟩ := h
  refine ⟨l₁.filter P, l₂.filter P, ?_, List.mem_filter.mpr ⟨hmem, ha⟩⟩
  rw [List.filter_append, List.filter_cons_of_pos hc]

theorem Precedes.idxOf_lt {l : List TypeId} {a c : TypeId} (h : Precedes l a c) (hl : l.Nodup) :
    l.idxOf a < l.idxOf c := by
  obtain ⟨l₁, l₂, rfl, ha⟩ := h
  have hc : c ∉ l₁ := fun hmem => (List.nodup_append.mp hl).2.2 c hmem c List.mem_cons_self rfl
  rw [List.idxOf_append_of_mem ha, List.idxOf_append_of_notMem hc, List.idxOf_cons_self, Nat.add_zero]
  exact List.idxOf_lt_length_of_mem ha

namespace Graph

variable {u : CharacterData} {g : Graph} {o : Options} {id c d : TypeId}

/-- The declarations of a graph in the order of the module. -/
def layout (g : Graph) (o : Options) : List TypeId := g.blockOrder o ++ g.unionOrder o

/-- The place of a declaration in the module. -/
def rank (g : Graph) (o : Options) (id : TypeId) : Nat := (g.layout o).idxOf id

/-- Unions come last and have only earlier types as members, so that dependencies lead to smaller weights if every
class depends on types before it only. -/
def weight (g : Graph) (o : Options) (id : TypeId) : Nat :=
  if g.isUnionAt id then (g.layout o).length + id else g.rank o id

namespace WellFormed

theorem nodup_order (h : g.WellFormed) : (g.orderedFor o).order.Nodup := h.sorted_order.nodup

theorem nodup_blockOrder (h : g.WellFormed) : (g.blockOrder o).Nodup := h.nodup_order.filter _

theorem nodup_unionOrder (h : g.WellFormed) : (g.unionOrder o).Nodup := h.nodup_order.filter _

theorem mem_layout_iff (h : g.WellFormed) : id ∈ g.layout o ↔ id ∈ g.declared o.declareUnions := by
  rw [layout, List.mem_append, h.mem_blockOrder_iff, h.mem_unionOrder_iff, ← and_or_left]
  cases g.isUnionAt id <;> simp

theorem nodup_layout (h : g.WellFormed) : (g.layout o).Nodup := by
  refine List.nodup_append.mpr ⟨h.nodup_blockOrder, h.nodup_unionOrder, fun a ha a' ha' heq => ?_⟩
  have hblock := (h.mem_blockOrder_iff.mp ha).2
  rw [heq, (h.mem_unionOrder_iff.mp ha').2] at hblock
  cases hblock

theorem getElem?_rank (h : g.WellFormed) (hid : id ∈ g.declared o.declareUnions) :
    (g.layout o)[g.rank o id]? = some id := by
  have hlt : g.rank o id < (g.layout o).length := List.idxOf_lt_length_of_mem (h.mem_layout_iff.mpr hid)
  rw [List.getElem?_eq_getElem hlt]
  exact congrArg some (List.getElem_idxOf hlt)

theorem rank_of_getElem? (h : g.WellFormed) {i : Nat} (hi : (g.layout o)[i]? = some id) : g.rank o id = i := by
  obtain ⟨hlt, rfl⟩ := List.getElem?_eq_some_iff.mp hi
  exact h.nodup_layout.idxOf_getElem i hlt

theorem rank_of_mem_blockOrder (hid : id ∈ g.blockOrder o) : g.rank o id = (g.blockOrder o).idxOf id :=
  List.idxOf_append_of_mem hid

theorem rank_of_mem_unionOrder (h : g.WellFormed) (hid : id ∈ g.unionOrder o) :
    g.rank o id = (g.blockOrder o).length + (g.unionOrder o).idxOf id := by
  refine List.idxOf_append_of_notMem fun hblock => ?_
  have hunion := (h.mem_unionOrder_iff.mp hid).2
  rw [(h.mem_blockOrder_iff.mp hblock).2] at hunion
  cases hunion

/-- Classes and enums are declared first. -/
theorem rank_lt_length_blockOrder_iff (h : g.WellFormed) (hid : id ∈ g.declared o.declareUnions) :
    g.rank o id < (g.blockOrder o).length ↔ g.isUnionAt id = false := by
  cases hunion : g.isUnionAt id with
  | false =>
    have hmem := h.mem_blockOrder_iff.mpr ⟨hid, hunion⟩
    rw [rank_of_mem_blockOrder hmem]
    exact iff_of_true (List.idxOf_lt_length_of_mem hmem) rfl
  | true =>
    rw [h.rank_of_mem_unionOrder (h.mem_unionOrder_iff.mpr ⟨hid, hunion⟩)]
    exact iff_of_false (Nat.not_lt.mpr (Nat.le_add_right _ _)) nofun

/-- Types of one kind keep the order of their dependencies. -/
theorem rank_lt_of_precedes (h : g.WellFormed) (hd : d ∈ g.declared o.declareUnions)
    (hc : c ∈ g.declared o.declareUnions) (hkind : g.isUnionAt d = g.isUnionAt c)
    (hprec : Precedes (g.orderedFor o).order d c) : g.rank o d < g.rank o c := by
  cases hunion : g.isUnionAt c with
  | false =>
    have hfilter : Precedes (g.blockOrder o) d c := hprec.filter (by rw [hkind, hunion]; rfl) (by rw [hunion]; rfl)
    rw [rank_of_mem_blockOrder (h.mem_blockOrder_iff.mpr ⟨hd, hkind.trans hunion⟩),
      rank_of_mem_blockOrder (h.mem_blockOrder_iff.mpr ⟨hc, hunion⟩)]
    exact hfilter.idxOf_lt h.nodup_blockOrder
  | true =>
    have hfilter : Precedes (g.unionOrder o) d c := hprec.filter (hkind.trans hunion) hunion
    rw [h.rank_of_mem_unionOrder (h.mem_unionOrder_iff.mpr ⟨hd, hkind.trans hunion⟩),
      h.rank_of_mem_unionOrder (h.mem_unionOrder_iff.mpr ⟨hc, hunion⟩)]
    exact Nat.add_lt_add_left (hfilter.idxOf_lt h.nodup_unionOrder) _

/-! ## Annotations -/

theorem needsPostponed_eq_true_iff (h : g.WellFormed) :
    needsPostponed g (g.orderedFor o) o.declareUnions = true ↔
      (g.orderedFor o).hasCycles = true ∨ o.declareUnions = true ∧ ∃ c ∈ g.declared o.declareUnions,
        (∃ hint ps, g.node? c = some (.record hint ps)) ∧
          ∃ d, g.Depends o.declareUnions c d ∧ g.isUnionAt d = true := by
  have hdependencies : ∀ c ∈ g.declared o.declareUnions,
      (g.orderedFor o).dependencies.getD c [] = g.dependencies o.declareUnions c :=
    fun c hc => getD_dependencyLists hc (h.lt_size_of_mem_declared hc)
  have hrecord : ∀ c,
      ((g.node? c).map Node.isRecord).getD false = true ↔ ∃ hint ps, g.node? c = some (.record hint ps) := by
    intro c
    cases g.node? c with
    | none => simp
    | some n => cases n <;> simp [Node.isRecord]
  simp only [needsPostponed, Bool.or_eq_true, Bool.and_eq_true, List.any_eq_true]
  refine or_congr_right (and_congr_right fun _ => exists_congr fun c => ?_)
  rw [h.mem_order_iff, hrecord]
  refine and_congr_right fun hc => and_congr_right fun _ => ?_
  rw [hdependencies c hc]
  rfl

theorem weight_lt (h : g.WellFormed)
    (hclass : ∀ c ∈ g.declared o.declareUnions, (∃ hint ps, g.node? c = some (.record hint ps)) →
      ∀ d, g.Depends o.declareUnions c d → g.rank o d < g.rank o c)
    (hc : c ∈ g.declared o.declareUnions) (hd : g.Depends o.declareUnions c d) : weight g o d < weight g o c := by
  have hd' : d ∈ g.declared o.declareUnions := h.mem_declared_of_depends hc hd
  have hlt : g.rank o d < (g.layout o).length := List.idxOf_lt_length_of_mem (h.mem_layout_iff.mpr hd')
  rcases isDeclared_iff.mp (h.mem_declared_iff.mp hc).2 with ⟨hint, ps, hn⟩ | ⟨hint, cs, hn⟩ | ⟨-, ⟨hint, ms, hn⟩, -⟩
  · have hunion : g.isUnionAt c = false := isUnionAt_of_node? hn
    have hrank := hclass c hc ⟨hint, ps, hn⟩ d hd
    have hblock : g.isUnionAt d = false := by
      rw [← h.rank_lt_length_blockOrder_iff hd']
      exact Nat.lt_trans hrank ((h.rank_lt_length_blockOrder_iff hc).mpr hunion)
    rw [weight, weight, hunion, hblock]
    exact hrank
  · obtain ⟨⟨t, ht, -⟩, -⟩ := h.mem_dependencies_iff.mp hd
    rw [children_of_node? hn] at ht
    cases ht
  · have hunion : g.isUnionAt c = true := isUnionAt_of_node? hn
    have hlt' : d < c := h.dependency_lt hn hd
    rw [weight, weight, hunion, if_pos rfl]
    split
    · exact Nat.add_lt_add_left hlt' _
    · exact Nat.lt_of_lt_of_le hlt (Nat.le_add_right _ _)

/-- In every cycle some class comes before a type that it depends on. -/
theorem exists_late_of_hasCycles (h : g.WellFormed) (hcycle : (g.orderedFor o).hasCycles = true) :
    ∃ c ∈ g.declared o.declareUnions, (∃ hint ps, g.node? c = some (.record hint ps)) ∧
      ∃ d, g.Depends o.declareUnions c d ∧ g.rank o c ≤ g.rank o d := by
  by_contra hnot
  have hclass : ∀ c ∈ g.declared o.declareUnions, (∃ hint ps, g.node? c = some (.record hint ps)) →
      ∀ d, g.Depends o.declareUnions c d → g.rank o d < g.rank o c :=
    fun c hc hrecord d hd => Nat.lt_of_not_le fun hle => hnot ⟨c, hc, hrecord, d, hd, hle⟩
  rw [OrderedTypes.hasCycles_iff] at hcycle
  obtain ⟨a, ha, hloop⟩ := h.sorted_order.exists_backEdge_iff.mp hcycle
  -- Along the cycle the weight would only fall.
  have hpath : ∀ x, TransGen (g.Depends o.declareUnions) a x →
      x ∈ g.declared o.declareUnions ∧ weight g o x < weight g o a := by
    intro x hx
    induction hx with
    | single hd => exact ⟨h.mem_declared_of_depends ha hd, h.weight_lt hclass ha hd⟩
    | tail _ hd ih => exact ⟨h.mem_declared_of_depends ih.1 hd, (h.weight_lt hclass ih.1 hd).trans ih.2⟩
  exact Nat.lt_irrefl _ (hpath a hloop).2

theorem hasCycles_of_rank_le (h : g.WellFormed) (hc : c ∈ g.declared o.declareUnions)
    (hd : g.Depends o.declareUnions c d) (hkind : g.isUnionAt d = g.isUnionAt c) (hrank : g.rank o c ≤ g.rank o d) :
    (g.orderedFor o).hasCycles = true := by
  rcases h.sorted_order.precedes_or_backEdge (h.mem_order_iff.mpr hc) hd with hprec | hback
  · have hlt := h.rank_lt_of_precedes (h.mem_declared_of_depends hc hd) hc hkind hprec
    exact absurd hrank (Nat.not_le.mpr hlt)
  · exact (OrderedTypes.hasCycles_iff _).mpr (List.ne_nil_of_mem hback)

/-- **Annotations are left unevaluated just if a class depends on a type that is not declared before it.** -/
theorem needsPostponed_iff (h : g.WellFormed) :
    needsPostponed g (g.orderedFor o) o.declareUnions = true ↔
      ∃ c ∈ g.declared o.declareUnions, (∃ hint ps, g.node? c = some (.record hint ps)) ∧
        ∃ d, g.Depends o.declareUnions c d ∧ g.rank o c ≤ g.rank o d := by
  rw [h.needsPostponed_eq_true_iff]
  constructor
  · rintro (hcycle | ⟨-, c, hc, ⟨hint, ps, hn⟩, d, hd, hunion⟩)
    · exact h.exists_late_of_hasCycles hcycle
    · have hrank : (g.blockOrder o).length ≤ g.rank o d := by
        rw [← Nat.not_lt, h.rank_lt_length_blockOrder_iff (h.mem_declared_of_depends hc hd), hunion]
        nofun
      have hblock : g.isUnionAt c = false := isUnionAt_of_node? hn
      exact ⟨c, hc, ⟨hint, ps, hn⟩, d, hd, ((h.rank_lt_length_blockOrder_iff hc).mpr hblock).le.trans hrank⟩
  · rintro ⟨c, hc, ⟨hint, ps, hn⟩, d, hd, hrank⟩
    have hblock : g.isUnionAt c = false := isUnionAt_of_node? hn
    cases hunion : g.isUnionAt d with
    | true =>
      obtain ⟨hint', ms, hn'⟩ := isUnionAt_iff.mp hunion
      have hdeclare : o.declareUnions = true := by
        have hdecl := (h.mem_declared_iff.mp (h.mem_declared_of_depends hc hd)).2
        rw [isDeclared, hn'] at hdecl
        exact (Bool.and_eq_true_iff.mp hdecl).1
      exact Or.inr ⟨hdeclare, c, hc, ⟨hint, ps, hn⟩, d, hd, hunion⟩
    | false => exact Or.inl (h.hasCycles_of_rank_le hc hd (hunion.trans hblock.symm) hrank)

end WellFormed

end Graph

end Typewright
