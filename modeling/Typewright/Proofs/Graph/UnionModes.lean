import Typewright.Proofs.Graph.Invariant
import Typewright.Proofs.Graph.Unfolding

/-!
# Declaring unions does not move classes

Unions may be declared under a name or written in place. The dependencies and the entry points of the walk differ
between the two, and yet classes and enums come out in the same order.

* `Graph.Cyclic` : types that can be reached refer to each other in a circle;
* `Graph.WellFormed.hasCycles_iff` : the declarations have a cycle just if the types have one;
* `Graph.finished`, `Graph.below` : what is finished with a type, and the declarations among this;
* `Graph.WellFormed.order_eq_filter` : without cycles the order is a part of one list, the same for both modes;
* `Graph.Built.order_agrees_on_classes` : so both modes agree on classes and enums.
-/

namespace Typewright

open Relation

/-! ## Cycles of types and of declarations -/

namespace Graph

variable {g : Graph} {b : Bool} {a c d : TypeId}

/-- Types that can be reached refer to each other in a circle. -/
def Cyclic (g : Graph) : Prop := ∃ id, g.Reached id ∧ TransGen (Leads g.children) id id

theorem WellFormed.transGen_of_depends (h : g.WellFormed) (hd : g.Depends b a d) : TransGen (Leads g.children) a d := by
  obtain ⟨⟨c, hc, hcd⟩, -⟩ := h.mem_dependencies_iff.mp hd
  exact TransGen.head' hc hcd.reaches

/-- A way from type to type that ends in a declared one is a way from declaration to declaration. -/
theorem WellFormed.depends_of_transGen (h : g.WellFormed) (hd : g.isDeclared b d = true)
    (hpath : TransGen (Leads g.children) a d) : TransGen (g.Depends b) a d := by
  induction hpath using TransGen.head_induction_on with
  | single hc => exact .single (h.mem_dependencies_iff.mpr ⟨⟨d, hc, .refl⟩, hd⟩)
  | head hc hcd ih =>
    rename_i x c
    cases hdecl : g.isDeclared b c with
    | true => exact .head (h.mem_dependencies_iff.mpr ⟨⟨c, hc, .refl⟩, hdecl⟩) ih
    | false =>
      -- `c` is written in place: what it depends on, `x` depends on through it.
      obtain ⟨y, hy, hyd⟩ := TransGen.head'_iff.mp ih
      obtain ⟨⟨e, he, hey⟩, hydecl⟩ := h.mem_dependencies_iff.mp hy
      have hlead : Leads (g.lookThrough b) c e := by
        rw [Leads, lookThrough_of_not_isDeclared hdecl]
        exact he
      exact TransGen.head' (h.mem_dependencies_iff.mpr ⟨⟨c, hc, ReflTransGen.head hlead hey⟩, hydecl⟩) hyd

/-- From type to type the numbers get smaller, unless the way goes through a class. -/
theorem WellFormed.lt_or_through_record (h : g.WellFormed) (hpath : TransGen (Leads g.children) a d) :
    d < a ∨ ∃ y hint ps, g.node? y = some (.record hint ps) ∧ g.Reaches a y ∧ TransGen (Leads g.children) y d := by
  have hstep : ∀ x z, Leads g.children x z → z < x ∨ ∃ hint ps, g.node? x = some (.record hint ps) := by
    intro x z hz
    by_cases hx : ∃ hint ps, g.node? x = some (.record hint ps)
    · exact Or.inr hx
    · exact Or.inl (h.lt_of_leads hz fun hint ps hn => hx ⟨hint, ps, hn⟩)
  induction hpath with
  | single hc =>
    rcases hstep _ _ hc with hlt | ⟨hint, ps, hn⟩
    · exact Or.inl hlt
    · exact Or.inr ⟨a, hint, ps, hn, .refl, .single hc⟩
  | tail hac hc ih =>
    rename_i x z
    rcases hstep _ _ hc with hlt | ⟨hint, ps, hn⟩
    · rcases ih with hxa | ⟨y, hint, ps, hn, hay, hyx⟩
      · exact Or.inl (hlt.trans hxa)
      · exact Or.inr ⟨y, hint, ps, hn, hay, hyx.tail hc⟩
    · exact Or.inr ⟨x, hint, ps, hn, hac.to_reflTransGen, .single hc⟩

/-- **Declarations depend on each other just if types refer to each other in a circle**: a circle goes through a class,
and classes are declared in both modes. -/
theorem WellFormed.hasCycles_iff (h : g.WellFormed) (b : Bool) :
    (g.order b .dependenciesFirst (g.declared b)).hasCycles = true ↔ g.Cyclic := by
  rw [OrderedTypes.hasCycles_iff]
  refine h.sorted_order.exists_backEdge_iff.trans ⟨?_, ?_⟩
  · rintro ⟨a, ha, hcycle⟩
    refine ⟨a, (h.mem_declared_iff.mp ha).1, ?_⟩
    exact TransGen.trans_induction_on (motive := fun {x y} _ => TransGen (Leads g.children) x y) hcycle
      (fun hd => h.transGen_of_depends hd) fun _ _ h₁ h₂ => h₁.trans h₂
  · rintro ⟨x, ⟨top, htop, hx⟩, hcycle⟩
    rcases h.lt_or_through_record hcycle with hlt | ⟨y, hint, ps, hn, hxy, hyx⟩
    · exact absurd hlt (Nat.lt_irrefl x)
    · have hdecl : g.isDeclared b y = true := isDeclared_iff.mpr (Or.inl ⟨hint, ps, hn⟩)
      have hreached : g.Reached y := ⟨top, htop, hx.trans hxy⟩
      exact ⟨y, h.mem_declared_iff.mpr ⟨hreached, hdecl⟩, h.depends_of_transGen hdecl (hyx.trans_left hxy)⟩

/-! ## Types in the order in which they are finished -/

/-- How many types a type leads to, itself included. -/
def extent (g : Graph) (id : TypeId) : Nat := (preorder g.children g.size [] [id]).length

theorem extent_le_size (id : TypeId) : g.extent id ≤ g.size := by
  have hsub : preorder g.children g.size [] [id] ⊆ List.range g.size := fun x hx =>
    List.mem_range.mpr (lt_and_not_mem_of_mem_preorder hx).1
  simpa [extent] using ((nodup_preorder [] [id]).subperm hsub).length_le

theorem WellFormed.mem_preorder_children_iff (h : g.WellFormed) {id x : TypeId} (hid : id < g.size) :
    x ∈ preorder g.children g.size [] [id] ↔ g.Reaches id x := by
  rw [mem_preorder_iff (by simpa using hid) fun y z hz => h.children_lt hz]
  simp [Reaches]

/-- Away from cycles a type leads to more types than its parts do. -/
theorem WellFormed.extent_lt (h : g.WellFormed) (ha : a < g.size) (hcycle : ¬ TransGen (Leads g.children) a a)
    (hc : c ∈ g.children a) : g.extent c < g.extent a := by
  have hnot : a ∉ preorder g.children g.size [] [c] := by
    rw [h.mem_preorder_children_iff (h.children_lt hc)]
    exact fun hca => hcycle (TransGen.head' hc hca)
  have hnodup : (a :: preorder g.children g.size [] [c]).Nodup := List.nodup_cons.mpr ⟨hnot, nodup_preorder _ _⟩
  have hsub : a :: preorder g.children g.size [] [c] ⊆ preorder g.children g.size [] [a] := by
    intro x hx
    rw [h.mem_preorder_children_iff ha]
    rcases List.mem_cons.mp hx with rfl | hx
    · exact .refl
    · exact ReflTransGen.head hc ((h.mem_preorder_children_iff (h.children_lt hc)).mp hx)
  exact (hnodup.subperm hsub).length_le

/-- What is finished when a type is, itself last: its parts in order, with repetitions, down to a depth. -/
def finishedTo (g : Graph) : Nat → TypeId → List TypeId
  | 0, id => [id]
  | depth + 1, id => (g.children id).flatMap (g.finishedTo depth) ++ [id]

/-- What is finished when a type is. No way without a cycle is longer than the number of types. -/
def finished (g : Graph) (id : TypeId) : List TypeId := g.finishedTo g.size id

/-- The declarations that are finished when a type is. -/
def below (g : Graph) (declareUnions : Bool) (id : TypeId) : List TypeId :=
  (g.finished id).filter (g.isDeclared declareUnions)

section Acyclic

variable (h : g.WellFormed) (hcycle : ¬ g.Cyclic)

include h hcycle

theorem WellFormed.extent_lt_of_reached {id : TypeId} (hid : g.Reached id) (hc : c ∈ g.children id) :
    g.extent c < g.extent id :=
  h.extent_lt (h.reached_lt hid) (fun hpath => hcycle ⟨id, hid, hpath⟩) hc

theorem WellFormed.finishedTo_succ {depth : Nat} {id : TypeId} (hid : g.Reached id) (hdepth : g.extent id ≤ depth) :
    g.finishedTo depth id = g.finishedTo (depth + 1) id := by
  induction depth generalizing id with
  | zero =>
    have hself := (h.mem_preorder_children_iff (h.reached_lt hid)).mpr (ReflTransGen.refl (a := id))
    exact absurd (List.length_pos_of_mem hself) (Nat.not_lt.mpr hdepth)
  | succ depth ih =>
    rw [finishedTo, finishedTo]
    refine congrArg (· ++ [id]) (List.flatMap_congr fun c hc => ih (hid.child hc) ?_)
    have hdown := h.extent_lt_of_reached hcycle hid hc
    omega

theorem WellFormed.below_eq {id : TypeId} (hid : g.Reached id) :
    g.below b id = (g.children id).flatMap (g.below b) ++ [id].filter (g.isDeclared b) := by
  have hfinished : g.finished id = (g.children id).flatMap g.finished ++ [id] :=
    h.finishedTo_succ hcycle hid (extent_le_size id)
  rw [below, hfinished, List.filter_append, List.filter_flatMap]
  rfl

theorem WellFormed.below_of_declared {id : TypeId} (hid : g.Reached id) (hdecl : g.isDeclared b id = true) :
    g.below b id = (g.children id).flatMap (g.below b) ++ [id] := by
  rw [h.below_eq hcycle hid, List.filter_cons_of_pos hdecl, List.filter_nil]

theorem WellFormed.below_of_not_declared {id : TypeId} (hid : g.Reached id) (hdecl : g.isDeclared b id = false) :
    g.below b id = (g.children id).flatMap (g.below b) := by
  rw [h.below_eq hcycle hid, List.filter_cons_of_neg (by simp [hdecl]), List.filter_nil, List.append_nil]

theorem WellFormed.picks_children : Picks g.children g.size g.Reached g.extent (g.isDeclared b) (g.below b) where
  lt _ hx := h.reached_lt hx
  scope _ hx _ hy := hx.child hy
  rank _ hx _ hy := h.extent_lt_of_reached hcycle hx hy
  passed _ hx hdecl := h.below_of_not_declared hcycle hx hdecl
  picked x hx hdecl y hy z hz := by
    rw [h.below_of_declared hcycle hx hdecl]
    exact List.mem_append_left _ (List.mem_flatMap.mpr ⟨y, hy, hz⟩)

theorem WellFormed.picks_lookThrough :
    Picks (g.lookThrough b) g.size g.Reached g.extent (g.isDeclared b) (g.below b) where
  lt _ hx := h.reached_lt hx
  scope _ hx _ hy := hx.child (mem_children_of_mem_lookThrough hy)
  rank _ hx _ hy := h.extent_lt_of_reached hcycle hx (mem_children_of_mem_lookThrough hy)
  passed x hx hdecl := by
    rw [lookThrough_of_not_isDeclared hdecl]
    exact h.below_of_not_declared hcycle hx hdecl
  picked x hx hdecl y hy := by
    rw [lookThrough, if_pos hdecl] at hy
    cases hy

/-- What is finished with a declaration is what is finished with its dependencies, and then the declaration. -/
theorem WellFormed.unfolds_dependencies : Unfolds (g.dependencies b) (g.declared b) (g.below b) := by
  intro x hx
  obtain ⟨hreached, hdecl⟩ := h.mem_declared_iff.mp hx
  rw [h.below_of_declared hcycle hreached hdecl]
  refine distinct_append_congr (Eq.symm ?_) rfl
  exact distinct_flatMap_preorder (h.picks_lookThrough hcycle) fun c hc => hreached.child hc

/-- **Without cycles the order of declarations is a part of one list**: of all types in the order in which they are
finished, whatever is declared. -/
theorem WellFormed.order_eq_filter (b : Bool) :
    (g.order b .dependenciesFirst (g.declared b)).order =
      (distinct (g.tops.flatMap fun t => g.finished t.type)).filter (g.isDeclared b) := by
  have hlists : ∀ a ∈ g.declared b, (g.dependencyLists b (g.declared b)).getD a [] = g.dependencies b a :=
    fun a ha => getD_dependencyLists ha (h.lt_size_of_mem_declared ha)
  have hunfolds : Unfolds (fun id => (g.dependencyLists b (g.declared b)).getD id []) (g.declared b) (g.below b) := by
    intro x hx
    dsimp only
    rw [hlists x hx]
    exact h.unfolds_dependencies hcycle x hx
  have hclosed : ∀ a ∈ g.declared b, ∀ d ∈ (g.dependencyLists b (g.declared b)).getD a [], d ∈ g.declared b := by
    intro a ha d hd
    rw [hlists a ha] at hd
    exact h.mem_declared_of_depends ha hd
  have hback : (g.order b .dependenciesFirst (g.declared b)).backEdges = [] := by
    by_contra hne
    exact hcycle ((h.hasCycles_iff b).mp ((OrderedTypes.hasCycles_iff _).mpr hne))
  have htops : ∀ x ∈ g.tops.map TopLevel.type, g.Reached x := by
    intro x hx
    obtain ⟨t, ht, rfl⟩ := List.mem_map.mp hx
    exact ⟨t, ht, .refl⟩
  calc (g.order b .dependenciesFirst (g.declared b)).order
      = distinct (g.order b .dependenciesFirst (g.declared b)).order := (distinct_eq_self h.sorted_order.nodup).symm
    _ = distinct ((g.declared b).flatMap (g.below b)) :=
        distinct_order_postorder hunfolds (fun x hx => h.lt_size_of_mem_declared hx) hclosed (fun _ hr => hr)
          (searching_start _ _) hback
    _ = distinct ((g.tops.map TopLevel.type).flatMap (g.below b)) :=
        distinct_flatMap_preorder (h.picks_children hcycle) htops
    _ = (distinct (g.tops.flatMap fun t => g.finished t.type)).filter (g.isDeclared b) := by
        rw [← distinct_filter, List.filter_flatMap, List.flatMap_map]
        rfl

end Acyclic

/-- What is declared in both modes is what is declared and no union. -/
theorem isDeclared_false_iff {id : TypeId} :
    g.isDeclared false id = true ↔ g.isDeclared true id = true ∧ g.isUnionAt id = false := by
  unfold isDeclared isUnionAt
  split
  case h_1 hn => simp [hn, Node.isUnion]
  case h_2 hn => simp [hn, Node.isUnion]
  case h_3 hn => simp [hn, Node.isUnion]
  case h_4 => simp

/-- **Both modes agree on classes.** Whether unions are declared or written in place, the declarations have a cycle or
have none; and if they have none, the order in which unions are declared is the other one once its unions are left
out. -/
theorem Built.order_agrees_on_classes (hg : g.Built) :
    let inPlace := g.order false .dependenciesFirst (g.declared false)
    let named := g.order true .dependenciesFirst (g.declared true)
    named.hasCycles = inPlace.hasCycles ∧
      (inPlace.hasCycles = false → named.order.filter (fun id => !g.isUnionAt id) = inPlace.order) := by
  intro inPlace named
  have h := hg.wellFormed
  refine ⟨Bool.eq_iff_iff.mpr ((h.hasCycles_iff true).trans (h.hasCycles_iff false).symm), fun hnone => ?_⟩
  have hcycle : ¬ g.Cyclic := fun hc => Bool.false_ne_true (hnone.symm.trans ((h.hasCycles_iff false).mpr hc))
  rw [h.order_eq_filter hcycle true, h.order_eq_filter hcycle false, List.filter_filter]
  refine List.filter_congr fun x _ => Bool.eq_iff_iff.mpr ?_
  rw [isDeclared_false_iff, Bool.and_eq_true, Bool.not_eq_true', and_comm]

/-- A union of a class that refers to another, and of a list of that other. The union is the first to be reached. -/
def shelfCalls : List Call := [
  .record (Bytes.ascii "Author") [],
  .record (Bytes.ascii "Book") [⟨Bytes.ascii "by", 10, false⟩],
  .array 10,
  .union (Bytes.ascii "Entry") [11, 12],
  .topLevel (Bytes.ascii "Entry") 13]

def shelf : Graph := shelfCalls.foldl after empty

theorem shelf_order_agrees_on_classes :
    shelf.Built ∧ shelf.declared true = [13, 11, 10] ∧ shelf.declared false = [11, 10] ∧
      (shelf.order false .dependenciesFirst [11, 10]).hasCycles = false ∧
      (shelf.order true .dependenciesFirst [13, 11, 10]).order.filter (fun id => !shelf.isUnionAt id) =
        (shelf.order false .dependenciesFirst [11, 10]).order ∧
      (shelf.order false .dependenciesFirst [11, 10]).order = [10, 11] := by
  have hbuilt : shelf.Built := ⟨shelfCalls, rfl⟩
  have hnamed : shelf.declared true = [13, 11, 10] := by cbv
  have hinPlace : shelf.declared false = [11, 10] := by cbv
  have hnone : (shelf.order false .dependenciesFirst [11, 10]).hasCycles = false := by cbv
  have hagree := hbuilt.order_agrees_on_classes
  rw [hnamed, hinPlace] at hagree
  exact ⟨hbuilt, hnamed, hinPlace, hnone, hagree.2 hnone, by cbv⟩

end Graph

end Typewright
