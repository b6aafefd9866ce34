import Mathlib
import Typewright.Graph.Order
import Typewright.Proofs.Graph.Growth

/-!
# What a walk reaches

* `Leads next a b` : `b` is a successor of `a`;
* `mem_preorder_iff` : the pre-order walk enters what can be reached, each number once (`nodup_preorder`);
* `mem_mark_iff` : what can be reached is marked;
* `Graph.Reaches` : along references; `Graph.Shows` : along the types that are written in place;
* `Graph.mem_declared_iff`, `Graph.mem_dependencies_iff` : the declarations of a graph and the dependencies of
  a type, said by paths;
* `Graph.WellFormed.dependency_lt` : a union depends on earlier types only.
-/

namespace Typewright

open Relation

/-- `b` is a successor of `a`. -/
def Leads (next : Nat → List Nat) (a b : Nat) : Prop := b ∈ next a

/-! ## The pre-order walk -/

section Preorder

variable {next : Nat → List Nat} {bound : Nat}

theorem lt_and_not_mem_of_mem_preorder {seen stack : List Nat} {x : Nat} (h : x ∈ preorder next bound seen stack) :
    x < bound ∧ x ∉ seen := by
  induction seen, stack using preorder.induct next bound with
  | case1 seen => rw [preorder] at h; cases h
  | case2 seen id rest hskip ih =>
    rw [preorder, if_pos hskip] at h
    exact ih h
  | case3 seen id rest hskip ih =>
    rw [preorder, if_neg hskip] at h
    rcases List.mem_cons.mp h with rfl | h
    · exact ⟨by omega, fun hx => hskip (Or.inl hx)⟩
    · exact ⟨(ih h).1, fun hx => (ih h).2 (List.mem_cons_of_mem id hx)⟩

theorem nodup_preorder (seen stack : List Nat) : (preorder next bound seen stack).Nodup := by
  induction seen, stack using preorder.induct next bound with
  | case1 seen => rw [preorder]; exact List.nodup_nil
  | case2 seen id rest hskip ih =>
    rw [preorder, if_pos hskip]
    exact ih
  | case3 seen id rest hskip ih =>
    rw [preorder, if_neg hskip]
    exact List.nodup_cons.mpr ⟨fun h => (lt_and_not_mem_of_mem_preorder h).2 List.mem_cons_self, ih⟩

/-- Whatever the walk enters can be reached from its stack. -/
theorem exists_path_of_mem_preorder {seen stack : List Nat} {x : Nat} (h : x ∈ preorder next bound seen stack) :
    ∃ s ∈ stack, ReflTransGen (Leads next) s x := by
  induction seen, stack using preorder.induct next bound with
  | case1 seen => rw [preorder] at h; cases h
  | case2 seen id rest hskip ih =>
    rw [preorder, if_pos hskip] at h
    obtain ⟨s, hs, hsx⟩ := ih h
    exact ⟨s, List.mem_cons_of_mem id hs, hsx⟩
  | case3 seen id rest hskip ih =>
    rw [preorder, if_neg hskip] at h
    rcases List.mem_cons.mp h with rfl | h
    · exact ⟨x, List.mem_cons_self, .refl⟩
    · obtain ⟨s, hs, hsx⟩ := ih h
      rcases List.mem_append.mp hs with hs | hs
      · exact ⟨id, List.mem_cons_self, .head hs hsx⟩
      · exact ⟨s, List.mem_cons_of_mem id hs, hsx⟩

/-- The walk takes the whole stack, and with a number it enters all successors. -/
theorem preorder_closed (seen stack : List Nat) :
    (∀ s ∈ stack, s < bound → s ∈ seen ∨ s ∈ preorder next bound seen stack) ∧
      ∀ y ∈ preorder next bound seen stack, ∀ z ∈ next y, z < bound →
        z ∈ seen ∨ z ∈ preorder next bound seen stack := by
  induction seen, stack using preorder.induct next bound with
  | case1 seen =>
    rw [preorder]
    exact ⟨fun s hs => absurd hs List.not_mem_nil, fun y hy => absurd hy List.not_mem_nil⟩
  | case2 seen id rest hskip ih =>
    rw [preorder, if_pos hskip]
    refine ⟨fun s hs hlt => ?_, ih.2⟩
    rcases List.mem_cons.mp hs with rfl | hs
    · exact Or.inl (hskip.resolve_right (by omega))
    · exact ih.1 s hs hlt
  | case3 seen id rest hskip ih =>
    rw [preorder, if_neg hskip]
    -- What the rest of the walk has seen or enters is `id`, or was seen or is entered here too.
    have hmove : ∀ z, z ∈ id :: seen ∨ z ∈ preorder next bound (id :: seen) (next id ++ rest) →
        z ∈ seen ∨ z ∈ id :: preorder next bound (id :: seen) (next id ++ rest) := by
      rintro z (hz | hz)
      · rcases List.mem_cons.mp hz with rfl | hz
        · exact Or.inr List.mem_cons_self
        · exact Or.inl hz
      · exact Or.inr (List.mem_cons_of_mem id hz)
    refine ⟨fun s hs hlt => ?_, fun y hy z hz hlt => ?_⟩
    · rcases List.mem_cons.mp hs with rfl | hs
      · exact Or.inr List.mem_cons_self
      · exact hmove s (ih.1 s (List.mem_append_right _ hs) hlt)
    · rcases List.mem_cons.mp hy with rfl | hy
      · exact hmove z (ih.1 z (List.mem_append_left _ hz) hlt)
      · exact hmove z (ih.2 y hy z hz hlt)

/-- **The walk enters exactly what can be reached.** -/
theorem mem_preorder_iff {stack : List Nat} (hstack : ∀ s ∈ stack, s < bound)
    (hnext : ∀ y, ∀ z ∈ next y, z < bound) {x : Nat} :
    x ∈ preorder next bound [] stack ↔ ∃ s ∈ stack, ReflTransGen (Leads next) s x := by
  constructor
  · exact exists_path_of_mem_preorder
  · rintro ⟨s, hs, hsx⟩
    obtain ⟨hall, hclosed⟩ := @preorder_closed next bound [] stack
    induction hsx with
    | refl => exact (hall s hs (hstack s hs)).resolve_left List.not_mem_nil
    | tail _ hyz ih => exact (hclosed _ ih _ hyz (hnext _ _ hyz)).resolve_left List.not_mem_nil

end Preorder

/-! ## Marking -/

section Mark

variable {next : Nat → List Nat} {bound : Nat}

/-- What is marked is what a walk enters that takes the successors from the last one on. -/
theorem mem_mark {marks work : List Nat} {x : Nat} :
    x ∈ mark next bound marks work ↔ x ∈ marks ∨ x ∈ preorder (fun y => (next y).reverse) bound marks work := by
  induction marks, work using mark.induct next bound with
  | case1 marks => simp [mark, preorder]
  | case2 marks id rest hskip ih => rw [mark, if_pos hskip, preorder, if_pos hskip, ih]
  | case3 marks id rest hskip ih =>
    rw [mark, if_neg hskip, preorder, if_neg hskip, ih, List.mem_cons, List.mem_cons, or_assoc, or_left_comm]

/-- **What can be reached is marked**, and nothing else. -/
theorem mem_mark_iff {work : List Nat} (hwork : ∀ s ∈ work, s < bound) (hnext : ∀ y, ∀ z ∈ next y, z < bound)
    {x : Nat} : x ∈ mark next bound [] work ↔ ∃ s ∈ work, ReflTransGen (Leads next) s x := by
  have hleads : Leads (fun y => (next y).reverse) = Leads next := by
    funext a c
    exact propext List.mem_reverse
  rw [mem_mark, mem_preorder_iff hwork fun y z hz => hnext y z (List.mem_reverse.mp hz), hleads]
  simp

end Mark

namespace Graph

variable {g : Graph} {b : Bool}

/-! ## Paths in a graph -/

/-- One type refers to another, directly or through others, or is the same. -/
def Reaches (g : Graph) : TypeId → TypeId → Prop := ReflTransGen (Leads g.children)

/-- A type can be reached from a top-level. -/
def Reached (g : Graph) (id : TypeId) : Prop := ∃ t ∈ g.tops, g.Reaches t.type id

/-- The sentinel among the primitive types can be reached from a top-level. -/
def NoneReachable (g : Graph) : Prop := ∃ t ∈ g.tops, g.Reaches t.type Primitive.none.id

def isUnionAt (g : Graph) (id : TypeId) : Bool := ((g.node? id).map Node.isUnion).getD false

/-- One type is met when another is written: every type on the way is written in place. -/
def Shows (g : Graph) (declareUnions : Bool) : TypeId → TypeId → Prop :=
  ReflTransGen (Leads (g.lookThrough declareUnions))

/-- A declaration depends on another. -/
def Depends (g : Graph) (declareUnions : Bool) : TypeId → TypeId → Prop := Leads (g.dependencies declareUnions)

theorem isUnionAt_of_node? {id : TypeId} {n : Node} (h : g.node? id = some n) : g.isUnionAt id = n.isUnion := by
  rw [isUnionAt, h]
  rfl

theorem isUnionAt_iff {id : TypeId} :
    g.isUnionAt id = true ↔ ∃ hint members, g.node? id = some (.union hint members) := by
  unfold isUnionAt
  cases g.node? id with
  | none => simp
  | some n => cases n <;> simp [Node.isUnion]

theorem WellFormed.children_lt (h : g.WellFormed) {id c : TypeId} (hc : c ∈ g.children id) : c < g.size := by
  unfold children at hc
  split at hc
  case h_1 n hn => exact (h.fits id n hn).known c hc
  case h_2 => cases hc

theorem mem_children_of_mem_lookThrough {id c : TypeId} (hc : c ∈ g.lookThrough b id) : c ∈ g.children id := by
  unfold lookThrough at hc
  split at hc
  · cases hc
  · exact hc

theorem lookThrough_of_not_isDeclared {id : TypeId} (h : g.isDeclared b id = false) :
    g.lookThrough b id = g.children id := by
  rw [lookThrough, h]
  rfl

theorem Shows.reaches {a c : TypeId} (h : g.Shows b a c) : g.Reaches a c := by
  have hsub : Leads (g.lookThrough b) ≤ Leads g.children := fun _ _ hc => mem_children_of_mem_lookThrough hc
  exact ReflTransGen.mono hsub _ _ h

/-- Behind a declared type nothing is met. -/
theorem Shows.eq_of_isDeclared {a c : TypeId} (h : g.Shows b a c) (ha : g.isDeclared b a = true) : c = a := by
  rcases ReflTransGen.cases_head h with rfl | ⟨d, hd, _⟩
  · rfl
  · rw [Leads, lookThrough, if_pos ha] at hd
    cases hd

theorem Reached.child {id t : TypeId} (h : g.Reached id) (ht : t ∈ g.children id) : g.Reached t := by
  obtain ⟨top, htop, hreach⟩ := h
  exact ⟨top, htop, hreach.tail ht⟩

/-! ## Kinds of types -/

theorem isDeclared_iff {id : TypeId} :
    g.isDeclared b id = true ↔
      (∃ h ps, g.node? id = some (.record h ps)) ∨ (∃ h cs, g.node? id = some (.enum h cs)) ∨
        b = true ∧ (∃ h ms, g.node? id = some (.union h ms)) ∧ g.nullableInner? id = none := by
  unfold isDeclared
  split
  case h_1 hn => simp [hn]
  case h_2 hn => simp [hn]
  case h_3 hn => simp [hn]
  case h_4 h1 h2 h3 =>
    refine ⟨fun h => (by cases h), ?_⟩
    rintro (⟨h, ps, hn⟩ | ⟨h, cs, hn⟩ | ⟨-, ⟨h, ms, hn⟩, -⟩)
    · exact absurd hn (h1 h ps)
    · exact absurd hn (h2 h cs)
    · exact absurd hn (h3 h ms)

theorem isRecord_eq_false_of_not_isDeclared {id : TypeId} {n : Node} (hn : g.node? id = some n)
    (h : g.isDeclared b id = false) : n.isRecord = false := by
  cases n with
  | record hint ps => rw [isDeclared_iff.mpr (Or.inl ⟨hint, ps, hn⟩)] at h; cases h
  | _ => rfl

theorem lt_size_of_isDeclared {id : TypeId} (h : g.isDeclared b id = true) : id < g.size := by
  rcases isDeclared_iff.mp h with ⟨_, _, hn⟩ | ⟨_, _, hn⟩ | ⟨-, ⟨_, _, hn⟩, -⟩
  all_goals exact lt_size_of_node? hn

namespace WellFormed

/-- What is met behind a type that is written in place comes earlier. -/
theorem lookThrough_lt (h : g.WellFormed) {id c : TypeId} (hc : c ∈ g.lookThrough b id) : c < id := by
  unfold lookThrough at hc
  split at hc
  · cases hc
  · next hd =>
    unfold children at hc
    split at hc
    case h_1 n hn =>
      exact (h.fits id n hn).earlier (isRecord_eq_false_of_not_isDeclared hn (Bool.eq_false_of_not_eq_true hd)) c hc
    case h_2 => cases hc

theorem shows_le (h : g.WellFormed) {a c : TypeId} (hac : g.Shows b a c) : c ≤ a := by
  induction hac with
  | refl => exact Nat.le_refl a
  | tail _ hyz ih => exact (Nat.le_of_lt (h.lookThrough_lt hyz)).trans ih

theorem reaches_lt (h : g.WellFormed) {a c : TypeId} (ha : a < g.size) (hac : g.Reaches a c) : c < g.size := by
  rcases ReflTransGen.cases_tail hac with rfl | ⟨d, -, hd⟩
  · exact ha
  · exact h.children_lt hd

theorem reached_lt (h : g.WellFormed) {id : TypeId} (hid : g.Reached id) : id < g.size := by
  obtain ⟨top, htop, hreach⟩ := hid
  exact h.reaches_lt (h.tops top htop) hreach

/-! ## Declarations and dependencies -/

theorem top_lt (h : g.WellFormed) : ∀ s ∈ g.tops.map TopLevel.type, s < g.size := by
  intro s hs
  obtain ⟨t, ht, rfl⟩ := List.mem_map.mp hs
  exact h.tops t ht

theorem mem_reachable_iff (h : g.WellFormed) {id : TypeId} :
    id ∈ g.reachable ↔ g.Reached id := by
  rw [reachable, mem_preorder_iff h.top_lt fun y z hz => h.children_lt hz]
  constructor
  · rintro ⟨s, hs, hpath⟩
    obtain ⟨t, ht, rfl⟩ := List.mem_map.mp hs
    exact ⟨t, ht, hpath⟩
  · rintro ⟨t, ht, hpath⟩
    exact ⟨t.type, List.mem_map_of_mem ht, hpath⟩

theorem mem_marked_iff (h : g.WellFormed) {id : TypeId} : id ∈ g.marked ↔ g.Reached id := by
  rw [marked, mem_mark_iff (fun s hs => h.top_lt s (List.mem_reverse.mp hs)) fun y z hz => h.children_lt hz]
  simp [Reached, Reaches]

/-- The types to declare are the ones of a declared kind that can be reached. -/
theorem mem_declared_iff (h : g.WellFormed) {id : TypeId} :
    id ∈ g.declared b ↔ g.Reached id ∧ g.isDeclared b id = true := by
  rw [declared, List.mem_filter, h.mem_reachable_iff]

/-- A type depends on the declared types that are met when its parts are written. -/
theorem mem_dependencies_iff (h : g.WellFormed) {id d : TypeId} :
    d ∈ g.dependencies b id ↔ (∃ c ∈ g.children id, g.Shows b c d) ∧ g.isDeclared b d = true := by
  rw [dependencies, List.mem_filter, mem_preorder_iff (fun s hs => h.children_lt hs)
    fun y z hz => h.children_lt (mem_children_of_mem_lookThrough hz)]
  rfl

/-- What a declaration depends on is declared too. -/
theorem mem_declared_of_depends (h : g.WellFormed) {a d : TypeId} (ha : a ∈ g.declared b) (hd : g.Depends b a d) :
    d ∈ g.declared b := by
  obtain ⟨⟨t, ht, hta⟩, -⟩ := h.mem_declared_iff.mp ha
  obtain ⟨⟨c, hc, hcd⟩, hdecl⟩ := h.mem_dependencies_iff.mp hd
  exact h.mem_declared_iff.mpr ⟨⟨t, ht, (ReflTransGen.tail hta hc).trans hcd.reaches⟩, hdecl⟩

/-- A union depends on earlier types only. -/
theorem dependency_lt (h : g.WellFormed) {id d : TypeId} {hint : Bytes} {members : List TypeId}
    (hn : g.node? id = some (.union hint members)) (hd : g.Depends b id d) : d < id := by
  obtain ⟨⟨c, hc, hcd⟩, -⟩ := h.mem_dependencies_iff.mp hd
  rw [children_of_node? hn] at hc
  exact lt_of_le_of_lt (h.shows_le hcd) ((h.fits id _ hn).earlier rfl c hc)

end WellFormed

theorem nodup_declared : (g.declared b).Nodup := (nodup_preorder _ _).filter _

theorem declared_knot : knot.declared true = [11, 10, 12] := by
  cbv

theorem not_noneReachable_knot : ¬ knot.NoneReachable := by
  rintro ⟨top, htop, hreach⟩
  have hmem := built_knot.wellFormed.mem_reachable_iff.mpr ⟨top, htop, hreach⟩
  have hlist : knot.reachable = [11, 10, 12, 6, 4] := by cbv
  rw [hlist] at hmem
  exact absurd hmem (by decide)

end Graph

end Typewright
