import Typewright.Description.Resolve
import Typewright.Proofs.Graph.Extension

/-!
# Members of unions

* `unionHint` : the hint of a union, which its members give if it has no name;
* `memberHint_congr` : what a member adds to a hint depends on the types before it only, and not on the properties of
  classes.
-/

namespace Typewright

namespace Graph

/-! ## Hints -/

/-- The hint of a union; without a name the members give one. -/
def unionHint (g : Graph) (hint : Bytes) (ids : List TypeId) : Bytes :=
  if hint.isEmpty then Bytes.join (Bytes.ascii "_or_") (ids.map g.memberHint) else hint

end Graph

/-- A type without the properties of a class. -/
def Node.bare : Node → Node
  | .record hint _ => .record hint []
  | n => n

namespace Graph

variable {g g' : Graph}

theorem memberHint_congr {id : TypeId} (h : ∀ i ≤ id, (g'.node? i).map Node.bare = (g.node? i).map Node.bare) :
    g'.memberHint id = g.memberHint id := by
  induction id using Nat.strong_induction_on with
  | _ id ih =>
    have hinside : ∀ t, (if t < id then g'.memberHint t else []) = if t < id then g.memberHint t else [] := by
      intro t
      split
      · rename_i ht
        exact ih t ht fun i hi => h i (Nat.le_trans hi (Nat.le_of_lt ht))
      · rfl
    have hid := h id (Nat.le_refl id)
    rw [memberHint, memberHint]
    cases hn : g.node? id with
    | none =>
      rw [hn, Option.map_none, Option.map_eq_none_iff] at hid
      rw [hid]
    | some n =>
      rw [hn, Option.map_some, Option.map_eq_some_iff] at hid
      obtain ⟨n', hn', hbare⟩ := hid
      rw [hn']
      cases n <;> cases n' <;> simp only [Node.bare, reduceCtorEq] at hbare <;> cases hbare <;>
        simp only [hinside, Node.hint]

theorem Extends.memberHint_eq (h : g.Extends g') {id : TypeId} (hid : id < g.size) :
    g'.memberHint id = g.memberHint id := by
  refine memberHint_congr fun i hi => ?_
  obtain ⟨n, hn⟩ := exists_node? (Nat.lt_of_le_of_lt hi hid)
  rw [hn, h.node? i n hn]

/-- Only the properties of a class change. -/
theorem bare_putProperties (g : Graph) (id : TypeId) (ps : List Property) (i : TypeId) :
    ((g.putProperties id ps).node? i).map Node.bare = (g.node? i).map Node.bare := by
  by_cases h : ∃ hint old, g.node? id = some (.record hint old)
  · obtain ⟨hint, old, hid⟩ := h
    rw [node?_putProperties hid]
    split
    · rename_i heq
      rw [heq, hid]
      rfl
    · rfl
  · unfold putProperties
    split
    · rename_i hint old hid
      exact absurd ⟨hint, old, hid⟩ h
    · rfl

theorem unionHint_congr {hint : Bytes} {ids : List TypeId} (h : ∀ id ∈ ids, g'.memberHint id = g.memberHint id) :
    g'.unionHint hint ids = g.unionHint hint ids := by
  unfold unionHint
  rw [List.map_congr_left h]

end Graph

end Typewright
