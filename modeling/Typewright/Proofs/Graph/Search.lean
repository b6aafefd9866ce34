import Typewright.Proofs.Graph.Reach

/-!
# The walk is a recursive search

The walk keeps one stack, on which a number may stand several times and long after it was entered.

* `search` : depth-first search by recursion;
* `preorder_append` : the walk is done with the front of its stack, and all that this leads to, before it takes the rest;
* `preorder_eq_search` : so it enters the numbers in the order of the recursive search;
* `Graph.Built.declared_in_search_order` : the types to declare come in the order in which a search from the top-levels
  enters them.
-/

namespace Typewright

open Relation

theorem unseen_append_le (bound : Nat) (l seen : List Nat) : unseen bound (l ++ seen) ≤ unseen bound seen := by
  unfold unseen
  refine List.Sublist.length_le (List.monotone_filter_right _ fun x hx => ?_)
  simp only [List.mem_append, not_or, Bool.decide_and, Bool.and_eq_true, decide_eq_true_eq] at hx ⊢
  exact hx.2

/-- The numbers in the order in which a recursive search enters them. It goes through `ids` in turn: what was seen
before, or is out of bounds, is passed over; any other number is entered, and what it leads to is searched before the
next one. -/
def search (next : Nat → List Nat) (bound : Nat) (seen ids : List Nat) : List Nat :=
  match ids with
  | [] => []
  | id :: ids =>
    if id ∈ seen ∨ bound ≤ id then search next bound seen ids
    else
      let below := search next bound (id :: seen) (next id)
      id :: (below ++ search next bound (below ++ id :: seen) ids)
termination_by (unseen bound seen, ids.length)
decreasing_by
  · exact Prod.Lex.right _ (by simp)
  · exact Prod.Lex.left _ _ (unseen_cons_lt (by omega) (by simp_all))
  · rename_i hskip
    have hcons := unseen_cons_lt (Nat.lt_of_not_le fun h => hskip (Or.inr h)) fun h => hskip (Or.inl h)
    exact Prod.Lex.left _ _ ((unseen_append_le bound below (id :: seen)).trans_lt hcons)

section

variable {next : Nat → List Nat} {bound : Nat}

/-- Which numbers were seen matters to the walk, and not in which order. -/
theorem preorder_congr {seen seen' : List Nat} (h : ∀ x, x ∈ seen ↔ x ∈ seen') (stack : List Nat) :
    preorder next bound seen stack = preorder next bound seen' stack := by
  induction seen, stack using preorder.induct next bound generalizing seen' with
  | case1 seen => rw [preorder, preorder]
  | case2 seen id rest hskip ih =>
    have hskip' : id ∈ seen' ∨ bound ≤ id := hskip.imp_left (h id).mp
    rw [preorder, if_pos hskip, preorder, if_pos hskip', ih h]
  | case3 seen id rest hskip ih =>
    have hskip' : ¬ (id ∈ seen' ∨ bound ≤ id) := fun h' => hskip (h'.imp_left (h id).mpr)
    have hcons : ∀ x, x ∈ id :: seen ↔ x ∈ id :: seen' := fun x => by simp only [List.mem_cons, h]
    rw [preorder, if_neg hskip, preorder, if_neg hskip', ih hcons]

/-- The front of the stack is done before the rest, which is then walked with all that was entered as seen. -/
theorem preorder_append (seen xs ys : List Nat) :
    preorder next bound seen (xs ++ ys) =
      preorder next bound seen xs ++ preorder next bound (preorder next bound seen xs ++ seen) ys := by
  induction seen, xs using preorder.induct next bound with
  | case1 seen => rw [preorder, List.nil_append, List.nil_append, List.nil_append]
  | case2 seen id rest hskip ih =>
    rw [List.cons_append, preorder, if_pos hskip, preorder, if_pos hskip, ih]
  | case3 seen id rest hskip ih =>
    have hseen : ∀ l : List Nat, ∀ x, x ∈ l ++ id :: seen ↔ x ∈ id :: l ++ seen := by
      intro l x
      simp only [List.cons_append, List.mem_append, List.mem_cons]
      exact or_left_comm
    rw [List.cons_append, preorder, if_neg hskip, preorder, if_neg hskip, ← List.append_assoc, ih, List.cons_append,
      preorder_congr (hseen _)]

/-- **The walk over a stack enters numbers in the order of the recursive search.** -/
theorem preorder_eq_search (seen ids : List Nat) : preorder next bound seen ids = search next bound seen ids := by
  induction seen, ids using search.induct next bound with
  | case1 seen => rw [preorder, search]
  | case2 seen id ids hskip ih => rw [preorder, if_pos hskip, search, if_pos hskip, ih]
  | case3 seen id ids hskip below ih ihs =>
    have hbelow : preorder next bound (id :: seen) (next id) = below := ih
    rw [preorder, if_neg hskip, search, if_neg hskip, preorder_append, hbelow, ihs]

end

namespace Graph

variable {g : Graph} {b : Bool}

/-- **The types to declare come in the order of a recursive search** from the top-levels. So each declared type that can
be reached is there once, and nothing else. -/
theorem Built.declared_in_search_order (hg : g.Built) (b : Bool) :
    g.declared b = (search g.children g.size [] (g.tops.map TopLevel.type)).filter (g.isDeclared b) ∧
      (g.declared b).Nodup ∧
      ∀ id, id ∈ g.declared b ↔ (∃ t ∈ g.tops, ReflTransGen (Leads g.children) t.type id) ∧ g.isDeclared b id = true := by
  refine ⟨?_, nodup_declared, fun id => hg.wellFormed.mem_declared_iff⟩
  rw [declared, reachable, preorder_eq_search]

/-- The search through the knot enters a union, the class in it, and the union that this refers to, from where it is led
back to the first. -/
theorem knot_declared_in_search_order :
    knot.Built ∧
      (search knot.children knot.size [] (knot.tops.map TopLevel.type)).filter (knot.isDeclared true) = [11, 10, 12] := by
  refine ⟨built_knot, ?_⟩
  rw [← (built_knot.declared_in_search_order true).1]
  exact declared_knot

end Graph

end Typewright
