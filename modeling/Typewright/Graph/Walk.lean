import Typewright.Graph.Basic

/-!
# Walks through a graph

Walks over numbers below a bound, along a list of successors for each number. They end because a number is
entered once.

* `preorder`: each number as it is entered.
* `mark`: the numbers that are entered, in no order that matters.
* `postorder`: each number when all its successors are done, and the edges that lead back to a number
  that is not done yet.
-/

namespace Typewright

/-- How many numbers below a bound are not in a list. -/
def unseen (bound : Nat) (seen : List Nat) : Nat := ((List.range bound).filter (· ∉ seen)).length

theorem unseen_cons_lt {bound id : Nat} {seen : List Nat} (h : id < bound) (h' : id ∉ seen) :
    unseen bound (id :: seen) < unseen bound seen := by
  have hsub : (List.range bound).filter (· ∉ id :: seen) =
      ((List.range bound).filter (· ∉ seen)).filter (· ≠ id) := by
    rw [List.filter_filter]
    exact List.filter_congr fun x _ => by simp
  unfold unseen
  rw [hsub]
  refine List.length_filter_lt_length_iff_exists.mpr ⟨id, ?_, by simp⟩
  simp [h, h']

theorem unseen_congr {bound : Nat} {seen seen' : List Nat} (h : ∀ x, x ∈ seen ↔ x ∈ seen') :
    unseen bound seen = unseen bound seen' := by
  unfold unseen
  exact congrArg List.length (List.filter_congr fun x _ => by simp [h])

/-! ## Pre-order -/

/-- The numbers below `bound` that can be reached from `stack` without passing through `seen`, in the
order in which they are entered; the top of the stack is entered first. -/
def preorder (next : Nat → List Nat) (bound : Nat) (seen stack : List Nat) : List Nat :=
  match stack with
  | [] => []
  | id :: rest =>
    if id ∈ seen ∨ bound ≤ id then preorder next bound seen rest
    else id :: preorder next bound (id :: seen) (next id ++ rest)
termination_by (unseen bound seen, stack.length)
decreasing_by
  · exact Prod.Lex.right _ (by simp)
  · exact Prod.Lex.left _ _ (unseen_cons_lt (by omega) (by simp_all))

/-! ## Marking -/

/-- Marks the numbers below `bound` that can be reached from `work` without passing through `marks`. The
successors of a number are put on top of the rest one by one, so that the last of them is looked at next. -/
def mark (next : Nat → List Nat) (bound : Nat) (marks work : List Nat) : List Nat :=
  match work with
  | [] => marks
  | id :: rest =>
    if id ∈ marks ∨ bound ≤ id then mark next bound marks rest
    else mark next bound (id :: marks) ((next id).reverse ++ rest)
termination_by (unseen bound marks, work.length)
decreasing_by
  · exact Prod.Lex.right _ (by simp)
  · exact Prod.Lex.left _ _ (unseen_cons_lt (by omega) (by simp_all))

/-! ## Post-order -/

/-- A number that was entered, and its successors that are still to be looked at. -/
structure Frame where
  id : Nat
  pending : List Nat

/-- The numbers in the order in which they were done, and the edges that led back. -/
structure Finished where
  order : List Nat
  backEdges : List (Nat × Nat)
  deriving DecidableEq, Repr

/-- What is left to do: frames and the successors in them. -/
def Frame.work (stack : List Frame) : Nat := (stack.flatMap Frame.pending).length + stack.length

/-- Enters `roots` in turn. `stack` holds the numbers that were entered and are not done, the latest first;
`done` and `back` hold what was found so far, the latest first. -/
def postorder (next : Nat → List Nat) (bound : Nat) (roots : List Nat) (stack : List Frame)
    (done : List Nat) (back : List (Nat × Nat)) : Finished :=
  match stack with
  | [] =>
    match roots with
    | [] => ⟨done.reverse, back.reverse⟩
    | r :: roots =>
      if r ∈ done ∨ bound ≤ r then postorder next bound roots [] done back
      else postorder next bound roots [⟨r, next r⟩] done back
  | ⟨id, []⟩ :: stack => postorder next bound roots stack (id :: done) back
  | ⟨id, d :: pending⟩ :: stack =>
    -- An edge to a number that was entered and is not done closes a cycle.
    if d = id ∨ d ∈ stack.map Frame.id then
      postorder next bound roots (⟨id, pending⟩ :: stack) done ((id, d) :: back)
    else if d ∈ done ∨ bound ≤ d then postorder next bound roots (⟨id, pending⟩ :: stack) done back
    else postorder next bound roots (⟨d, next d⟩ :: ⟨id, pending⟩ :: stack) done back
termination_by (unseen bound (stack.map Frame.id ++ done), roots.length + Frame.work stack)
decreasing_by
  · exact Prod.Lex.right _ (by simp [Frame.work])
  · exact Prod.Lex.left _ _ (unseen_cons_lt (by dsimp only; omega) (by simp_all))
  · have h : unseen bound (stack.map Frame.id ++ id :: done) =
        unseen bound ((⟨id, []⟩ :: stack : List Frame).map Frame.id ++ done) :=
      unseen_congr fun x => by simp; grind
    rw [h]
    exact Prod.Lex.right _ (by simp [Frame.work])
  · exact Prod.Lex.right _ (by simp [Frame.work])
  · exact Prod.Lex.right _ (by simp [Frame.work])
  · exact Prod.Lex.left _ _ (unseen_cons_lt (by dsimp only; omega) (by simp_all))

end Typewright
