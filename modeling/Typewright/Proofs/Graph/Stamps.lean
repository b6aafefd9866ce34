import Typewright.Proofs.Graph.Order
import Typewright.Proofs.Graph.Search

/-!
# One walker for the dependencies of many types

The dependencies of many types can be searched by one walker. It marks what it meets with the number of its walk, and
never clears these stamps.

* `DependencyWalker` : the stamps and the number of the walk; `DependencyWalker.walk` : a walk;
* `DependencyWalker.Marks` : a type carries the stamp of the walk just if the walk has met it;
* `DependencyWalker.Aged` : what earlier walks have left behind is older;
* `DependencyWalker.lists_eq` : so a walker finds what a walk of its own finds for each type;
* `Graph.Built.dependencies_exact` : and these are the declared types behind types that are written in place.
-/

namespace Typewright

open Relation

/-- A walker. A type that is written in place carries the number of the last walk that looked through it, and a declared
type that of the last walk that noted it. -/
structure DependencyWalker where
  generation : UInt32
  walked : Array UInt32
  added : Array UInt32

namespace DependencyWalker

def start (g : Graph) : DependencyWalker := ⟨0, Array.replicate g.size 0, Array.replicate g.size 0⟩

theorem countP_setIfInBounds_lt {stamps : Array UInt32} {t : TypeId} {gen : UInt32} (h : stamps.getD t gen ≠ gen) :
    (stamps.setIfInBounds t gen).countP (· != gen) < stamps.countP (· != gen) := by
  have ht : t < stamps.size := by
    by_contra hle
    exact h (by simp [Array.getD, hle])
  have hold : (stamps[t] != gen) = true := by simpa [Array.getD, ht] using h
  have hpos : 0 < stamps.countP (· != gen) := Array.countP_pos_iff.mpr ⟨stamps[t], Array.getElem_mem ht, hold⟩
  rw [Array.setIfInBounds_def, dif_pos ht, Array.countP_set ht, if_pos hold]
  simp only [bne_self_eq_false, Bool.false_eq_true, if_false]
  omega

/-- Walks on with a stack of types, after the dependencies `deps`. A number outside the graph counts as met. -/
def walk (g : Graph) (declareUnions : Bool) (w : DependencyWalker) (deps stack : List TypeId) :
    List TypeId × DependencyWalker :=
  match stack with
  | [] => (deps, w)
  | t :: stack =>
    if g.isDeclared declareUnions t then
      if w.added.getD t w.generation = w.generation then walk g declareUnions w deps stack
      else walk g declareUnions { w with added := w.added.setIfInBounds t w.generation } (deps ++ [t]) stack
    else if w.walked.getD t w.generation = w.generation then walk g declareUnions w deps stack
    else walk g declareUnions { w with walked := w.walked.setIfInBounds t w.generation } deps (g.children t ++ stack)
termination_by (w.walked.countP (· != w.generation), stack.length)
decreasing_by
  · exact Prod.Lex.right _ (by simp)
  · exact Prod.Lex.right _ (by simp)
  · exact Prod.Lex.right _ (by simp)
  · exact Prod.Lex.left _ _ (countP_setIfInBounds_lt (by assumption))

/-- The dependencies of a type, and the walker after the walk. -/
def dependenciesOf (g : Graph) (declareUnions : Bool) (w : DependencyWalker) (id : TypeId) :
    List TypeId × DependencyWalker :=
  walk g declareUnions { w with generation := w.generation + 1 } [] (g.children id)

/-- Enters the dependencies of one more type into the lists. -/
def enter (g : Graph) (declareUnions : Bool) (state : Array (List TypeId) × DependencyWalker) (id : TypeId) :
    Array (List TypeId) × DependencyWalker :=
  let (deps, w) := state.2.dependenciesOf g declareUnions id
  (state.1.setIfInBounds id deps, w)

/-- For each number of a type its dependencies if it is one of `ids`. One walker searches them all. -/
def lists (g : Graph) (declareUnions : Bool) (ids : List TypeId) : Array (List TypeId) :=
  (ids.foldl (enter g declareUnions) (Array.replicate g.size [], start g)).1

/-! ## A walk -/

section

variable {g : Graph} {b : Bool} {w : DependencyWalker} {seen : List TypeId} {t : TypeId}

/-- The stamp that tells whether a type was met. -/
def stamp (g : Graph) (declareUnions : Bool) (w : DependencyWalker) (t : TypeId) : UInt32 :=
  (if g.isDeclared declareUnions t then w.added else w.walked).getD t w.generation

/-- What carries the stamp of the walk is what the walk has met. -/
structure Marks (g : Graph) (declareUnions : Bool) (w : DependencyWalker) (seen : List TypeId) : Prop where
  walked_size : w.walked.size = g.size
  added_size : w.added.size = g.size
  met : ∀ t, stamp g declareUnions w t = w.generation ↔ t ∈ seen ∨ g.size ≤ t

theorem getD_setIfInBounds {stamps : Array UInt32} {gen : UInt32} {x : TypeId} :
    (stamps.setIfInBounds t gen).getD x gen = if x = t then gen else stamps.getD x gen := by
  rw [Array.getD_eq_getD_getElem?, Array.getD_eq_getD_getElem?, Array.getElem?_setIfInBounds]
  by_cases hx : x = t
  · subst hx
    by_cases hlt : x < stamps.size
    · simp [hlt]
    · simp [hlt]
  · simp [hx, Ne.symm hx]

/-- One more type gets the stamp of the walk. -/
theorem Marks.cons {w' : DependencyWalker} (h : Marks g b w seen) (hgen : w'.generation = w.generation)
    (hwalked : w'.walked.size = w.walked.size) (hadded : w'.added.size = w.added.size)
    (hstamp : ∀ x, stamp g b w' x = if x = t then w.generation else stamp g b w x) : Marks g b w' (t :: seen) := by
  refine ⟨hwalked.trans h.walked_size, hadded.trans h.added_size, fun x => ?_⟩
  rw [hgen, hstamp, List.mem_cons, or_assoc, ← h.met x]
  by_cases hx : x = t
  · simp [hx]
  · simp [hx]

/-- A declared type is noted. -/
theorem Marks.noted (h : Marks g b w seen) (ht : g.isDeclared b t = true) :
    Marks g b { w with added := w.added.setIfInBounds t w.generation } (t :: seen) := by
  refine h.cons rfl rfl Array.size_setIfInBounds fun x => ?_
  unfold stamp
  by_cases hdecl : g.isDeclared b x = true
  · rw [if_pos hdecl, if_pos hdecl, getD_setIfInBounds]
  · have hx : x ≠ t := fun hx => hdecl (hx ▸ ht)
    rw [if_neg hdecl, if_neg hdecl, if_neg hx]

/-- A type that is written in place is looked through. -/
theorem Marks.lookedThrough (h : Marks g b w seen) (ht : ¬ g.isDeclared b t = true) :
    Marks g b { w with walked := w.walked.setIfInBounds t w.generation } (t :: seen) := by
  refine h.cons rfl Array.size_setIfInBounds rfl fun x => ?_
  unfold stamp
  by_cases hdecl : g.isDeclared b x = true
  · have hx : x ≠ t := fun hx => ht (hx ▸ hdecl)
    rw [if_pos hdecl, if_pos hdecl, if_neg hx]
  · rw [if_neg hdecl, if_neg hdecl, getD_setIfInBounds]

/-- **A walk goes on as the pre-order walk** from what it has met, and notes what is declared. -/
theorem Marks.walk_eq (h : Marks g b w seen) (deps stack : List TypeId) :
    (walk g b w deps stack).1 =
      deps ++ (preorder (g.lookThrough b) g.size seen stack).filter (g.isDeclared b) := by
  induction seen, stack using preorder.induct (g.lookThrough b) g.size generalizing w deps with
  | case1 seen => rw [walk, preorder, List.filter_nil, List.append_nil]
  | case2 seen t rest hskip ih =>
    have hstamp := (h.met t).mpr hskip
    unfold stamp at hstamp
    rw [walk, preorder, if_pos hskip]
    by_cases hdecl : g.isDeclared b t = true
    · rw [if_pos hdecl] at hstamp ⊢
      rw [if_pos hstamp, ih h]
    · rw [if_neg hdecl] at hstamp ⊢
      rw [if_pos hstamp, ih h]
  | case3 seen t rest hskip ih =>
    have hstamp : ¬ stamp g b w t = w.generation := fun hs => hskip ((h.met t).mp hs)
    unfold stamp at hstamp
    rw [walk, preorder, if_neg hskip]
    by_cases hdecl : g.isDeclared b t = true
    · have hbehind : g.lookThrough b t = [] := if_pos hdecl
      rw [hbehind, List.nil_append] at ih ⊢
      rw [if_pos hdecl] at hstamp ⊢
      rw [if_neg hstamp, ih (h.noted hdecl), List.filter_cons, if_pos hdecl, List.append_assoc]
      rfl
    · have hbehind : g.lookThrough b t = g.children t := if_neg hdecl
      rw [if_neg hdecl] at hstamp ⊢
      rw [if_neg hstamp, List.filter_cons, if_neg hdecl, ← hbehind, ih (h.lookedThrough hdecl)]

end

/-! ## One walk after the other -/

section

variable {g : Graph} {b : Bool} {w : DependencyWalker} {n : Nat}

/-- All stamps are from the first `n` walks. -/
def Old (n : Nat) (stamps : Array UInt32) : Prop := ∀ s ∈ stamps, s.toNat ≤ n

/-- A walker has made `n` walks. -/
structure Aged (g : Graph) (n : Nat) (w : DependencyWalker) : Prop where
  generation : w.generation.toNat = n
  walked_size : w.walked.size = g.size
  added_size : w.added.size = g.size
  walked : Old n w.walked
  added : Old n w.added

theorem aged_start (g : Graph) : Aged g 0 (start g) := by
  have hold : Old 0 (Array.replicate g.size 0) := by
    intro s hs
    rw [Array.eq_of_mem_replicate hs]
    exact Nat.le_refl 0
  exact ⟨rfl, Array.size_replicate, Array.size_replicate, hold, hold⟩

theorem Old.set {stamps : Array UInt32} (h : Old n stamps) (t : TypeId) {gen : UInt32} (hgen : gen.toNat ≤ n) :
    Old n (stamps.setIfInBounds t gen) := by
  intro s hs
  rcases Array.mem_or_eq_of_mem_setIfInBounds hs with hs | rfl
  · exact h s hs
  · exact hgen

theorem Aged.walk (h : Aged g n w) (deps stack : List TypeId) : Aged g n (walk g b w deps stack).2 := by
  induction w, deps, stack using DependencyWalker.walk.induct g b with
  | case1 w deps =>
    rw [DependencyWalker.walk]
    exact h
  | case2 w deps t stack hdecl hmet ih =>
    rw [DependencyWalker.walk, if_pos hdecl, if_pos hmet]
    exact ih h
  | case3 w deps t stack hdecl hmet ih =>
    rw [DependencyWalker.walk, if_pos hdecl, if_neg hmet]
    exact ih ⟨h.generation, h.walked_size, by rw [Array.size_setIfInBounds, h.added_size], h.walked,
      h.added.set t h.generation.le⟩
  | case4 w deps t stack hdecl hmet ih =>
    rw [DependencyWalker.walk, if_neg hdecl, if_pos hmet]
    exact ih h
  | case5 w deps t stack hdecl hmet ih =>
    rw [DependencyWalker.walk, if_neg hdecl, if_neg hmet]
    exact ih ⟨h.generation, by rw [Array.size_setIfInBounds, h.walked_size], h.added_size,
      h.walked.set t h.generation.le, h.added⟩

theorem Old.ne {stamps : Array UInt32} (h : Old n stamps) {gen : UInt32} (hgen : n < gen.toNat) {t : TypeId}
    (ht : t < stamps.size) : stamps.getD t gen ≠ gen := by
  intro heq
  rw [Array.getD, dif_pos ht] at heq
  have hle := h stamps[t] (Array.getElem_mem ht)
  have heq' : stamps[t] = gen := heq
  rw [heq'] at hle
  omega

/-- As long as the numbers of walks last, a new walk has met nothing. -/
theorem Aged.marks (h : Aged g n w) (hn : n + 1 < UInt32.size) :
    Aged g (n + 1) { w with generation := w.generation + 1 } ∧ Marks g b { w with generation := w.generation + 1 } [] := by
  have hgen : (w.generation + 1).toNat = n + 1 := by
    rw [UInt32.toNat_add, h.generation]
    exact Nat.mod_eq_of_lt hn
  have hlt : n < (w.generation + 1).toNat := by omega
  refine ⟨⟨hgen, h.walked_size, h.added_size, fun s hs => (h.walked s hs).trans (Nat.le_succ n),
    fun s hs => (h.added s hs).trans (Nat.le_succ n)⟩, h.walked_size, h.added_size, fun t => ?_⟩
  simp only [List.not_mem_nil, false_or]
  unfold stamp
  by_cases ht : g.size ≤ t
  · refine ⟨fun _ => ht, fun _ => ?_⟩
    split
    · exact dif_neg (by rw [h.added_size]; omega)
    · exact dif_neg (by rw [h.walked_size]; omega)
  · refine ⟨fun heq => absurd heq ?_, fun hle => absurd hle ht⟩
    split
    · exact h.added.ne hlt (h.added_size ▸ Nat.lt_of_not_le ht)
    · exact h.walked.ne hlt (h.walked_size ▸ Nat.lt_of_not_le ht)

/-- What a walker finds does not depend on the walks that it has made before. -/
theorem Aged.dependenciesOf (h : Aged g n w) (hn : n + 1 < UInt32.size) (id : TypeId) :
    (w.dependenciesOf g b id).1 = g.dependencies b id ∧ Aged g (n + 1) (w.dependenciesOf g b id).2 := by
  obtain ⟨haged, hmarks⟩ := h.marks (b := b) hn
  exact ⟨hmarks.walk_eq [] (g.children id), haged.walk [] (g.children id)⟩

theorem Aged.foldl_enter (h : Aged g n w) {ids : List TypeId} (hn : n + ids.length < UInt32.size)
    (found : Array (List TypeId)) :
    (ids.foldl (enter g b) (found, w)).1 =
      ids.foldl (fun lists id => lists.setIfInBounds id (g.dependencies b id)) found := by
  induction ids generalizing n w found with
  | nil => rfl
  | cons id ids ih =>
    rw [List.length_cons] at hn
    obtain ⟨hdeps, haged⟩ := h.dependenciesOf (b := b) (by omega) id
    rw [List.foldl_cons, List.foldl_cons, ← hdeps]
    exact ih haged (by omega) _

theorem lists_eq {ids : List TypeId} (hn : ids.length < UInt32.size) : lists g b ids = g.dependencyLists b ids :=
  (aged_start g).foldl_enter (by omega) _

end

end DependencyWalker

/-! ## Exactness -/

namespace Graph

variable {g : Graph} {b : Bool}

/-- A type leads to another by one reference or more, and the types on the way are written in place. -/
inductive Via (g : Graph) (declareUnions : Bool) : TypeId → TypeId → Prop where
  | direct {a c : TypeId} : c ∈ g.children a → Via g declareUnions a c
  | through {a c d : TypeId} :
    Via g declareUnions a c → g.isDeclared declareUnions c = false → d ∈ g.children c → Via g declareUnions a d

theorem via_iff {a d : TypeId} : g.Via b a d ↔ ∃ c ∈ g.children a, g.Shows b c d := by
  constructor
  · intro h
    induction h with
    | direct hc => exact ⟨_, hc, .refl⟩
    | through _ hdecl hd ih =>
      obtain ⟨c, hc, hshows⟩ := ih
      refine ⟨c, hc, hshows.tail ?_⟩
      rw [Leads, lookThrough_of_not_isDeclared hdecl]
      exact hd
  · rintro ⟨c, hc, hshows⟩
    induction hshows with
    | refl => exact .direct hc
    | @tail x y _ hd ih =>
      cases hdecl : g.isDeclared b x with
      | true =>
        rw [Leads, lookThrough, if_pos hdecl] at hd
        cases hd
      | false => exact .through ih hdecl (mem_children_of_mem_lookThrough hd)

theorem getElem?_dependencyLists (ids : List TypeId) {id : TypeId} (hid : id < g.size) :
    (g.dependencyLists b ids)[id]? = some (if id ∈ ids then g.dependencies b id else []) := by
  have hlt : id < (g.dependencyLists b ids).size := by rwa [size_dependencyLists]
  have hget : (g.dependencyLists b ids).getD id [] = if id ∈ ids then g.dependencies b id else [] := by
    rw [dependencyLists, getD_foldl_setIfInBounds]
    simp [hid, Array.getD_eq_getD_getElem?]
  rw [← hget, Array.getD, dif_pos hlt]
  exact Array.getElem?_eq_getElem hlt

/-- **Dependencies are exact.** The dependencies of a type are the declared types that it leads to through types that
are written in place. Each is there once, in the order in which a recursive search enters them. A walker of their own
finds them, and so does one walker for many types, for which the dependencies of these types are listed and no others. -/
theorem Built.dependencies_exact (hg : g.Built) (b : Bool) :
    (∀ id < g.size,
      g.dependencies b id = (search (g.lookThrough b) g.size [] (g.children id)).filter (g.isDeclared b) ∧
        (g.dependencies b id).Nodup ∧
        (∀ d, d ∈ g.dependencies b id ↔ g.Via b id d ∧ g.isDeclared b d = true) ∧
        ((DependencyWalker.start g).dependenciesOf g b id).1 = g.dependencies b id) ∧
      ∀ ids : List TypeId, (∀ id ∈ ids, id < g.size) → ids.length < UInt32.size →
        DependencyWalker.lists g b ids = g.dependencyLists b ids ∧
          (g.dependencyLists b ids).size = g.size ∧
          (∀ id ∈ ids, (g.dependencyLists b ids)[id]? = some (g.dependencies b id)) ∧
          ∀ id < g.size, id ∉ ids → (g.dependencyLists b ids)[id]? = some [] := by
  refine ⟨fun id _ => ⟨?_, (nodup_preorder _ _).filter _, fun d => ?_, ?_⟩,
    fun ids hids hlen => ⟨DependencyWalker.lists_eq hlen, size_dependencyLists ids, fun id hid => ?_,
      fun id hid hnot => ?_⟩⟩
  · rw [dependencies, preorder_eq_search]
  · rw [hg.wellFormed.mem_dependencies_iff, via_iff]
  · exact ((DependencyWalker.aged_start g).dependenciesOf (by decide) id).1
  · rw [getElem?_dependencyLists ids (hids id hid), if_pos hid]
  · rw [getElem?_dependencyLists ids hid, if_neg hnot]

/-- If the unions of the knot are written in place, its class leads through both of them back to itself. The walker meets
them again in each of three walks. -/
theorem knot_dependencies_exact :
    knot.Built ∧ (DependencyWalker.lists knot false [12, 10, 12])[10]? = some [10] ∧
      (DependencyWalker.lists knot false [12, 10, 12])[11]? = some [] ∧
      (DependencyWalker.lists knot false [12, 10, 12])[12]? = some [10] := by
  have hids : ∀ id ∈ [12, 10, 12], id < knot.size := by decide
  obtain ⟨hlists, -, hlisted, hother⟩ := (built_knot.dependencies_exact false).2 [12, 10, 12] hids (by decide)
  have h₁ : knot.dependencies false 10 = [10] := by cbv
  have h₂ : knot.dependencies false 12 = [10] := by cbv
  rw [hlists, hlisted 10 (by decide), hlisted 12 (by decide), hother 11 (by decide) (by decide), h₁, h₂]
  exact ⟨built_knot, rfl, rfl, rfl⟩

end Graph

end Typewright
