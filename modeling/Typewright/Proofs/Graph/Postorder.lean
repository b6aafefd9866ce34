import Typewright.Proofs.Graph.Reach

/-!
# What the post-order walk leaves behind

* `Precedes l a b` : `a` stands before `b` in `l`;
* `Suspended`, `Searching` : the invariant of the walk. The numbers that were entered and are not done form a
  path; a successor that was looked at is done, or is on that path and was noted as a back edge, or is the number
  entered last;
* `Sorted next ids f` : the result of the walk over `ids`;
* `Sorted.of_searching` : what each step keeps, a whole walk keeps;
* `Sorted.exists_backEdge_iff` : there is a back edge just if there is a cycle.
-/

namespace Typewright

open Relation

/-- `a` stands before `b` in a list. -/
def Precedes (l : List Nat) (a b : Nat) : Prop := ∃ l₁ l₂, l = l₁ ++ b :: l₂ ∧ a ∈ l₁

/-- What is known of each number that was entered and is not done. `above` is the number entered after it. -/
def Suspended (next : Nat → List Nat) (done : List Nat) (back : List (Nat × Nat)) :
    Option Nat → List Frame → Prop
  | _, [] => True
  | above, f :: stack =>
    (∃ looked, next f.id = looked ++ f.pending ∧ (∀ u, above = some u → u ∈ looked) ∧
      ∀ d ∈ looked, d ∈ done ∨ (f.id, d) ∈ back ∨ above = some d) ∧
    Suspended next done back (some f.id) stack

/-- The invariant of the walk over `ids`, of which `roots` are still to be tried. -/
structure Searching (next : Nat → List Nat) (ids roots : List Nat) (stack : List Frame) (done : List Nat)
    (back : List (Nat × Nat)) : Prop where
  nodup : (stack.map Frame.id ++ done).Nodup
  known : ∀ x ∈ stack.map Frame.id ++ done, x ∈ ids
  covered : ∀ x ∈ ids, x ∈ roots ∨ x ∈ stack.map Frame.id ++ done
  suspended : Suspended next done back none stack
  closed : ∀ l₁ a l₂, done = l₁ ++ a :: l₂ → ∀ d ∈ next a, d ∈ l₂ ∨ (a, d) ∈ back
  cyclic : ∀ a d, (a, d) ∈ back → a ∈ ids ∧ d ∈ next a ∧ ReflTransGen (Leads next) d a

/-- What the walk over `ids` returns: the numbers in an order in which a successor comes first unless it closes a
cycle, and the edges that do. -/
structure Sorted (next : Nat → List Nat) (ids : List Nat) (f : Finished) : Prop where
  nodup : f.order.Nodup
  mem_iff : ∀ x, x ∈ f.order ↔ x ∈ ids
  closed : ∀ l₁ a l₂, f.order = l₁ ++ a :: l₂ → ∀ d ∈ next a, d ∈ l₁ ∨ (a, d) ∈ f.backEdges
  cyclic : ∀ a d, (a, d) ∈ f.backEdges → a ∈ ids ∧ d ∈ next a ∧ ReflTransGen (Leads next) d a

/-! ## Numbers that are not done -/

section Steps

variable {next : Nat → List Nat} {ids roots done : List Nat} {stack : List Frame} {back : List (Nat × Nat)}

theorem Suspended.mono {done' : List Nat} {back' : List (Nat × Nat)} (hd : ∀ x ∈ done, x ∈ done')
    (hb : ∀ e ∈ back, e ∈ back') {above : Option Nat} (h : Suspended next done back above stack) :
    Suspended next done' back' above stack := by
  induction stack generalizing above with
  | nil => trivial
  | cons f stack ih =>
    obtain ⟨⟨looked, hnext, habove, hlooked⟩, hrest⟩ := h
    refine ⟨⟨looked, hnext, habove, fun d hdl => ?_⟩, ih hrest⟩
    rcases hlooked d hdl with h | h | h
    · exact Or.inl (hd d h)
    · exact Or.inr (Or.inl (hb _ h))
    · exact Or.inr (Or.inr h)

/-- When the number entered last is done, the one below it has seen a successor done. -/
theorem Suspended.pop {id : Nat} (h : Suspended next done back (some id) stack) :
    Suspended next (id :: done) back none stack := by
  cases stack with
  | nil => trivial
  | cons f stack =>
    obtain ⟨⟨looked, hnext, -, hlooked⟩, hrest⟩ := h
    refine ⟨⟨looked, hnext, nofun, fun d hd => ?_⟩,
      hrest.mono (fun x hx => List.mem_cons_of_mem id hx) fun e he => he⟩
    rcases hlooked d hd with h | h | h
    · exact Or.inl (List.mem_cons_of_mem id h)
    · exact Or.inr (Or.inl h)
    · cases h
      exact Or.inl List.mem_cons_self

/-- The numbers that are not done form a path to the one entered last. -/
theorem Suspended.path {id : Nat} (h : Suspended next done back (some id) stack) :
    ∀ x ∈ stack.map Frame.id, ReflTransGen (Leads next) x id := by
  induction stack generalizing id with
  | nil => exact fun x hx => absurd hx List.not_mem_nil
  | cons f stack ih =>
    obtain ⟨⟨looked, hnext, habove, -⟩, hrest⟩ := h
    have hedge : Leads next f.id id := by
      rw [Leads, hnext]
      exact List.mem_append_left _ (habove id rfl)
    intro x hx
    rcases List.mem_cons.mp hx with rfl | hx
    · exact .single hedge
    · exact (ih hrest x hx).tail hedge

/-- A successor of the number entered last was looked at: it is done, or the edge to it was noted. -/
theorem Suspended.look {id d : Nat} {pending : List Nat}
    (h : Suspended next done back none (⟨id, d :: pending⟩ :: stack)) (hd : d ∈ done ∨ (id, d) ∈ back) :
    Suspended next done back none (⟨id, pending⟩ :: stack) := by
  obtain ⟨⟨looked, hnext, -, hlooked⟩, hrest⟩ := h
  refine ⟨⟨looked ++ [d], by simpa using hnext, nofun, fun x hx => ?_⟩, hrest⟩
  rcases List.mem_append.mp hx with hx | hx
  · exact hlooked x hx
  · rw [List.mem_singleton.mp hx]
    rcases hd with hd | hd
    · exact Or.inl hd
    · exact Or.inr (Or.inl hd)

/-- A successor of the number entered last is entered in turn. -/
theorem Suspended.push {id d : Nat} {pending : List Nat}
    (h : Suspended next done back none (⟨id, d :: pending⟩ :: stack)) :
    Suspended next done back none (⟨d, next d⟩ :: ⟨id, pending⟩ :: stack) := by
  obtain ⟨⟨looked, hnext, -, hlooked⟩, hrest⟩ := h
  refine ⟨⟨[], rfl, nofun, fun x hx => absurd hx List.not_mem_nil⟩,
    ⟨looked ++ [d], by simpa using hnext, fun u hu => (by cases hu; simp), fun x hx => ?_⟩, hrest⟩
  rcases List.mem_append.mp hx with hx | hx
  · rcases hlooked x hx with h | h | h
    · exact Or.inl h
    · exact Or.inr (Or.inl h)
    · cases h
  · rw [List.mem_singleton.mp hx]
    exact Or.inr (Or.inr rfl)

/-! ## Steps of the walk -/

theorem searching_start (next : Nat → List Nat) (ids : List Nat) : Searching next ids ids [] [] [] where
  nodup := List.nodup_nil
  known x hx := absurd hx List.not_mem_nil
  covered x hx := Or.inl hx
  suspended := trivial
  closed l₁ a l₂ h := absurd h (by simp)
  cyclic a d h := absurd h List.not_mem_nil

theorem Searching.skipRoot {r : Nat} (h : Searching next ids (r :: roots) [] done back) (hr : r ∈ done) :
    Searching next ids roots [] done back where
  nodup := h.nodup
  known := h.known
  covered x hx := by
    rcases h.covered x hx with hx | hx
    · rcases List.mem_cons.mp hx with rfl | hx
      · exact Or.inr hr
      · exact Or.inl hx
    · exact Or.inr hx
  suspended := h.suspended
  closed := h.closed
  cyclic := h.cyclic

theorem Searching.enterRoot {r : Nat} (h : Searching next ids (r :: roots) [] done back) (hr : r ∉ done)
    (hids : r ∈ ids) : Searching next ids roots [⟨r, next r⟩] done back where
  nodup := List.nodup_cons.mpr ⟨hr, h.nodup⟩
  known x hx := by
    rcases List.mem_cons.mp hx with rfl | hx
    · exact hids
    · exact h.known x hx
  covered x hx := by
    rcases h.covered x hx with hx | hx
    · rcases List.mem_cons.mp hx with rfl | hx
      · exact Or.inr List.mem_cons_self
      · exact Or.inl hx
    · exact Or.inr (List.mem_cons_of_mem r hx)
  suspended := ⟨⟨[], rfl, nofun, fun x hx => absurd hx List.not_mem_nil⟩, trivial⟩
  closed := h.closed
  cyclic := h.cyclic

theorem Searching.finish {id : Nat} (h : Searching next ids roots (⟨id, []⟩ :: stack) done back) :
    Searching next ids roots stack (id :: done) back := by
  have hperm : (stack.map Frame.id ++ id :: done).Perm ((⟨id, []⟩ :: stack : List Frame).map Frame.id ++ done) :=
    List.perm_middle
  obtain ⟨⟨looked, hnext, -, hlooked⟩, hrest⟩ := h.suspended
  refine ⟨hperm.nodup_iff.mpr h.nodup, fun x hx => h.known x (hperm.mem_iff.mp hx), fun x hx => ?_, hrest.pop, ?_,
    h.cyclic⟩
  · rcases h.covered x hx with hx | hx
    · exact Or.inl hx
    · exact Or.inr (hperm.mem_iff.mpr hx)
  · intro l₁ a l₂ hsplit d hd
    cases l₁ with
    | nil =>
      -- All successors of `id` have been looked at, and none of them is above it.
      obtain ⟨rfl, rfl⟩ := List.cons.inj hsplit
      rw [hnext, List.append_nil] at hd
      rcases hlooked d hd with h | h | h
      · exact Or.inl h
      · exact Or.inr h
      · cases h
    | cons x l₁ => exact h.closed l₁ a l₂ (List.cons.inj hsplit).2 d hd

theorem Searching.head_mem {id d : Nat} {pending : List Nat}
    (h : Searching next ids roots (⟨id, d :: pending⟩ :: stack) done back) : d ∈ next id := by
  obtain ⟨⟨looked, hnext, -, -⟩, -⟩ := h.suspended
  rw [hnext]
  exact List.mem_append_right _ List.mem_cons_self

theorem Searching.lookBack {id d : Nat} {pending : List Nat}
    (h : Searching next ids roots (⟨id, d :: pending⟩ :: stack) done back) (hd : d = id ∨ d ∈ stack.map Frame.id) :
    Searching next ids roots (⟨id, pending⟩ :: stack) done ((id, d) :: back) := by
  have hpath : ReflTransGen (Leads next) d id := by
    rcases hd with rfl | hd
    · exact .refl
    · exact h.suspended.2.path d hd
  refine ⟨h.nodup, h.known, h.covered, ?_, fun l₁ a l₂ hsplit x hx => ?_, fun a x hx => ?_⟩
  · exact (h.suspended.mono (fun x hx => hx) fun e he => List.mem_cons_of_mem _ he).look (Or.inr List.mem_cons_self)
  · rcases h.closed l₁ a l₂ hsplit x hx with hx | hx
    · exact Or.inl hx
    · exact Or.inr (List.mem_cons_of_mem _ hx)
  · rcases List.mem_cons.mp hx with hx | hx
    · cases hx
      exact ⟨h.known id List.mem_cons_self, h.head_mem, hpath⟩
    · exact h.cyclic a x hx

theorem Searching.lookDone {id d : Nat} {pending : List Nat}
    (h : Searching next ids roots (⟨id, d :: pending⟩ :: stack) done back) (hd : d ∈ done) :
    Searching next ids roots (⟨id, pending⟩ :: stack) done back :=
  ⟨h.nodup, h.known, h.covered, h.suspended.look (Or.inl hd), h.closed, h.cyclic⟩

theorem Searching.enter {id d : Nat} {pending : List Nat}
    (h : Searching next ids roots (⟨id, d :: pending⟩ :: stack) done back) (hid : d ≠ id)
    (hstack : d ∉ stack.map Frame.id) (hdone : d ∉ done) (hids : d ∈ ids) :
    Searching next ids roots (⟨d, next d⟩ :: ⟨id, pending⟩ :: stack) done back where
  nodup := by
    refine List.nodup_cons.mpr ⟨fun hx => ?_, h.nodup⟩
    rcases List.mem_append.mp hx with hx | hx
    · rcases List.mem_cons.mp hx with hx | hx
      · exact hid hx
      · exact hstack hx
    · exact hdone hx
  known x hx := by
    rcases List.mem_cons.mp hx with rfl | hx
    · exact hids
    · exact h.known x hx
  covered x hx := by
    rcases h.covered x hx with hx | hx
    · exact Or.inl hx
    · exact Or.inr (List.mem_cons_of_mem d hx)
  suspended := h.suspended.push
  closed := h.closed
  cyclic := h.cyclic

theorem Searching.sorted (h : Searching next ids [] [] done back) : Sorted next ids ⟨done.reverse, back.reverse⟩ where
  nodup := List.nodup_reverse.mpr h.nodup
  mem_iff x := by
    rw [List.mem_reverse]
    exact ⟨h.known x, fun hx => (h.covered x hx).resolve_left List.not_mem_nil⟩
  closed l₁ a l₂ hsplit d hd := by
    have hdone : done = l₂.reverse ++ a :: l₁.reverse := by
      rw [← List.reverse_reverse done, show done.reverse = l₁ ++ a :: l₂ from hsplit]
      simp
    rcases h.closed _ a _ hdone d hd with hd | hd
    · exact Or.inl (List.mem_reverse.mp hd)
    · exact Or.inr (List.mem_reverse.mpr hd)
  cyclic a d hd := h.cyclic a d (List.mem_reverse.mp hd)

end Steps

/-! ## The whole walk -/

namespace Sorted

variable {next : Nat → List Nat} {ids : List Nat} {bound : Nat}

/-- From a state that satisfies the invariant the walk goes on to a sorted result. -/
theorem of_searching (hbound : ∀ x ∈ ids, x < bound) (hclosed : ∀ a ∈ ids, ∀ d ∈ next a, d ∈ ids)
    {roots : List Nat} {stack : List Frame} {done : List Nat} {back : List (Nat × Nat)}
    (hroots : ∀ r ∈ roots, r ∈ ids) (h : Searching next ids roots stack done back) :
    Sorted next ids (postorder next bound roots stack done back) := by
  induction roots, stack, done, back using postorder.induct next bound with
  | case1 done back =>
    rw [postorder]
    exact h.sorted
  | case2 done back r roots hskip ih =>
    have hr := hroots r List.mem_cons_self
    rw [postorder, if_pos hskip]
    refine ih (fun x hx => hroots x (List.mem_cons_of_mem r hx)) (h.skipRoot (hskip.resolve_right ?_))
    exact Nat.not_le.mpr (hbound r hr)
  | case3 done back r roots hskip ih =>
    rw [postorder, if_neg hskip]
    exact ih (fun x hx => hroots x (List.mem_cons_of_mem r hx))
      (h.enterRoot (fun hr => hskip (Or.inl hr)) (hroots r List.mem_cons_self))
  | case4 roots done back id stack ih =>
    rw [postorder]
    exact ih hroots h.finish
  | case5 roots done back id d pending stack hback ih =>
    rw [postorder, if_pos hback]
    exact ih hroots (h.lookBack hback)
  | case6 roots done back id d pending stack hback hdone ih =>
    have hd : d ∈ ids := hclosed id (h.known id List.mem_cons_self) d h.head_mem
    rw [postorder, if_neg hback, if_pos hdone]
    exact ih hroots (h.lookDone (hdone.resolve_right (Nat.not_le.mpr (hbound d hd))))
  | case7 roots done back id d pending stack hback hdone ih =>
    have hd : d ∈ ids := hclosed id (h.known id List.mem_cons_self) d h.head_mem
    rw [postorder, if_neg hback, if_neg hdone]
    exact ih hroots (h.enter (fun hx => hback (Or.inl hx)) (fun hx => hback (Or.inr hx))
      (fun hx => hdone (Or.inl hx)) hd)

/-- The walk over a list that holds all successors of its numbers. -/
theorem postorder (hbound : ∀ x ∈ ids, x < bound) (hclosed : ∀ a ∈ ids, ∀ d ∈ next a, d ∈ ids) :
    Sorted next ids (postorder next bound ids [] [] []) :=
  of_searching hbound hclosed (fun _ hr => hr) (searching_start next ids)

variable {f : Finished}

/-- Only the successors of the numbers in the list matter. -/
theorem congr {next' : Nat → List Nat} (h : Sorted next ids f) (hclosed : ∀ a ∈ ids, ∀ d ∈ next a, d ∈ ids)
    (heq : ∀ a ∈ ids, next a = next' a) : Sorted next' ids f := by
  have hpath : ∀ x ∈ ids, ∀ y, ReflTransGen (Leads next) x y → ReflTransGen (Leads next') x y ∧ y ∈ ids := by
    intro x hx y hxy
    induction hxy with
    | refl => exact ⟨.refl, hx⟩
    | tail _ hyz ih =>
      refine ⟨ih.1.tail ?_, hclosed _ ih.2 _ hyz⟩
      rw [Leads, ← heq _ ih.2]
      exact hyz
  refine ⟨h.nodup, h.mem_iff, fun l₁ a l₂ hsplit d hd => ?_, fun a d he => ?_⟩
  · have ha : a ∈ ids := by
      rw [← h.mem_iff, hsplit]
      exact List.mem_append_right _ List.mem_cons_self
    rw [← heq a ha] at hd
    exact h.closed l₁ a l₂ hsplit d hd
  · obtain ⟨ha, hd, hda⟩ := h.cyclic a d he
    exact ⟨ha, heq a ha ▸ hd, (hpath d (hclosed a ha d hd) a hda).1⟩

theorem perm (h : Sorted next ids f) (hids : ids.Nodup) : f.order.Perm ids :=
  (List.perm_ext_iff_of_nodup h.nodup hids).mpr h.mem_iff

theorem precedes_or_backEdge (h : Sorted next ids f) {a d : Nat} (ha : a ∈ f.order) (hd : d ∈ next a) :
    Precedes f.order d a ∨ (a, d) ∈ f.backEdges := by
  obtain ⟨l₁, l₂, hsplit⟩ := List.append_of_mem ha
  rcases h.closed l₁ a l₂ hsplit d hd with hd | hd
  · exact Or.inl ⟨l₁, l₂, hsplit, hd⟩
  · exact Or.inr hd

/-- Without back edges everything that can be reached from a number stands before it. -/
theorem mem_of_transGen (h : Sorted next ids f) (hback : f.backEdges = []) {a c : Nat}
    (hac : TransGen (Leads next) a c) : ∀ l₁ l₂, f.order = l₁ ++ a :: l₂ → c ∈ l₁ := by
  have hfirst : ∀ x d, Leads next x d → ∀ l₁ l₂, f.order = l₁ ++ x :: l₂ → d ∈ l₁ := by
    intro x d hd l₁ l₂ hsplit
    refine (h.closed l₁ x l₂ hsplit d hd).resolve_right fun hb => ?_
    rw [hback] at hb
    exact List.not_mem_nil hb
  induction hac using TransGen.head_induction_on with
  | single hd => exact hfirst _ _ hd
  | head hd _ ih =>
    intro l₁ l₂ hsplit
    obtain ⟨m₁, m₂, rfl⟩ := List.append_of_mem (hfirst _ _ hd l₁ l₂ hsplit)
    exact List.mem_append_left _ (ih m₁ _ (by rw [hsplit, List.append_assoc, List.cons_append]))

/-- **There is a back edge just if some number reaches itself.** -/
theorem exists_backEdge_iff (h : Sorted next ids f) :
    f.backEdges ≠ [] ↔ ∃ a ∈ ids, TransGen (Leads next) a a := by
  constructor
  · intro hne
    obtain ⟨⟨a, d⟩, he⟩ := List.exists_mem_of_ne_nil _ hne
    obtain ⟨ha, hd, hpath⟩ := h.cyclic a d he
    exact ⟨a, ha, TransGen.head' hd hpath⟩
  · rintro ⟨a, ha, hcycle⟩ hback
    obtain ⟨l₁, l₂, hsplit⟩ := List.append_of_mem ((h.mem_iff a).mpr ha)
    have hmem := h.mem_of_transGen hback hcycle l₁ l₂ hsplit
    have hnodup := h.nodup
    rw [hsplit] at hnodup
    exact (List.nodup_append.mp hnodup).2.2 a hmem a List.mem_cons_self rfl

end Sorted

end Typewright
