import Typewright.Proofs.Graph.Extension
import Typewright.Proofs.Graph.Order

/-!
# Walks that forget what they have done

A walk skips the numbers it has done. If it went into them again it would finish the same numbers once more, and only
the first time would count.

* `distinct_append_congr`, `distinct_append_absorb` : what the first occurrences in a list depend on;
* `Unfolds next ids below` : `below x` is what a walk from `x` would finish if it forgot what it has done;
* `distinct_order_postorder` : a walk without back edges finishes just the first occurrences of this;
* `Picks`, `distinct_flatMap_preorder` : it may start at the numbers of a pre-order instead.
-/

namespace Typewright

open Relation

/-! ## First occurrences -/

theorem distinct_append (l m : List TypeId) : distinct (l ++ m) = distinct l ++ (distinct m).filter (· ∉ l) := by
  induction l with
  | nil => simp [distinct]
  | cons a l ih =>
    have hfilter : ((distinct m).filter (· ∉ l)).filter (· ≠ a) = (distinct m).filter (· ∉ a :: l) := by
      rw [List.filter_filter]
      exact List.filter_congr fun x _ => by simp
    rw [List.cons_append, distinct, ih, List.filter_append, hfilter, distinct, List.cons_append]

theorem distinct_filter (p : TypeId → Bool) (l : List TypeId) : distinct (l.filter p) = (distinct l).filter p := by
  induction l with
  | nil => rfl
  | cons a l ih =>
    have hswap : ((distinct l).filter p).filter (· ≠ a) = ((distinct l).filter (· ≠ a)).filter p := by
      rw [List.filter_filter, List.filter_filter]
      exact List.filter_congr fun x _ => Bool.and_comm _ _
    cases hp : p a with
    | true =>
      rw [List.filter_cons_of_pos hp, distinct, distinct, List.filter_cons_of_pos hp, ih, hswap]
    | false =>
      have hne : ∀ x ∈ (distinct l).filter p, (x ≠ a : Bool) = true := by
        intro x hx
        have hpx := (List.mem_filter.mp hx).2
        refine decide_eq_true fun hxa => ?_
        rw [hxa, hp] at hpx
        cases hpx
      rw [List.filter_cons_of_neg (by simp [hp]), distinct, List.filter_cons_of_neg (by simp [hp]), ih, ← hswap,
        List.filter_eq_self.mpr hne]

theorem distinct_eq_self {l : List TypeId} (h : l.Nodup) : distinct l = l := by
  induction l with
  | nil => rfl
  | cons a l ih =>
    obtain ⟨ha, hl⟩ := List.nodup_cons.mp h
    rw [distinct, ih hl, List.filter_eq_self.mpr]
    intro x hx
    exact decide_eq_true fun hxa => ha (hxa ▸ hx)

theorem mem_iff_of_distinct_eq {l l' : List TypeId} (h : distinct l = distinct l') (a : TypeId) : a ∈ l ↔ a ∈ l' := by
  rw [← Graph.mem_distinct, h, Graph.mem_distinct]

theorem distinct_append_congr {l l' m m' : List TypeId} (hl : distinct l = distinct l')
    (hm : distinct m = distinct m') : distinct (l ++ m) = distinct (l' ++ m') := by
  rw [distinct_append, distinct_append, hl, hm]
  refine congrArg _ (List.filter_congr fun x _ => ?_)
  simp [mem_iff_of_distinct_eq hl]

/-- What was there before may come again. -/
theorem distinct_append_absorb {l m : List TypeId} (h : ∀ a ∈ m, a ∈ l) : distinct (l ++ m) = distinct l := by
  have hnone : (distinct m).filter (· ∉ l) = [] := by
    rw [List.filter_eq_nil_iff]
    intro a ha
    simpa using h a (Graph.mem_distinct.mp ha)
  rw [distinct_append, hnone, List.append_nil]

/-- A part in the middle may be exchanged. -/
theorem distinct_middle_congr {m m' : List TypeId} (l r : List TypeId) (h : distinct m = distinct m') :
    distinct (l ++ m ++ r) = distinct (l ++ m' ++ r) :=
  distinct_append_congr (distinct_append_congr rfl h) rfl

/-- A part in the middle that was there before may be left out. -/
theorem distinct_middle_absorb {l m : List TypeId} (r : List TypeId) (h : ∀ a ∈ m, a ∈ l) :
    distinct (l ++ m ++ r) = distinct (l ++ r) :=
  distinct_append_congr (distinct_append_absorb h) rfl

/-! ## What a walk finishes -/

/-- Behind a number of `ids`, `below` lists what is behind its successors, and then the number. Repetitions do not
count. -/
def Unfolds (next : Nat → List Nat) (ids : List Nat) (below : Nat → List Nat) : Prop :=
  ∀ x ∈ ids, distinct (below x) = distinct ((next x).flatMap below ++ [x])

section Walk

variable {next below : Nat → List Nat} {bound : Nat} {ids roots done : List Nat} {stack : List Frame}
  {back : List (Nat × Nat)}

/-- What is left to finish of the numbers that were entered. -/
def Frame.rest (below : Nat → List Nat) (stack : List Frame) : List Nat :=
  stack.flatMap fun f => f.pending.flatMap below ++ [f.id]

/-- The back edges that were noted stay noted. -/
theorem mem_backEdges_postorder (next : Nat → List Nat) (bound : Nat) (roots : List Nat) (stack : List Frame)
    (done : List Nat) {e : Nat × Nat} (he : e ∈ back) :
    e ∈ (postorder next bound roots stack done back).backEdges := by
  induction roots, stack, done, back using postorder.induct next bound with
  | case1 done back =>
    rw [postorder]
    exact List.mem_reverse.mpr he
  | case2 done back r roots hskip ih => rw [postorder, if_pos hskip]; exact ih he
  | case3 done back r roots hskip ih => rw [postorder, if_neg hskip]; exact ih he
  | case4 roots done back id stack ih => rw [postorder]; exact ih he
  | case5 roots done back id d pending stack hback ih =>
    rw [postorder, if_pos hback]
    exact ih (List.mem_cons_of_mem _ he)
  | case6 roots done back id d pending stack hback hdone ih =>
    rw [postorder, if_neg hback, if_pos hdone]
    exact ih he
  | case7 roots done back id d pending stack hback hdone ih =>
    rw [postorder, if_neg hback, if_neg hdone]
    exact ih he

/-- With a number everything behind it is done. -/
theorem Unfolds.mem_done (h : Unfolds next ids below) (hids : ∀ x ∈ done, x ∈ ids)
    (hclosed : ∀ l₁ a l₂, done = l₁ ++ a :: l₂ → ∀ d ∈ next a, d ∈ l₂) :
    ∀ x ∈ done, ∀ y ∈ below x, y ∈ done := by
  induction done with
  | nil => exact fun x hx => absurd hx List.not_mem_nil
  | cons a done ih =>
    have hdone := ih (fun x hx => hids x (List.mem_cons_of_mem a hx)) fun l₁ b l₂ hsplit =>
      hclosed (a :: l₁) b l₂ (by rw [hsplit, List.cons_append])
    intro x hx y hy
    rcases List.mem_cons.mp hx with rfl | hx
    · rcases List.mem_append.mp ((mem_iff_of_distinct_eq (h x (hids x List.mem_cons_self)) y).mp hy) with hy | hy
      · obtain ⟨d, hd, hy⟩ := List.mem_flatMap.mp hy
        exact List.mem_cons_of_mem x (hdone d (hclosed [] x done rfl d hd) y hy)
      · rw [List.mem_singleton.mp hy]
        exact List.mem_cons_self
    · exact List.mem_cons_of_mem a (hdone x hx y hy)

/-- While there are no back edges, everything behind a number that is done is done. -/
theorem Searching.mem_reverse_done (hs : Searching next ids roots stack done back) (h : Unfolds next ids below)
    (hback : (postorder next bound roots stack done back).backEdges = []) :
    ∀ x ∈ done, ∀ y ∈ below x, y ∈ done.reverse := by
  intro x hx y hy
  refine List.mem_reverse.mpr (h.mem_done (fun z hz => hs.known z (List.mem_append_right _ hz)) ?_ x hx y hy)
  intro l₁ a l₂ hsplit d hd
  refine (hs.closed l₁ a l₂ hsplit d hd).resolve_right fun he => ?_
  have hmem := mem_backEdges_postorder next bound roots stack done he
  rw [hback] at hmem
  exact List.not_mem_nil hmem

/-- **A walk without back edges finishes what it has to, each number where it comes first.** -/
theorem distinct_order_postorder (h : Unfolds next ids below) (hbound : ∀ x ∈ ids, x < bound)
    (hclosed : ∀ a ∈ ids, ∀ d ∈ next a, d ∈ ids) (hroots : ∀ r ∈ roots, r ∈ ids)
    (hs : Searching next ids roots stack done back)
    (hback : (postorder next bound roots stack done back).backEdges = []) :
    distinct (postorder next bound roots stack done back).order =
      distinct (done.reverse ++ Frame.rest below stack ++ roots.flatMap below) := by
  induction roots, stack, done, back using postorder.induct next bound with
  | case1 done back => simp [postorder, Frame.rest]
  | case2 done back r roots hskip ih =>
    have hr : r ∈ done := hskip.resolve_right (Nat.not_le.mpr (hbound r (hroots r List.mem_cons_self)))
    have hbehind := hs.mem_reverse_done h hback r hr
    rw [postorder, if_pos hskip] at hback ⊢
    rw [ih (fun x hx => hroots x (List.mem_cons_of_mem r hx)) (hs.skipRoot hr) hback, List.flatMap_cons,
      ← List.append_assoc]
    exact (distinct_middle_absorb _ fun a ha => List.mem_append_left _ (hbehind a ha)).symm
  | case3 done back r roots hskip ih =>
    have hr := hroots r List.mem_cons_self
    rw [postorder, if_neg hskip] at hback ⊢
    rw [ih (fun x hx => hroots x (List.mem_cons_of_mem r hx)) (hs.enterRoot (fun hx => hskip (Or.inl hx)) hr) hback,
      List.flatMap_cons, ← List.append_assoc]
    have hunfold := distinct_middle_congr done.reverse (roots.flatMap below) (h r hr)
    simpa [Frame.rest] using hunfold.symm
  | case4 roots done back id stack ih =>
    rw [postorder] at hback ⊢
    rw [ih hroots hs.finish hback]
    simp [Frame.rest]
  | case5 roots done back id d pending stack hcycle ih =>
    rw [postorder, if_pos hcycle] at hback
    have hmem := mem_backEdges_postorder next bound roots (⟨id, pending⟩ :: stack) done
      (List.mem_cons_self (a := (id, d)) (l := back))
    rw [hback] at hmem
    exact absurd hmem List.not_mem_nil
  | case6 roots done back id d pending stack hcycle hdone ih =>
    have hids : d ∈ ids := hclosed id (hs.known id List.mem_cons_self) d hs.head_mem
    have hd : d ∈ done := hdone.resolve_right (Nat.not_le.mpr (hbound d hids))
    have hbehind := hs.mem_reverse_done h hback d hd
    rw [postorder, if_neg hcycle, if_pos hdone] at hback ⊢
    rw [ih hroots (hs.lookDone hd) hback]
    have habsorb := distinct_middle_absorb (Frame.rest below (⟨id, pending⟩ :: stack) ++ roots.flatMap below) hbehind
    simpa [Frame.rest] using habsorb.symm
  | case7 roots done back id d pending stack hcycle hdone ih =>
    have hids : d ∈ ids := hclosed id (hs.known id List.mem_cons_self) d hs.head_mem
    rw [postorder, if_neg hcycle, if_neg hdone] at hback ⊢
    rw [ih hroots (hs.enter (fun hx => hcycle (Or.inl hx)) (fun hx => hcycle (Or.inr hx)) (fun hx => hdone (Or.inl hx))
      hids) hback]
    have hunfold := distinct_middle_congr done.reverse
      (Frame.rest below (⟨id, pending⟩ :: stack) ++ roots.flatMap below) (h d hids)
    simpa [Frame.rest] using hunfold.symm

end Walk

/-! ## Where a walk starts -/

section Start

variable {next below : Nat → List Nat} {bound : Nat} {seen stack : List Nat}

/-- What lies behind a number is behind those of the numbers it leads to that are picked, and the way from one number
to the next goes down. `Scope` holds the numbers in question. -/
structure Picks (next : Nat → List Nat) (bound : Nat) (Scope : Nat → Prop) (rank : Nat → Nat) (pick : Nat → Bool)
    (below : Nat → List Nat) : Prop where
  lt : ∀ x, Scope x → x < bound
  scope : ∀ x, Scope x → ∀ y ∈ next x, Scope y
  rank : ∀ x, Scope x → ∀ y ∈ next x, rank y < rank x
  passed : ∀ x, Scope x → pick x = false → below x = (next x).flatMap below
  picked : ∀ x, Scope x → pick x = true → ∀ y ∈ next x, ∀ z ∈ below y, z ∈ below x

/-- Of the numbers that were seen, what lies behind is behind those that were picked, or behind numbers that come next
on the stack. -/
def Covered (rank : Nat → Nat) (pick : Nat → Bool) (below : Nat → List Nat) (seen stack : List Nat) : Prop :=
  ∀ x ∈ seen, ∃ ahead later, stack = ahead ++ later ∧ (∀ z ∈ ahead, rank z < rank x) ∧
    ∀ y ∈ below x, y ∈ (seen.reverse.filter pick).flatMap below ∨ y ∈ ahead.flatMap below

variable {Scope : Nat → Prop} {rank : Nat → Nat} {pick : Nat → Bool} {id : Nat} {rest : List Nat}

/-- A number that was seen before it is met again has nothing left behind it. -/
theorem Covered.mem_of_mem_seen (h : Covered rank pick below seen (id :: rest)) (hid : id ∈ seen) :
    ∀ y ∈ below id, y ∈ (seen.reverse.filter pick).flatMap below := by
  obtain ⟨ahead, later, hsplit, hdown, hbelow⟩ := h id hid
  cases ahead with
  | nil => exact fun y hy => (hbelow y hy).resolve_right (by simp)
  | cons a ahead =>
    obtain ⟨rfl, -⟩ := List.cons.inj hsplit
    exact absurd (hdown id List.mem_cons_self) (Nat.lt_irrefl _)

theorem Covered.skip (h : Covered rank pick below seen (id :: rest)) (hid : id ∈ seen) :
    Covered rank pick below seen rest := by
  intro x hx
  obtain ⟨ahead, later, hsplit, hdown, hbelow⟩ := h x hx
  cases ahead with
  | nil => exact ⟨[], rest, rfl, by simp, hbelow⟩
  | cons a ahead =>
    obtain ⟨rfl, hrest⟩ := List.cons.inj hsplit
    refine ⟨ahead, later, hrest, fun z hz => hdown z (List.mem_cons_of_mem id hz), fun y hy => ?_⟩
    rcases hbelow y hy with hy | hy
    · exact Or.inl hy
    · rw [List.flatMap_cons, List.mem_append] at hy
      rcases hy with hy | hy
      · exact Or.inl (h.mem_of_mem_seen hid y hy)
      · exact Or.inr hy

theorem Covered.enter (hp : Picks next bound Scope rank pick below) (hscope : Scope id)
    (h : Covered rank pick below seen (id :: rest)) : Covered rank pick below (id :: seen) (next id ++ rest) := by
  -- What lies behind the new number is behind it, if it is picked, or behind its successors.
  have hnew : ∀ y ∈ below id, y ∈ ((id :: seen).reverse.filter pick).flatMap below ∨ y ∈ (next id).flatMap below := by
    intro y hy
    cases hpick : pick id with
    | true => exact Or.inl (List.mem_flatMap.mpr ⟨id, by simp [hpick], hy⟩)
    | false => exact Or.inr (hp.passed id hscope hpick ▸ hy)
  have hmono : ∀ y, y ∈ (seen.reverse.filter pick).flatMap below →
      y ∈ ((id :: seen).reverse.filter pick).flatMap below := by
    intro y hy
    rw [List.reverse_cons, List.filter_append, List.flatMap_append]
    exact List.mem_append_left _ hy
  intro x hx
  rcases List.mem_cons.mp hx with rfl | hx
  · exact ⟨next x, rest, rfl, hp.rank x hscope, hnew⟩
  · obtain ⟨ahead, later, hsplit, hdown, hbelow⟩ := h x hx
    cases ahead with
    | nil =>
      refine ⟨[], next id ++ rest, rfl, by simp, fun y hy => ?_⟩
      exact (hbelow y hy).imp_left (hmono y)
    | cons a ahead =>
      obtain ⟨rfl, rfl⟩ : id = a ∧ rest = ahead ++ later := List.cons.inj hsplit
      refine ⟨next id ++ ahead, later, (List.append_assoc _ _ _).symm, fun z hz => ?_, fun y hy => ?_⟩
      · rcases List.mem_append.mp hz with hz | hz
        · exact (hp.rank id hscope z hz).trans (hdown id List.mem_cons_self)
        · exact hdown z (List.mem_cons_of_mem id hz)
      · rw [List.flatMap_append, List.mem_append]
        rcases hbelow y hy with hy | hy
        · exact Or.inl (hmono y hy)
        · rw [List.flatMap_cons, List.mem_append] at hy
          rcases hy with hy | hy
          · exact (hnew y hy).imp_right Or.inl
          · exact Or.inr (Or.inr hy)

/-- **It does not matter whether a walk goes on from some numbers or from those that are picked of all that they lead
to**, in the order in which they are entered. -/
theorem distinct_flatMap_preorder_seen (hp : Picks next bound Scope rank pick below) (hstack : ∀ x ∈ stack, Scope x)
    (h : Covered rank pick below seen stack) :
    distinct (((seen.reverse ++ preorder next bound seen stack).filter pick).flatMap below) =
      distinct ((seen.reverse.filter pick).flatMap below ++ stack.flatMap below) := by
  induction seen, stack using preorder.induct next bound with
  | case1 seen => simp [preorder]
  | case2 seen id rest hskip ih =>
    have hid : id ∈ seen := hskip.resolve_right (Nat.not_le.mpr (hp.lt id (hstack id List.mem_cons_self)))
    rw [preorder, if_pos hskip, ih (fun x hx => hstack x (List.mem_cons_of_mem id hx)) (h.skip hid), List.flatMap_cons,
      ← List.append_assoc]
    exact (distinct_middle_absorb _ (h.mem_of_mem_seen hid)).symm
  | case3 seen id rest hskip ih =>
    have hscope := hstack id List.mem_cons_self
    have hnext : ∀ x ∈ next id ++ rest, Scope x := by
      intro x hx
      rcases List.mem_append.mp hx with hx | hx
      · exact hp.scope id hscope x hx
      · exact hstack x (List.mem_cons_of_mem id hx)
    have hstep := ih hnext (h.enter hp hscope)
    rw [List.reverse_cons, List.append_assoc, List.singleton_append] at hstep
    rw [preorder, if_neg hskip, hstep, List.filter_append, List.flatMap_append, List.flatMap_append, List.flatMap_cons]
    cases hpick : pick id with
    | true =>
      have hbehind : ∀ z ∈ (next id).flatMap below, z ∈ (seen.reverse.filter pick).flatMap below ++ below id := by
        intro z hz
        obtain ⟨y, hy, hz⟩ := List.mem_flatMap.mp hz
        exact List.mem_append_right _ (hp.picked id hscope hpick y hy z hz)
      simpa [hpick] using distinct_middle_absorb (rest.flatMap below) hbehind
    | false => simp [hpick, hp.passed id hscope hpick]

theorem distinct_flatMap_preorder (hp : Picks next bound Scope rank pick below) (hstack : ∀ x ∈ stack, Scope x) :
    distinct (((preorder next bound [] stack).filter pick).flatMap below) = distinct (stack.flatMap below) := by
  have hcovered : Covered rank pick below [] stack := fun x hx => absurd hx List.not_mem_nil
  simpa using distinct_flatMap_preorder_seen hp hstack hcovered

end Start

end Typewright
