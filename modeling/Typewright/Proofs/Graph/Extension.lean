import Mathlib
import Typewright.Proofs.Graph.Growth

/-!
# Graphs that keep what they have

* `mem_distinct`, `nodup_distinct` : what is left of a list when every number counts once;
* `distinct_eq_pair_iff` : when these are two, a given number among them;
* `GrowsTo` : calls lead from one graph to another, and none of them fails;
* `Extends` : besides, only new types are added;
* `intern_cases`, `internNullable_cases` : a type is found in the graph, or added at its end.
-/

namespace Typewright

namespace Graph

/-! ## Numbers that count once -/

theorem mem_distinct {a : TypeId} {l : List TypeId} : a ∈ distinct l ↔ a ∈ l := by
  refine ⟨mem_of_mem_distinct, fun h => ?_⟩
  induction l with
  | nil => exact h
  | cons b l ih =>
    by_cases hab : a = b
    · exact hab ▸ List.mem_cons_self
    · have ha : a ∈ l := (List.mem_cons.mp h).resolve_left hab
      exact List.mem_cons_of_mem b (List.mem_filter.mpr ⟨ih ha, by simpa using hab⟩)

theorem nodup_distinct (l : List TypeId) : (distinct l).Nodup := by
  induction l with
  | nil => exact List.nodup_nil
  | cons a l ih =>
    refine List.nodup_cons.mpr ⟨fun h => ?_, ih.filter _⟩
    simpa using (List.mem_filter.mp h).2

theorem length_distinct_lt_two_iff {l : List TypeId} :
    (distinct l).length < 2 ↔ ∀ a ∈ l, ∀ b ∈ l, a = b := by
  constructor
  · intro h a ha b hb
    have ha' := mem_distinct.mpr ha
    have hb' := mem_distinct.mpr hb
    rcases hd : distinct l with _ | ⟨x, _ | ⟨y, rest⟩⟩
    · simp [hd] at ha'
    · simp only [hd, List.mem_singleton] at ha' hb'
      rw [ha', hb']
    · simp [hd] at h
  · intro h
    rcases hd : distinct l with _ | ⟨x, _ | ⟨y, rest⟩⟩
    · simp
    · simp
    · have hxy : x = y :=
        h x (mem_distinct.mp (by simp [hd])) y (mem_distinct.mp (by simp [hd]))
      have hnodup := nodup_distinct l
      simp [hd, hxy] at hnodup

/-- Two different numbers, one of them `n`. -/
theorem distinct_eq_pair_iff {n : TypeId} {l : List TypeId} :
    (∃ a b, distinct l = [a, b] ∧ (a = n ∨ b = n)) ↔ n ∈ l ∧ ∃ x ∈ l, x ≠ n ∧ ∀ y ∈ l, y ≠ n → y = x := by
  have hnodup := nodup_distinct l
  have hmem : ∀ x, x ∈ l ↔ x ∈ distinct l := fun x => mem_distinct.symm
  simp only [hmem]
  generalize distinct l = d at hnodup
  constructor
  · rintro ⟨a, b, rfl, rfl | rfl⟩
    · have hab : b ≠ a := by simpa [eq_comm] using hnodup
      exact ⟨by simp, b, by simp, hab, by simp⟩
    · have hab : a ≠ b := by simpa using hnodup
      exact ⟨by simp, a, by simp, hab, by simp⟩
  · rintro ⟨hn, x, hx, hxn, hsame⟩
    rcases d with _ | ⟨a, _ | ⟨b, _ | ⟨c, rest⟩⟩⟩
    · simp at hn
    · simp_all
    · exact ⟨a, b, rfl, by simpa [eq_comm] using hn⟩
    · -- three different numbers cannot all be `n` or `x`
      have h : ∀ y ∈ a :: b :: c :: rest, y = n ∨ y = x := fun y hy =>
        or_iff_not_imp_left.mpr (hsame y hy)
      have ha := h a (by simp)
      have hb := h b (by simp)
      have hc := h c (by simp)
      simp only [List.nodup_cons, List.mem_cons, not_or] at hnodup
      obtain ⟨⟨hab, hac, -⟩, ⟨hbc, -⟩, -⟩ := hnodup
      rcases ha with rfl | rfl <;> rcases hb with rfl | rfl <;> rcases hc with rfl | rfl <;> simp_all

/-! ## Calls that succeed -/

/-- Calls lead from one graph to another, and none of them fails. -/
def GrowsTo (g g' : Graph) : Prop := ∃ calls : List Call, calls.foldlM perform g = .ok g'

variable {g g' g'' : Graph}

theorem GrowsTo.refl (g : Graph) : g.GrowsTo g := ⟨[], rfl⟩

theorem GrowsTo.trans (h : g.GrowsTo g') (h' : g'.GrowsTo g'') : g.GrowsTo g'' := by
  obtain ⟨calls, hcalls⟩ := h
  obtain ⟨calls', hcalls'⟩ := h'
  exact ⟨calls ++ calls', by rw [List.foldlM_append, hcalls]; exact hcalls'⟩

theorem GrowsTo.of_perform {c : Call} (h : g.perform c = .ok g') : g.GrowsTo g' := ⟨[c], by simp [h]⟩

theorem GrowsTo.wellFormed (h : g.GrowsTo g') (hg : g.WellFormed) : g'.WellFormed := by
  obtain ⟨calls, hcalls⟩ := h
  induction calls generalizing g with
  | nil =>
    obtain rfl : g = g' := Except.ok.inj hcalls
    exact hg
  | cons c calls ih =>
    rw [List.foldlM_cons] at hcalls
    cases hc : g.perform c with
    | error e => rw [hc] at hcalls; cases hcalls
    | ok g₁ =>
      rw [hc] at hcalls
      exact ih ((hg.perform c).of_ok hc) hcalls

/-- Graphs that grow out of the empty one are built by the same calls. -/
theorem GrowsTo.built (h : empty.GrowsTo g) : g.Built := by
  obtain ⟨calls, hcalls⟩ := h
  refine ⟨calls, ?_⟩
  generalize empty = g₀ at hcalls
  induction calls generalizing g₀ with
  | nil => exact Except.ok.inj hcalls
  | cons c calls ih =>
    rw [List.foldlM_cons] at hcalls
    cases hc : g₀.perform c with
    | error e => rw [hc] at hcalls; cases hcalls
    | ok g₁ =>
      rw [hc] at hcalls
      rw [List.foldl_cons, after, hc]
      exact ih g₁ hcalls

theorem check_eq_ok {ids : List TypeId} (h : ∀ id ∈ ids, id < g.size) : g.check ids = .ok () := by
  induction ids with
  | nil => rfl
  | cons id ids ih =>
    rw [check, if_pos (h id List.mem_cons_self)]
    exact ih fun i hi => h i (List.mem_cons_of_mem _ hi)

theorem growsTo_array {id : TypeId} (h : id < g.size) : g.GrowsTo (g.intern (.array id)).2 := by
  refine .of_perform (c := .array id) ?_
  simp only [perform, array, check_eq_ok (List.forall_mem_singleton.mpr h)]
  rfl

theorem growsTo_map {id : TypeId} (h : id < g.size) : g.GrowsTo (g.intern (.map id)).2 := by
  refine .of_perform (c := .map id) ?_
  simp only [perform, map, check_eq_ok (List.forall_mem_singleton.mpr h)]
  rfl

theorem growsTo_nullable {id : TypeId} (h : id < g.size) : g.GrowsTo (g.internNullable id).2 := by
  refine .of_perform (c := .nullable id) ?_
  simp only [perform, nullable, check_eq_ok (List.forall_mem_singleton.mpr h)]
  rfl

theorem growsTo_union {ids : List TypeId} (hint : Bytes) (h : ∀ id ∈ ids, id < g.size)
    (h₂ : ¬ (distinct ids).length < 2) : g.GrowsTo (g.push (.union hint (distinct ids))).2 := by
  refine .of_perform (c := .union hint ids) ?_
  simp only [perform, union, check_eq_ok h, if_neg h₂]
  rfl

theorem growsTo_record (hint : Bytes) : g.GrowsTo (g.push (.record hint [])).2 :=
  .of_perform (c := .record hint []) rfl

theorem growsTo_enum (hint : Bytes) (cases : List Bytes) : g.GrowsTo (g.push (.enum hint cases)).2 :=
  .of_perform (c := .enum hint cases) rfl

theorem size_putProperties (g : Graph) (id : TypeId) (ps : List Property) : (g.putProperties id ps).size = g.size := by
  unfold putProperties
  split
  · exact Array.size_setIfInBounds
  · rfl

theorem tops_putProperties (g : Graph) (id : TypeId) (ps : List Property) : (g.putProperties id ps).tops = g.tops := by
  unfold putProperties
  split <;> rfl

theorem node?_putProperties {id : TypeId} {hint : Bytes} {old : List Property}
    (h : g.node? id = some (.record hint old)) (ps : List Property) (i : TypeId) :
    (g.putProperties id ps).node? i = if i = id then some (.record hint ps) else g.node? i := by
  unfold putProperties
  rw [h]
  unfold node?
  rw [Array.getElem?_setIfInBounds]
  by_cases hi : i = id
  · subst hi
    rw [if_pos rfl, if_pos rfl, if_pos (by exact lt_size_of_node? h)]
  · rw [if_neg (Ne.symm hi), if_neg hi]

theorem growsTo_putProperties {id : TypeId} {ps : List Property} (h : ∀ p ∈ ps, p.type < g.size) :
    g.GrowsTo (g.putProperties id ps) := by
  cases hid : g.node? id with
  | none =>
    rw [putProperties, hid]
    exact .refl g
  | some n =>
    cases n with
    | record hint old =>
      refine .of_perform (c := .setProperties id ps) ?_
      have hps : ∀ t ∈ ps.map Property.type, t < g.size := by simpa using h
      simp only [perform, setProperties, check_eq_ok (List.forall_mem_singleton.mpr (lt_size_of_node? hid)),
        check_eq_ok hps, hid, Option.map_some, Node.isRecord, Option.getD_some, if_true]
      rfl
    | _ =>
      rw [putProperties, hid]
      exact .refl g

theorem growsTo_putTop {name : Bytes} {id : TypeId} (h : id < g.size) : g.GrowsTo (g.putTop name id) := by
  refine .of_perform (c := .topLevel name id) ?_
  simp only [perform, topLevel, check_eq_ok (List.forall_mem_singleton.mpr h)]
  rfl

/-! ## Graphs that keep what they have -/

/-- A graph grows by calls that succeed, and only new types are added. -/
structure Extends (g g' : Graph) : Prop where
  growsTo : g.GrowsTo g'
  node? : ∀ id n, g.node? id = some n → g'.node? id = some n
  tops : g'.tops = g.tops

theorem Extends.refl (g : Graph) : g.Extends g := ⟨.refl g, fun _ _ h => h, rfl⟩

theorem Extends.trans (h : g.Extends g') (h' : g'.Extends g'') : g.Extends g'' :=
  ⟨h.growsTo.trans h'.growsTo, fun id n hn => h'.node? id n (h.node? id n hn), h'.tops.trans h.tops⟩

theorem Extends.lt_size (h : g.Extends g') {id : TypeId} (hid : id < g.size) : id < g'.size := by
  obtain ⟨n, hn⟩ := exists_node? hid
  exact lt_size_of_node? (h.node? id n hn)

theorem extends_push {n : Node} (h : g.GrowsTo (g.push n).2) : g.Extends (g.push n).2 where
  growsTo := h
  node? id m hm := by
    rw [node?_push, if_neg (Nat.ne_of_lt (lt_size_of_node? hm))]
    exact hm
  tops := rfl

theorem intern_cases (g : Graph) (n : Node) :
    (∃ id, g.node? id = some n ∧ g.intern n = (id, g)) ∨ (∀ id, g.node? id ≠ some n) ∧ g.intern n = g.push n := by
  unfold intern
  cases h : g.nodes.findIdx? (· == n) with
  | none =>
    refine .inr ⟨fun id hid => ?_, rfl⟩
    have hne := Array.findIdx?_eq_none_iff.mp h n (Array.mem_of_getElem? hid)
    simp at hne
  | some id =>
    obtain ⟨hlt, hn, -⟩ := Array.findIdx?_eq_some_iff_getElem.mp h
    refine .inl ⟨id, ?_, rfl⟩
    rw [node?, Array.getElem?_eq_getElem hlt]
    simpa using hn

theorem internNullable_cases (g : Graph) (id : TypeId) :
    (g.isPrimitive .null id || (g.nullableInner? id).isSome) = true ∧ g.internNullable id = (id, g) ∨
      (g.isPrimitive .null id || (g.nullableInner? id).isSome) = false ∧
        g.internNullable id = g.push (.union [] [id, Primitive.null.id]) := by
  unfold internNullable
  split
  · rename_i h
    exact .inl ⟨h, rfl⟩
  · rename_i h
    exact .inr ⟨Bool.eq_false_iff.mpr h, rfl⟩

/-- A union is added if its members are known and at least two. -/
theorem union_eq_ok {hint : Bytes} {ms : List TypeId} {r : TypeId × Graph} (h : g.union hint ms = .ok r) :
    r = g.push (.union hint (distinct ms)) ∧ (∀ m ∈ ms, m < g.size) ∧ 2 ≤ (distinct ms).length := by
  have hcheck := check_ends g ms
  unfold union at h
  cases hids : g.check ms with
  | error e =>
    rw [hids] at h
    exact absurd h (by simp [bind, Except.bind])
  | ok u =>
    rw [hids] at h
    by_cases hlen : (distinct ms).length < 2
    · exact absurd h (by simp [bind, Except.bind, hlen])
    · have hr : g.push (.union hint (distinct ms)) = r := by simpa [bind, Except.bind, hlen, pure, Except.pure] using h
      exact ⟨hr.symm, hcheck.of_ok hids, by omega⟩

end Graph

end Typewright
