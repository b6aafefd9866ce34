import Typewright.Proofs.Description.Growth

/-!
# Unions that contain themselves

* `TypeForm.Cites t name` : the name stands somewhere in a written type;
* `UnionScope.Cites s a b`, `UnionScope.Circular s a` : a declared union names another in its members, and leads to one
  that leads back to itself;
* `Reading.Faithful` : every union that is told to contain itself does;
* `Reading.Clean` : no type was made for a circular union, and until a union is told to contain itself none was met.

Both are kept while types are resolved (`Reading.Faithful.resolve`, `Reading.Clean.resolve`).
-/

namespace Typewright

open Relation

/-! ## What a written type names -/

/-- A problem does not tell that a union contains itself. -/
def Problem.Plain (p : Problem) : Prop := ∀ name, p.fault ≠ .recursiveUnion name

namespace TypeForm

/-- A written type is a part of another one. -/
inductive Part (u : TypeForm) : TypeForm → Prop where
  | self : Part u u
  | array {t : TypeForm} : Part u t → Part u (.array t)
  | map {t : TypeForm} : Part u t → Part u (.map t)
  | nullable {t : TypeForm} : Part u t → Part u (.nullable t)
  | union {pos : Position} {ts : List TypeForm} {t : TypeForm} : t ∈ ts → Part u t → Part u (.union pos ts)

/-- A name stands in a written type. -/
def Cites (t : TypeForm) (name : Bytes) : Prop := ∃ pos, Part (.named pos name) t

def Proper (t : TypeForm) : Prop := ∀ p, Part (.invalid p) t → p.Plain

variable {wrap : TypeForm → TypeForm} {make : Graph → TypeId → TypeId × Graph} {t u : TypeForm} {ts : List TypeForm}
  {pos : Position} {name b : Bytes}

theorem part_wrap_iff (h : Wraps wrap make) : Part u (wrap t) ↔ u = wrap t ∨ Part u t := by
  constructor
  · intro hpart
    cases h <;> cases hpart <;> first | exact .inl rfl | exact .inr ‹_›
  · rintro (rfl | hpart)
    · exact .self
    · cases h
      · exact .array hpart
      · exact .map hpart
      · exact .nullable hpart

theorem part_union_iff : Part u (.union pos ts) ↔ u = .union pos ts ∨ ∃ t ∈ ts, Part u t := by
  constructor
  · intro hpart
    cases hpart with
    | self => exact .inl rfl
    | union ht hpart => exact .inr ⟨_, ht, hpart⟩
  · rintro (rfl | ⟨t, ht, hpart⟩)
    · exact .self
    · exact .union ht hpart

theorem cites_wrap_iff (h : Wraps wrap make) : (wrap t).Cites b ↔ t.Cites b := by
  refine exists_congr fun pos => (part_wrap_iff h).trans (or_iff_right ?_)
  cases h <;> simp

theorem cites_union_iff : (union pos ts).Cites b ↔ ∃ t ∈ ts, t.Cites b := by
  unfold Cites
  simp only [part_union_iff, reduceCtorEq, false_or]
  constructor
  · rintro ⟨p, t, ht, hpart⟩
    exact ⟨t, ht, p, hpart⟩
  · rintro ⟨t, ht, p, hpart⟩
    exact ⟨p, t, ht, hpart⟩

theorem cites_named_iff : (named pos name).Cites b ↔ b = name := by
  constructor
  · rintro ⟨p, hpart⟩
    cases hpart
    rfl
  · rintro rfl
    exact ⟨pos, .self⟩

theorem not_cites_absent : ¬ absent.Cites b := by
  rintro ⟨p, hpart⟩
  cases hpart

theorem not_cites_invalid {p : Problem} : ¬ (invalid p).Cites b := by
  rintro ⟨p, hpart⟩
  cases hpart

theorem Proper.of_wrap (h : Wraps wrap make) (ht : (wrap t).Proper) : t.Proper :=
  fun p hp => ht p ((part_wrap_iff h).mpr (.inr hp))

theorem Proper.of_union (h : (union pos ts).Proper) : ∀ t ∈ ts, t.Proper :=
  fun _ ht p hp => h p (.union ht hp)

end TypeForm

/-! ## Circular unions -/

namespace UnionScope

/-- A declared union names another one in its members. -/
def Cites (s : UnionScope) (a b : Bytes) : Prop :=
  ∃ u ts, s.unions.lookup a = some u ∧ u.members = some ts ∧ (∃ t ∈ ts, t.Cites b) ∧ (s.unions.lookup b).isSome

/-- A declared union leads to one that leads back to itself. -/
def Circular (s : UnionScope) (a : Bytes) : Prop := ∃ b, ReflTransGen s.Cites a b ∧ TransGen s.Cites b b

def Proper (s : UnionScope) : Prop :=
  ∀ name u ts, s.unions.lookup name = some u → u.members = some ts → ∀ t ∈ ts, t.Proper

variable {s : UnionScope} {a b : Bytes}

theorem Circular.exists_cites (h : s.Circular a) : ∃ b, s.Cites a b ∧ s.Circular b := by
  obtain ⟨c, hac, hcycle⟩ := h
  rcases ReflTransGen.cases_head hac with rfl | ⟨b, hab, hbc⟩
  · obtain ⟨b, hab, hba⟩ := TransGen.head'_iff.mp hcycle
    exact ⟨b, hab, a, hba, hcycle⟩
  · exact ⟨b, hab, c, hbc, hcycle⟩

theorem not_circular_of_missing {u : UnionForm} (hu : s.unions.lookup a = some u) (hm : u.members = none) :
    ¬ s.Circular a := by
  intro h
  obtain ⟨b, ⟨u', ts, hu', hts, -⟩, -⟩ := h.exists_cites
  obtain rfl := Option.some.inj (hu.symm.trans hu')
  simp [hm] at hts

theorem not_circular_of_members {u : UnionForm} {ts : List TypeForm} (hu : s.unions.lookup a = some u)
    (hm : u.members = some ts)
    (h : ∀ t ∈ ts, ∀ b, t.Cites b → (s.unions.lookup b).isSome → ¬ s.Circular b) : ¬ s.Circular a := by
  intro hcirc
  obtain ⟨b, ⟨u', ts', hu', hts, ⟨t, ht, hcites⟩, hb⟩, hcirc⟩ := hcirc.exists_cites
  obtain rfl := Option.some.inj (hu.symm.trans hu')
  obtain rfl := Option.some.inj (hm.symm.trans hts)
  exact h t ht b hcites hb hcirc

end UnionScope

namespace Reading

variable {s : UnionScope} {r r' : Reading}

/-! ## What is told of circular unions is so -/

/-- Every union that is told to contain itself does. -/
def Faithful (s : UnionScope) (r : Reading) : Prop :=
  ∀ p ∈ r.problems, ∀ name, p.fault = .recursiveUnion name → TransGen s.Cites name name

theorem Faithful.reportAll (h : r.Faithful s) {ps : List Problem} (hps : ∀ p ∈ ps, p.Plain) :
    (r.reportAll ps).Faithful s := by
  intro p hp name hname
  rw [problems_reportAll] at hp
  rcases List.mem_append.mp hp with hp | hp
  · exact h p hp name hname
  · exact absurd hname (hps p hp name)

theorem Faithful.report (h : r.Faithful s) {p : Problem} (hp : p.Plain) : (r.report p).Faithful s := by
  have hps : ∀ q ∈ [p], q.Plain := List.forall_mem_singleton.mpr hp
  exact h.reportAll hps

theorem Faithful.makeUnion (h : r.Faithful s) (pos : Position) (hint : Bytes) (members : List (Option TypeId)) :
    (r.makeUnion pos hint members).2.Faithful s := by
  rcases r.makeUnion_cases pos hint members with ⟨-, heq⟩ | ⟨ids, -, ⟨-, heq⟩ | ⟨-, heq⟩⟩ <;> rw [heq]
  · exact h
  · exact h.report (by simp [Problem.Plain])
  · exact h

/-- A written type only names unions that the opened ones lead to. -/
def OpenedLead (s : UnionScope) (opened : List Bytes) (t : TypeForm) : Prop :=
  ∀ a ∈ opened, ∀ b, t.Cites b → (s.unions.lookup b).isSome → TransGen s.Cites a b

theorem OpenedLead.members {opened : List Bytes} {pos : Position} {name : Bytes} {u : UnionForm} {ts : List TypeForm}
    (h : OpenedLead s opened (.named pos name)) (hu : s.unions.lookup name = some u) (hm : u.members = some ts) :
    ∀ t ∈ ts, OpenedLead s (name :: opened) t := by
  intro t ht a ha b hcites hb
  have hname : s.Cites name b := ⟨u, ts, hu, hm, ⟨t, ht, hcites⟩, hb⟩
  rcases List.mem_cons.mp ha with rfl | ha
  · exact .single hname
  · exact (h a ha name (TypeForm.cites_named_iff.mpr rfl) (by simp [hu])).tail hname

theorem OpenedLead.of_wrap {opened : List Bytes} {t : TypeForm} {wrap : TypeForm → TypeForm}
    {make : Graph → TypeId → TypeId × Graph} (hwrap : Wraps wrap make) (h : OpenedLead s opened (wrap t)) :
    OpenedLead s opened t :=
  fun a ha b hb => h a ha b ((TypeForm.cites_wrap_iff hwrap).mpr hb)

/-- A union that is met while it is open leads back to itself. -/
theorem resolveRules_faithful (hs : s.Proper) :
    ResolveRules s
      (fun opened r t x => t.Proper → OpenedLead s opened t → r.Faithful s → x.2.Faithful s)
      fun opened r ts x => (∀ t ∈ ts, t.Proper) → (∀ t ∈ ts, OpenedLead s opened t) → r.Faithful s →
        x.2.Faithful s where
  absent opened r _ _ h := h
  invalid opened r p ht _ h := h.report (ht p .self)
  primitive opened r pos name p _ _ _ h := h
  built opened r pos name id _ _ _ _ h := h
  unknown opened r pos name _ _ _ _ _ h := h.report (by simp [Problem.Plain, UnionScope.unknownType])
  recursive opened r pos name u _ _ hu hopen _ hlead h := by
    intro p hp name' hname'
    rcases List.mem_append.mp hp with hp | hp
    · exact h p hp name' hname'
    · obtain rfl := List.mem_singleton.mp hp
      obtain rfl := Fault.recursiveUnion.inj hname'
      exact hlead name hopen name (TypeForm.cites_named_iff.mpr rfl) (by simp [hu])
  missing opened r pos name u _ _ _ _ _ _ _ h :=
    show (r.report _).Faithful s from h.report (by simp [Problem.Plain])
  declared opened r pos name u ts ids r₁ id r₂ _ _ hu _ hm _ ih hmake _ hlead h := by
    have hfaithful := (ih (hs name u ts hu hm) (hlead.members hu hm) h).makeUnion u.pos name ids
    rwa [hmake] at hfaithful
  wrap_none opened r t r₁ wrap make hwrap ih ht hlead h :=
    ih (ht.of_wrap hwrap) (hlead.of_wrap hwrap) h
  wrap opened r t id r₁ wrap make hwrap _ ih ht hlead h :=
    ih (ht.of_wrap hwrap) (hlead.of_wrap hwrap) h
  union opened r pos ts ids r₁ _ ih ht hlead h :=
    (ih ht.of_union (fun t ht a ha b hb => hlead a ha b (TypeForm.cites_union_iff.mpr ⟨t, ht, hb⟩)) h).makeUnion pos [] ids
  nil opened r _ _ h := h
  cons opened r t ts id r₁ ids r₂ _ _ ih ihs ht hlead h := by
    rw [List.forall_mem_cons] at ht hlead
    exact ihs ht.2 hlead.2 (ih ht.1 hlead.1 h)

theorem Faithful.resolve (h : r.Faithful s) (hs : s.Proper) {t : TypeForm} (ht : t.Proper) :
    (resolve s [] r t).2.Faithful s :=
  (resolveRules_faithful hs).holds [] r t ht (by simp [OpenedLead]) h

/-! ## Circular unions get no types -/

def TellsNoCycle (r : Reading) : Prop := ∀ p ∈ r.problems, p.Plain

theorem TellsNoCycle.before (h : r'.TellsNoCycle) (hp : r.problems <+: r'.problems) : r.TellsNoCycle :=
  fun p hmem => h p (hp.subset hmem)

/-- No type belongs to a circular union: none that is noted for a name, and none that was added to `base` and has the
name of a union as its hint. A union that got no type may be circular only if some union was told to contain
itself. -/
structure Clean (s : UnionScope) (base : Graph) (r : Reading) : Prop where
  known : r.Known
  built : ∀ name id, (s.unions.lookup name).isSome → r.built.lookup name = some id → id ≠ none ∨ r.TellsNoCycle →
    ¬ s.Circular name
  hints : ∀ id hint members, base.size ≤ id → r.graph.node? id = some (.union hint members) →
    hint = [] ∨ hint = r.graph.unionHint [] members ∨ ¬ s.Circular hint

variable {base : Graph}

theorem Clean.report (h : r.Clean s base) (p : Problem) : (r.report p).Clean s base where
  known := h.known.report p
  built name id hname hid hor := h.built name id hname hid (hor.imp_right (·.before (List.prefix_append _ _)))
  hints := h.hints

theorem Clean.define (h : r.Clean s base) {name : Bytes} {id : Option TypeId} (hid : ∀ i, id = some i → i < r.graph.size)
    (hname : id ≠ none ∨ r.TellsNoCycle → ¬ s.Circular name) : (r.define name id).Clean s base where
  known := h.known.define name hid
  built other i hother hi hor := by
    rw [lookup_define] at hi
    split at hi
    · rename_i heq
      obtain rfl := Option.some.inj hi
      exact heq ▸ hname hor
    · exact h.built other i hother hi hor
  hints := h.hints

/-- A type may be added whose hint is no name of a circular union. -/
theorem Clean.push (h : r.Clean s base) {n : Node} (hg : r.graph.GrowsTo (r.graph.push n).2)
    (hn : ∀ hint members, n = .union hint members → (∀ id ∈ members, id < r.graph.size) ∧
      (hint = [] ∨ hint = r.graph.unionHint [] members ∨ ¬ s.Circular hint)) :
    { r with graph := (r.graph.push n).2 }.Clean s base where
  known := h.known.graph (Graph.extends_push hg)
  built := h.built
  hints id hint members hbase hid := by
    have hext := Graph.extends_push hg
    have hsame : (∀ id ∈ members, id < r.graph.size) →
        (r.graph.push n).2.unionHint [] members = r.graph.unionHint [] members :=
      fun hlt => Graph.unionHint_congr fun id hid => hext.memberHint_eq (hlt id hid)
    rw [Graph.node?_push] at hid
    split at hid
    · obtain ⟨hlt, hhint⟩ := hn hint members (Option.some.inj hid)
      rwa [hsame hlt]
    · have hlt : ∀ id ∈ members, id < r.graph.size := (h.known.wellFormed.fits id _ hid).known
      rw [hsame hlt]
      exact h.hints id hint members hbase hid

theorem Clean.intern (h : r.Clean s base) {n : Node} (hg : r.graph.GrowsTo (r.graph.intern n).2)
    (hn : ∀ hint members, n ≠ .union hint members) : { r with graph := (r.graph.intern n).2 }.Clean s base := by
  rcases r.graph.intern_cases n with ⟨id, -, heq⟩ | ⟨-, heq⟩ <;> rw [heq] at hg ⊢
  · exact h
  · exact h.push hg fun hint members heq => absurd heq (hn hint members)

theorem Clean.wrap (h : r.Clean s base) {wrap : TypeForm → TypeForm} {make : Graph → TypeId → TypeId × Graph}
    (hwrap : Wraps wrap make) {id : TypeId} (hid : id < r.graph.size) :
    { r with graph := (make r.graph id).2 }.Clean s base := by
  cases hwrap with
  | array => exact h.intern (Graph.growsTo_array hid) (by simp)
  | map => exact h.intern (Graph.growsTo_map hid) (by simp)
  | nullable =>
    have hgrow := Graph.growsTo_nullable hid
    rcases r.graph.internNullable_cases id with ⟨-, heq⟩ | ⟨-, heq⟩ <;> simp only [heq] at hgrow ⊢
    · exact h
    · refine h.push hgrow ?_
      rintro hint members ⟨⟩
      have hnull := Graph.lt_size_of_node? (h.known.wellFormed.primitives .null)
      exact ⟨by simpa using ⟨hid, hnull⟩, .inl rfl⟩

theorem Clean.makeUnion (h : r.Clean s base) (pos : Position) {hint : Bytes} {members : List (Option TypeId)}
    (hids : ∀ id, some id ∈ members → id < r.graph.size) (hhint : none ∉ members → hint = [] ∨ ¬ s.Circular hint) :
    (r.makeUnion pos hint members).2.Clean s base := by
  rcases r.makeUnion_cases pos hint members with ⟨-, heq⟩ | ⟨ids, rfl, ⟨-, heq⟩ | ⟨h₂, heq⟩⟩ <;> rw [heq]
  · exact h
  · exact h.report _
  · have hlt : ∀ id ∈ distinct ids, id < r.graph.size :=
      fun id hid => hids id (List.mem_map_of_mem (Graph.mem_of_mem_distinct hid))
    refine h.push (Graph.growsTo_union _ (fun id hid => hids id (List.mem_map_of_mem hid)) h₂) ?_
    rintro _ _ ⟨⟩
    refine ⟨hlt, .inr ?_⟩
    rcases hhint (by simp) with rfl | hcirc
    · exact .inl rfl
    · cases hint with
      | nil => exact .inl rfl
      | cons c hint => exact .inr hcirc

/-- A union is not made only if a member is missing or a problem is told. -/
theorem makeUnion_outcome {pos : Position} {hint : Bytes} {members : List (Option TypeId)}
    (h : (r.makeUnion pos hint members).1 ≠ none ∨ (r.makeUnion pos hint members).2.TellsNoCycle) :
    none ∉ members ∨ r.TellsNoCycle := by
  rcases r.makeUnion_cases pos hint members with ⟨-, heq⟩ | ⟨ids, rfl, -⟩
  · rw [heq] at h
    exact .inr (h.resolve_left (by simp))
  · exact .inl (by simp)

/-- A type is made, or no union is told to contain itself, only if no circular union is named. -/
theorem resolveRules_clean (hprim : ∀ name, (s.unions.lookup name).isSome → Primitive.ofName? name = none)
    (base : Graph) :
    ResolveRules s
      (fun _ r t x => r.Clean s base → x.2.Clean s base ∧ (x.1 ≠ none ∨ x.2.TellsNoCycle →
        ∀ b, t.Cites b → (s.unions.lookup b).isSome → ¬ s.Circular b))
      fun _ r ts x => r.Clean s base → x.2.Clean s base ∧ (none ∉ x.1 ∨ x.2.TellsNoCycle →
        ∀ t ∈ ts, ∀ b, t.Cites b → (s.unions.lookup b).isSome → ¬ s.Circular b) where
  absent opened r h := ⟨h, fun _ b hb => absurd hb TypeForm.not_cites_absent⟩
  invalid opened r p h := ⟨h.report p, fun _ b hb => absurd hb TypeForm.not_cites_invalid⟩
  primitive opened r pos name p hp h := by
    refine ⟨h, fun _ b hb hu => ?_⟩
    obtain rfl := TypeForm.cites_named_iff.mp hb
    simp [hprim b hu] at hp
  built opened r pos name id _ hid h := by
    refine ⟨h, fun hor b hb hu => ?_⟩
    obtain rfl := TypeForm.cites_named_iff.mp hb
    exact h.built b id hu hid hor
  unknown opened r pos name _ _ hnone h := by
    refine ⟨h.report _, fun _ b hb hu => ?_⟩
    obtain rfl := TypeForm.cites_named_iff.mp hb
    simp [hnone] at hu
  recursive opened r pos name u _ _ _ _ h := by
    -- there is no type, and a cycle is told
    refine ⟨h.report _, fun hor => ?_⟩
    rcases hor with hsome | htells
    · exact absurd rfl hsome
    · exact absurd rfl (htells ⟨.recursiveUnion name, pos⟩ (by simp [report]) name)
  missing opened r pos name u _ _ hu _ hm h := by
    have hname := UnionScope.not_circular_of_missing hu hm
    refine ⟨(h.report _).define (by simp) fun _ => hname, fun _ b hb _ => ?_⟩
    obtain rfl := TypeForm.cites_named_iff.mp hb
    exact hname
  declared opened r pos name u ts ids r₁ id r₂ _ _ hu _ hm hall ih hmake h := by
    obtain ⟨hclean, hmembers⟩ := ih h
    have hlt := ((resolveRules_known s).holds_all (name :: opened) r ts h.known).lt_size
    rw [hall] at hlt
    -- a circle behind this union goes through one of its members, and all of them were resolved
    have hname : none ∉ ids ∨ r₁.TellsNoCycle → ¬ s.Circular name :=
      fun hor => UnionScope.not_circular_of_members hu hm (hmembers hor)
    have hclean₂ := hclean.makeUnion u.pos hlt fun hnone => .inr (hname (.inl hnone))
    have hlt₂ := (hclean.known.makeUnion u.pos name hlt).lt_size
    have hname₂ := fun (hor : (r₁.makeUnion u.pos name ids).1 ≠ none ∨ _) => hname (makeUnion_outcome hor)
    rw [hmake] at hclean₂ hlt₂ hname₂
    refine ⟨hclean₂.define (fun i hi => hlt₂ i (by simp [hi])) hname₂, fun hor b hb _ => ?_⟩
    obtain rfl := TypeForm.cites_named_iff.mp hb
    exact hname₂ hor
  wrap_none opened r t r₁ wrap make hwrap ih h := by
    obtain ⟨hclean, hcites⟩ := ih h
    exact ⟨hclean, fun hor b hb => hcites hor b ((TypeForm.cites_wrap_iff hwrap).mp hb)⟩
  wrap opened r t id r₁ wrap make hwrap hres ih h := by
    obtain ⟨hclean, hcites⟩ := ih h
    have hlt := (h.known.resolves s opened t).lt_size id
    rw [hres] at hlt
    exact ⟨hclean.wrap hwrap (hlt (by simp)),
      fun _ b hb => hcites (.inl (by simp)) b ((TypeForm.cites_wrap_iff hwrap).mp hb)⟩
  union opened r pos ts ids r₁ hall ih h := by
    obtain ⟨hclean, hmembers⟩ := ih h
    have hlt := ((resolveRules_known s).holds_all opened r ts h.known).lt_size
    rw [hall] at hlt
    refine ⟨hclean.makeUnion pos hlt fun _ => .inl rfl, fun hor b hb => ?_⟩
    obtain ⟨t, ht, hb⟩ := TypeForm.cites_union_iff.mp hb
    exact hmembers (makeUnion_outcome hor) t ht b hb
  nil opened r h := ⟨h, by simp⟩
  cons opened r t ts id r₁ ids r₂ _ hall ih ihs h := by
    obtain ⟨hclean, hcites⟩ := ih h
    obtain ⟨hclean', hcites'⟩ := ihs hclean
    have hgrows := ((resolveRules_known s).holds_all opened r₁ ts hclean.known).grows
    rw [hall] at hgrows
    refine ⟨hclean', fun hor => List.forall_mem_cons.mpr ⟨hcites ?_, hcites' ?_⟩⟩
    · exact hor.imp (fun hnone hid => hnone (by simp [← hid])) (·.before hgrows.problems)
    · exact hor.imp_left fun hnone hmem => hnone (List.mem_cons_of_mem _ hmem)

theorem Clean.resolve (h : r.Clean s base)
    (hprim : ∀ name, (s.unions.lookup name).isSome → Primitive.ofName? name = none) (t : TypeForm) :
    (resolve s [] r t).2.Clean s base :=
  ((resolveRules_clean hprim base).holds [] r t h).1

end Reading

end Typewright
