import Typewright.Options
import Typewright.Proofs.Description.Distance
import Typewright.Proofs.Description.RecursiveUnions
import Typewright.Proofs.Description.Unreachable

/-!
# Unknown names are answered with the nearest ones

* `UnknownIn f name` : a type that a description brings names something that is neither declared nor primitive;
* `NamesIn f names` : the names that a description declares, in their order;
* `Reading.Answers`, `Reading.Tells` : what is told of unknown names is so, and those in a type were told. The first is
  kept on a course, and the second comes about for each type that is resolved (`Reading.Answers.course`);
* `readForm_suggests_nearest_names` : an unknown name is told together with the first five of the known names that are
  at most two edits away.
-/

namespace Typewright

open Edn (Form)

/-! ## The types and the names of a description -/

/-- A description brings a type: a member of a declared union, the type of a property of a declared class, or the type
of a top-level. -/
inductive TypeIn (f : Form) : Form → Prop where
  | member {d : Declaration} {members type : Form} {items : List Form} : DeclaredIn f d → d.kind = .union →
    d.sections.lookup (Bytes.ascii "members") = some members → members.vector? = some items → type ∈ items →
    TypeIn f type
  | property {d : Declaration} {type : Form} : DeclaredIn f d → d.kind = .record → TypesProperty d type → TypeIn f type
  | top {s : Sections} {tops g type : Form} {items : List Form} : Entry (Bytes.ascii "graph") f s →
    s.lookup (Bytes.ascii "top-levels") = some tops → tops.vector? = some items → g ∈ items → TypesTop g type →
    TypeIn f type

/-- A type of a description names something that is neither declared nor primitive. -/
def UnknownIn (f : Form) (name : Bytes) : Prop :=
  (∃ type, TypeIn f type ∧ NamesType type name) ∧ Primitive.ofName? name = none ∧ ∀ d, DeclaredIn f d → d.name ≠ name

/-- What forms declare, if they declare something. -/
def HeadsAll (items : List Form) (heads : List (Option Declaration)) : Prop :=
  List.Forall₂ (fun f head => ∀ d, head = some d ↔ Heads f d) items heads

/-- The names of declarations that are taken up, in their order: a name of a primitive type is not, nor is one that was
taken up before. -/
def takenNames (heads : List (Option Declaration)) : List Bytes :=
  ((heads.reduceOption.map Declaration.name).filter fun name => (Primitive.ofName? name).isNone).eraseDups

/-- The names that a description declares, in their order. -/
def NamesIn (f : Form) (names : List Bytes) : Prop :=
  ∃ s heads, Entry (Bytes.ascii "graph") f s ∧
    HeadsAll (((s.lookup (Bytes.ascii "types")).bind Form.vector?).getD []) heads ∧ names = takenNames heads

theorem exists_headsAll (items : List Form) : ∃ heads, HeadsAll items heads := by
  induction items with
  | nil => exact ⟨[], .nil⟩
  | cons f items ih =>
    obtain ⟨heads, hheads⟩ := ih
    by_cases h : ∃ d, Heads f d
    · obtain ⟨d, hd⟩ := h
      refine ⟨some d :: heads, .cons (fun d' => ⟨?_, fun hd' => congrArg some (hd.unique hd')⟩) hheads⟩
      rintro ⟨⟩
      exact hd
    · refine ⟨none :: heads, .cons (fun d => ⟨?_, fun hd => absurd ⟨d, hd⟩ h⟩) hheads⟩
      rintro ⟨⟩

/-- Declarations are taken up if their names are new. -/
theorem map_name_foldl_declare {items : List Form} (hw : ∀ f ∈ items, f.Whole) {heads : List (Option Declaration)}
    (hheads : HeadsAll items heads) (ds : List Declaration) (r : Reading) :
    (items.foldl declare (ds, r)).1.map Declaration.name = ds.map Declaration.name ++
      (((heads.reduceOption.map Declaration.name).filter fun name => (Primitive.ofName? name).isNone).filter
        fun name => name ∉ ds.map Declaration.name).eraseDups := by
  induction hheads generalizing ds r with
  | nil => simp
  | @cons f head items heads hhead _ ih =>
    rw [List.forall_mem_cons] at hw
    rw [List.foldl_cons]
    by_cases htaken : ∃ d, head = some d ∧ Primitive.ofName? d.name = none ∧ d.name ∉ ds.map Declaration.name
    · obtain ⟨d, rfl, hp, hnew⟩ := htaken
      have hok : readDeclaration ds f = .ok d := (readDeclaration_eq_ok_iff_heads hw.1).mpr
        ⟨(hhead d).mp rfl, hp, fun d' hd' heq => hnew (heq ▸ List.mem_map_of_mem hd')⟩
      rw [declare_of_ok hw.1 hok, ih hw.2, List.reduceOption_cons_of_some, List.map_cons,
        List.filter_cons_of_pos (by simp [hp]), List.filter_cons_of_pos (by simpa using hnew), List.eraseDups_cons,
        List.map_append, List.append_assoc, List.map_singleton, List.singleton_append]
      congr 3
      conv_rhs => rw [List.filter_filter]
      refine List.filter_congr fun name _ => ?_
      by_cases heq : name = d.name <;> simp [heq, List.mem_append]
    · -- what is not taken up is also left out on the right
      have hskip : declare (ds, r) f = (ds, (declare (ds, r) f).2) := by
        unfold declare
        dsimp only
        rw [if_pos hw.1.isPresent]
        cases hread : readDeclaration ds f with
        | error p => rfl
        | ok d =>
          obtain ⟨hd, hp, hnew⟩ := (readDeclaration_eq_ok_iff_heads hw.1).mp hread
          refine absurd ⟨d, (hhead d).mpr hd, hp, fun hmem => ?_⟩ htaken
          obtain ⟨d', hd', heq⟩ := List.mem_map.mp hmem
          exact hnew d' hd' heq
      rw [hskip, ih hw.2]
      congr 2
      cases head with
      | none => rfl
      | some d =>
        rw [List.reduceOption_cons_of_some, List.map_cons, List.filter_filter, List.filter_filter,
          List.filter_cons_of_neg]
        intro h
        rw [Bool.and_eq_true, decide_eq_true_iff, Option.isNone_iff_eq_none] at h
        exact htaken ⟨d, rfl, h.2, h.1⟩

/-! ## What is told while types are resolved -/

namespace UnionScope

/-- A name is neither declared nor primitive. -/
def Unknown (s : UnionScope) (name : Bytes) : Prop := Primitive.ofName? name = none ∧ name ∉ s.names

/-- What is no type in a written type is told by problems of forms, and its unknown names are expected. -/
structure Admits (s : UnionScope) (U : Bytes → Prop) (t : TypeForm) : Prop where
  formal : ∀ p, TypeForm.Part (.invalid p) t → p.Formal
  names : ∀ name, t.Cites name → s.Unknown name → U name

/-- The unions are declared, and their members are admitted. -/
structure Closed (s : UnionScope) (U : Bytes → Prop) : Prop where
  names : ∀ name, (s.unions.lookup name).isSome → name ∈ s.names
  members : ∀ name u ts, s.unions.lookup name = some u → u.members = some ts → ∀ t ∈ ts, s.Admits U t

variable {s : UnionScope} {U : Bytes → Prop} {t : TypeForm}

theorem Admits.of_wrap {wrap : TypeForm → TypeForm} {make : Graph → TypeId → TypeId × Graph} (h : Wraps wrap make)
    (ht : s.Admits U (wrap t)) : s.Admits U t where
  formal p hp := ht.formal p ((TypeForm.part_wrap_iff h).mpr (.inr hp))
  names name hname := ht.names name ((TypeForm.cites_wrap_iff h).mpr hname)

theorem Admits.of_union {pos : Position} {ts : List TypeForm} (h : s.Admits U (.union pos ts)) :
    ∀ t ∈ ts, s.Admits U t := fun t ht =>
  { formal := fun p hp => h.formal p (.union ht hp)
    names := fun name hname => h.names name (TypeForm.cites_union_iff.mpr ⟨t, ht, hname⟩) }

/-- A declared name is admitted. -/
theorem admits_named {name : Bytes} (hname : name ∈ s.names) (pos : Position) : s.Admits U (.named pos name) where
  formal p hp := by cases hp
  names other hother hunknown := absurd (TypeForm.cites_named_iff.mp hother ▸ hname) hunknown.2

end UnionScope

namespace Reading

/-- The unknown names in a written type were told. -/
def Tells (s : UnionScope) (r : Reading) (t : TypeForm) : Prop :=
  ∀ name, t.Cites name → s.Unknown name → ∃ pos, s.unknownType pos name ∈ r.problems

/-- What is told of unknown names is so, and of the members of the unions that were built all of it was told. -/
structure Answers (s : UnionScope) (U : Bytes → Prop) (r : Reading) : Prop where
  declared : ∀ name ∈ s.names, (r.built.lookup name).isSome ∨ (s.unions.lookup name).isSome
  names : ∀ name, (r.built.lookup name).isSome → name ∈ s.names
  told : ∀ p ∈ r.problems, ∀ name similar, p.fault = .unknownType name similar →
    s.Unknown name ∧ U name ∧ p = s.unknownType p.pos name
  members : ∀ name u ts, s.unions.lookup name = some u → u.members = some ts → (r.built.lookup name).isSome →
    ∀ t ∈ ts, r.Tells s t

variable {s : UnionScope} {U : Bytes → Prop} {r r' : Reading} {t : TypeForm}

theorem Tells.mono (h : r.Tells s t) (hp : r.problems <+: r'.problems) : r'.Tells s t := by
  intro name hname hunknown
  obtain ⟨pos, hpos⟩ := h name hname hunknown
  exact ⟨pos, hp.subset hpos⟩

/-- A declared name is not unknown. -/
theorem tells_named {name : Bytes} (h : Primitive.ofName? name ≠ none ∨ name ∈ s.names) (pos : Position) :
    r.Tells s (.named pos name) := by
  intro other hother hunknown
  obtain rfl := TypeForm.cites_named_iff.mp hother
  rcases h with h | h
  · exact absurd hunknown.1 h
  · exact absurd h hunknown.2

theorem Answers.report (h : r.Answers s U) {p : Problem} (hp : ∀ name similar, p.fault = .unknownType name similar →
    s.Unknown name ∧ U name ∧ p = s.unknownType p.pos name) : (r.report p).Answers s U where
  declared := h.declared
  names := h.names
  told q hq := by
    rcases List.mem_append.mp hq with hq | hq
    · exact h.told q hq
    · obtain rfl := List.mem_singleton.mp hq
      exact hp
  members name u ts hu hts hname t ht := (h.members name u ts hu hts hname t ht).mono (List.prefix_append _ _)

theorem Answers.define (h : r.Answers s U) {name : Bytes} (hname : name ∈ s.names)
    (hmembers : ∀ u ts, s.unions.lookup name = some u → u.members = some ts → ∀ t ∈ ts, r.Tells s t)
    (id : Option TypeId) : (r.define name id).Answers s U where
  declared other hother := by
    rw [lookup_define]
    split
    · exact .inl rfl
    · exact h.declared other hother
  names other hother := by
    rw [lookup_define] at hother
    split at hother
    · rename_i heq
      exact heq ▸ hname
    · exact h.names other hother
  told := h.told
  members other u ts hu hts hother := by
    rw [lookup_define] at hother
    split at hother
    · rename_i heq
      exact hmembers u ts (heq ▸ hu) hts
    · exact h.members other u ts hu hts hother

theorem Answers.withGraph (h : r.Answers s U) (g : Graph) : { r with graph := g }.Answers s U :=
  ⟨h.declared, h.names, h.told, h.members⟩

theorem Answers.makeUnion (h : r.Answers s U) (pos : Position) (hint : Bytes) (members : List (Option TypeId)) :
    r.problems <+: (r.makeUnion pos hint members).2.problems ∧ (r.makeUnion pos hint members).2.Answers s U := by
  rcases r.makeUnion_cases pos hint members with ⟨-, heq⟩ | ⟨ids, rfl, ⟨-, heq⟩ | ⟨-, heq⟩⟩ <;> rw [heq]
  · exact ⟨List.prefix_refl _, h⟩
  · exact ⟨List.prefix_append _ _, h.report (by simp)⟩
  · exact ⟨List.prefix_refl _, h.withGraph _⟩

theorem resolveRules_answers (hs : s.Closed U) :
    ResolveRules s
      (fun _ r t x => s.Admits U t → r.Answers s U →
        r.problems <+: x.2.problems ∧ x.2.Answers s U ∧ x.2.Tells s t)
      fun _ r ts x => (∀ t ∈ ts, s.Admits U t) → r.Answers s U →
        r.problems <+: x.2.problems ∧ x.2.Answers s U ∧ ∀ t ∈ ts, x.2.Tells s t where
  absent opened r _ h := ⟨List.prefix_refl _, h, fun name hname => absurd hname TypeForm.not_cites_absent⟩
  invalid opened r p ht h :=
    ⟨List.prefix_append _ _,
      h.report fun name similar heq => absurd heq ((ht.formal p .self).ne_unknownType name similar),
      fun name hname => absurd hname TypeForm.not_cites_invalid⟩
  primitive opened r pos name p hp _ h := ⟨List.prefix_refl _, h, tells_named (.inl (by simp [hp])) pos⟩
  built opened r pos name id _ hid _ h :=
    ⟨List.prefix_refl _, h, tells_named (.inr (h.names name (by simp [hid]))) pos⟩
  unknown opened r pos name hp hid hu ht h := by
    have hunknown : s.Unknown name := by
      refine ⟨hp, fun hname => ?_⟩
      rcases h.declared name hname with hbuilt | hunion
      · simp [hid] at hbuilt
      · simp [hu] at hunion
    refine ⟨List.prefix_append _ _, h.report ?_, fun other hother _ => ⟨pos, ?_⟩⟩
    · rintro other similar heq
      obtain ⟨rfl, -⟩ := Fault.unknownType.inj heq
      exact ⟨hunknown, ht.names name (TypeForm.cites_named_iff.mpr rfl) hunknown, rfl⟩
    · rw [TypeForm.cites_named_iff.mp hother]
      exact List.mem_append_right _ List.mem_cons_self
  recursive opened r pos name u _ _ hu _ _ h :=
    ⟨List.prefix_append _ _, h.report (by simp), tells_named (.inr (hs.names name (by simp [hu]))) pos⟩
  missing opened r pos name u _ _ hu _ hm _ h := by
    have hname : name ∈ s.names := hs.names name (by simp [hu])
    refine ⟨List.prefix_append _ _, (h.report (by simp)).define hname (fun u' ts hu' hts => ?_) none,
      tells_named (.inr hname) pos⟩
    obtain rfl := Option.some.inj (hu.symm.trans hu')
    simp [hm] at hts
  declared opened r pos name u ts ids r₁ id r₂ _ _ hu _ hm _ ih hmake _ h := by
    have hname : name ∈ s.names := hs.names name (by simp [hu])
    obtain ⟨hmore, hanswers, htells⟩ := ih (hs.members name u ts hu hm) h
    obtain ⟨hmore', hanswers'⟩ := hanswers.makeUnion u.pos name ids
    rw [hmake] at hmore' hanswers'
    refine ⟨hmore.trans hmore', hanswers'.define hname (fun u' ts' hu' hts' t ht => ?_) id,
      tells_named (.inr hname) pos⟩
    obtain rfl := Option.some.inj (hu.symm.trans hu')
    obtain rfl := Option.some.inj (hm.symm.trans hts')
    exact (htells t ht).mono hmore'
  wrap_none opened r t r₁ wrap make hwrap ih ht h := by
    obtain ⟨hmore, hanswers, htells⟩ := ih (ht.of_wrap hwrap) h
    exact ⟨hmore, hanswers, fun name hname => htells name ((TypeForm.cites_wrap_iff hwrap).mp hname)⟩
  wrap opened r t id r₁ wrap make hwrap _ ih ht h := by
    obtain ⟨hmore, hanswers, htells⟩ := ih (ht.of_wrap hwrap) h
    exact ⟨hmore, hanswers.withGraph _, fun name hname => htells name ((TypeForm.cites_wrap_iff hwrap).mp hname)⟩
  union opened r pos ts ids r₁ _ ih ht h := by
    obtain ⟨hmore, hanswers, htells⟩ := ih ht.of_union h
    obtain ⟨hmore', hanswers'⟩ := hanswers.makeUnion pos [] ids
    refine ⟨hmore.trans hmore', hanswers', fun name hname => ?_⟩
    obtain ⟨t, ht, hcites⟩ := TypeForm.cites_union_iff.mp hname
    exact ((htells t ht).mono hmore') name hcites
  nil opened r _ h := ⟨List.prefix_refl _, h, fun t ht => absurd ht List.not_mem_nil⟩
  cons opened r t ts id r₁ ids r₂ _ _ ih ihs hts h := by
    rw [List.forall_mem_cons] at hts
    obtain ⟨hmore, hanswers, htells⟩ := ih hts.1 h
    obtain ⟨hmore', hanswers', htells'⟩ := ihs hts.2 hanswers
    exact ⟨hmore.trans hmore', hanswers', List.forall_mem_cons.mpr ⟨htells.mono hmore', htells'⟩⟩

/-- Whatever a reading resolves, the unknown names in it are told. -/
theorem Answers.course (h : r.Answers s U) (hs : s.Closed U) {T : Set TypeForm} (hcourse : Course s T r r')
    (hT : ∀ t ∈ T, s.Admits U t) : r.problems <+: r'.problems ∧ r'.Answers s U ∧ ∀ t ∈ T, r'.Tells s t := by
  induction hcourse with
  | done r => exact ⟨List.prefix_refl _, h, fun t ht => absurd ht (Set.notMem_empty t)⟩
  | report hp _ ih =>
    obtain ⟨hmore, hrest⟩ := ih (h.report fun name similar heq => absurd heq (hp.ne_unknownType name similar)) hT
    exact ⟨(List.prefix_append _ _).trans hmore, hrest⟩
  | @resolve T r r' t _ ih =>
    rw [Set.forall_mem_insert] at hT
    obtain ⟨hmore, hanswers, htells⟩ := (resolveRules_answers hs).holds [] r t hT.1 h
    obtain ⟨hmore', hanswers', htells'⟩ := ih hanswers hT.2
    exact ⟨hmore.trans hmore', hanswers', Set.forall_mem_insert.mpr ⟨htells.mono hmore', htells'⟩⟩
  | graph _ _ _ ih => exact ih (h.withGraph _) hT

/-! ## Before the unions -/

theorem isSome_lookup_buildEnum {d : Declaration} {name : Bytes} :
    ((buildEnum r d).built.lookup name).isSome ↔ d.name = name ∨ (r.built.lookup name).isSome := by
  have hdefine : ∀ (r' : Reading) id, r'.built = r.built →
      (((r'.define d.name id).built.lookup name).isSome ↔ d.name = name ∨ (r.built.lookup name).isSome) := by
    intro r' id hbuilt
    rw [lookup_define, hbuilt]
    by_cases heq : name = d.name
    · simp [heq]
    · simp [heq, Ne.symm heq]
  unfold buildEnum
  split
  · exact hdefine _ _ rfl
  · split
    · exact hdefine _ _ rfl
    · exact hdefine _ _ (Reading.built_reportAll _ _)

theorem isSome_lookup_foldl_buildEnum {l : List Declaration} {name : Bytes} :
    ((l.foldl buildEnum r).built.lookup name).isSome ↔ (∃ d ∈ l, d.name = name) ∨ (r.built.lookup name).isSome := by
  induction l generalizing r with
  | nil => simp
  | cons d l ih =>
    rw [List.foldl_cons, ih, isSome_lookup_buildEnum, List.exists_mem_cons_iff, or_left_comm, or_assoc]

/-- Before the unions nothing was told of unknown names. -/
theorem Prepared.answers {base : Graph} {ds : List Declaration} {suggests : Bool} (h : Prepared base ds r)
    (hdeclared : Declared ds r) (henums : ∀ d ∈ ds, d.kind = .enum → (r.built.lookup d.name).isSome) :
    r.Answers (unionScope suggests ds) U where
  declared name hname := by
    obtain ⟨d, hd, rfl⟩ := List.mem_map.mp hname
    cases hkind : d.kind with
    | record =>
      obtain ⟨id, -, -, hid, -⟩ := hdeclared.classes d hd hkind
      exact .inl (by simp [hid])
    | enum => exact .inl (henums d hd hkind)
    | union => exact .inr (by simp [lookup_unions_of_mem hdeclared.names hd hkind])
  names name hname := by
    obtain ⟨id, hid⟩ := Option.isSome_iff_exists.mp hname
    obtain ⟨d, hd, -, rfl⟩ := h.built name id hid
    exact List.mem_map_of_mem hd
  told p hp name similar heq := absurd heq ((h.formal p hp).ne_unknownType name similar)
  members name u ts hu _ hname := by
    obtain ⟨id, hid⟩ := Option.isSome_iff_exists.mp hname
    obtain ⟨d, hd, hkind, rfl⟩ := h.built name id hid
    simp [lookup_unions_eq_none hdeclared.names hd hkind] at hu

end Reading

/-! ## The whole reading -/

namespace Sections

variable {s : Sections} {f : Form} {graph : Graph} {suggests : Bool}

theorem mem_names_scope (hs : s.Whole) (hentry : Entry (Bytes.ascii "graph") f s) {name : Bytes} :
    name ∈ (s.scope suggests graph).names ↔ ∃ d, DeclaredIn f d ∧ d.name = name := by
  have hmem : name ∈ (s.scope suggests graph).names ↔ ∃ d ∈ (s.declarations graph).1, d.name = name := List.mem_map
  simp only [hmem, mem_declarations_iff hs hentry]

/-- An unknown name in a type of the description is unknown in it. -/
theorem admits_ofForm (hs : s.Whole) (hentry : Entry (Bytes.ascii "graph") f s) {type : Form} (htype : TypeIn f type) :
    (s.scope suggests graph).Admits (UnknownIn f) (.ofForm type) where
  formal := TypeForm.formal_of_part type
  names name hname hunknown := by
    refine ⟨⟨type, htype, (TypeForm.cites_ofForm_iff type).mp hname⟩, hunknown.1, fun d hd heq => ?_⟩
    exact hunknown.2 ((mem_names_scope hs hentry).mpr ⟨d, hd, heq⟩)

theorem typeIn_of_member (hs : s.Whole) (hentry : Entry (Bytes.ascii "graph") f s) {d : Declaration}
    {ts : List TypeForm} (hd : d ∈ (s.declarations graph).1) (hkind : d.kind = .union)
    (hts : d.unionForm.members = some ts) : ∀ t ∈ ts, ∃ type, TypeIn f type ∧ t = .ofForm type := by
  rw [Declaration.members_unionForm (whole_of_mem_declarations hs hentry hd)] at hts
  obtain ⟨items, hitems, rfl⟩ := Option.map_eq_some_iff.mp hts
  obtain ⟨members, hmembers, hitems⟩ := Option.bind_eq_some_iff.mp hitems
  intro t ht
  obtain ⟨type, htype, rfl⟩ := List.mem_map.mp ht
  exact ⟨type, .member ((mem_declarations_iff hs hentry).mp hd) hkind hmembers hitems htype, rfl⟩

theorem closed_scope (hs : s.Whole) (hentry : Entry (Bytes.ascii "graph") f s) :
    (s.scope suggests graph).Closed (UnknownIn f) where
  names name hname := by
    obtain ⟨u, hu⟩ := Option.isSome_iff_exists.mp hname
    obtain ⟨d, hd, -, rfl, -⟩ := mem_of_lookup_unions hu
    exact List.mem_map_of_mem hd
  members name u ts hu hts t ht := by
    obtain ⟨d, hd, hkind, -, rfl⟩ := mem_of_lookup_unions hu
    obtain ⟨type, htype, rfl⟩ := typeIn_of_member hs hentry hd hkind hts t ht
    exact admits_ofForm hs hentry htype

theorem answers_withEnums (hgraph : graph.WellFormed) {U : Bytes → Prop} :
    (s.withEnums graph).Answers (s.scope suggests graph) U :=
  prepared_withEnums.answers (s.declared_declarations hgraph).foldl_buildEnum fun d hd hkind =>
    Reading.isSome_lookup_foldl_buildEnum.mpr (.inl ⟨d, mem_ofKind.mpr ⟨hd, hkind⟩, rfl⟩)

/-- What a reading tells of unknown names is so, and it tells of all. -/
theorem answers_withTops (hs : s.Whole) (hentry : Entry (Bytes.ascii "graph") f s) (hgraph : graph.WellFormed) :
    (s.withTops suggests graph).Answers (s.scope suggests graph) (UnknownIn f) ∧
      ∀ type, TypeIn f type → (s.withTops suggests graph).Tells (s.scope suggests graph) (.ofForm type) := by
  have hclosed : (s.scope suggests graph).Closed (UnknownIn f) := closed_scope hs hentry
  have hnames := (s.declared_declarations hgraph).names
  obtain ⟨-, hunions, -⟩ := (answers_withEnums hgraph).course hclosed (course_withUnions hgraph) (by
    rintro t ⟨d, hd, -, rfl⟩
    exact UnionScope.admits_named (List.mem_map_of_mem hd) d.pos)
  obtain ⟨hmore, hanswers, htells⟩ := hunions.course hclosed (course_withTops hs hentry hgraph) (by
    rintro t ⟨type, ⟨d, hd, hkind, hprop⟩ | ⟨tops, items, htops, hitems, g, hg, htop⟩, rfl⟩
    · exact admits_ofForm hs hentry (.property ((mem_declarations_iff hs hentry).mp hd) hkind hprop)
    · exact admits_ofForm hs hentry (.top hentry htops hitems hg htop))
  refine ⟨hanswers, fun type htype => ?_⟩
  cases htype with
  | @member d members _ items hd hkind hmembers hitems htype =>
    have hd : d ∈ (s.declarations graph).1 := (mem_declarations_iff hs hentry).mpr hd
    have hbuilt : ((s.withUnions suggests graph).built.lookup d.name).isSome :=
      isSome_lookup_withUnions hs hentry hgraph hd hkind
    have hforms : d.unionForm.members = some (items.map TypeForm.ofForm) := by
      simp [Declaration.members_unionForm (whole_of_mem_declarations hs hentry hd), hmembers, hitems]
    exact (hunions.members d.name d.unionForm _ (lookup_unions_of_mem hnames hd hkind) hforms hbuilt _
      (List.mem_map_of_mem htype)).mono hmore
  | property hd hkind htype =>
    exact htells _ ⟨type, .inl ⟨_, (mem_declarations_iff hs hentry).mpr hd, hkind, htype⟩, rfl⟩
  | top hentry' htops hitems hg htype =>
    obtain rfl := hentry'.unique hentry
    exact htells _ ⟨type, .inr ⟨_, _, htops, hitems, _, hg, htype⟩, rfl⟩

/-- The names that may be suggested are those that the description declares. -/
theorem names_scope_eq (hs : s.Whole) (hentry : Entry (Bytes.ascii "graph") f s) {names : List Bytes}
    (h : NamesIn f names) : (s.scope suggests graph).names = names := by
  obtain ⟨s', heads, hentry', hheads, rfl⟩ := h
  obtain rfl := hentry'.unique hentry
  have hnames : (s'.scope suggests graph).names = (s'.declarations graph).1.map Declaration.name := rfl
  rw [hnames, declarations, hs.get?_eq]
  cases htypes : s'.lookup (Bytes.ascii "types") with
  | none =>
    simp only [htypes] at hheads
    cases hheads
    rfl
  | some types =>
    rw [Option.map_some, Option.getD_some, readDeclarations]
    cases hitems : types.vector? with
    | none =>
      simp only [htypes, hitems, Option.bind_some] at hheads
      cases hheads
      rfl
    | some items =>
      simp only [htypes, hitems, Option.bind_some, Option.getD_some] at hheads
      rw [map_name_foldl_declare ((hs.of_lookup htypes).of_vector? hitems) hheads]
      simp [takenNames]

end Sections

theorem exists_namesIn {f : Form} {s : Sections} (hentry : Entry (Bytes.ascii "graph") f s) :
    ∃ names, NamesIn f names := by
  obtain ⟨heads, hheads⟩ := exists_headsAll (((s.lookup (Bytes.ascii "types")).bind Form.vector?).getD [])
  exact ⟨takenNames heads, s, heads, hentry, hheads, rfl⟩

/-! ## Suggestions -/

theorem Fault.code_eq_unknown_iff {fault : Fault} :
    fault.code = Bytes.ascii "E2020" ↔ ∃ name similar, fault = .unknownType name similar := by
  constructor
  · intro h
    cases fault with
    | unknownType name similar => exact ⟨name, similar, rfl⟩
    | _ => exact absurd h (by simp only [code]; decide)
  · rintro ⟨name, similar, rfl⟩
    rfl

theorem Environment.suggests_eq_true {env : Environment}
    (h : ∀ rest, env.get? "PYEMIT_SUGGEST" ≠ some (Bytes.byte '0' :: rest)) : env.suggests = true := by
  unfold suggests startsWith
  cases hvalue : env.get? "PYEMIT_SUGGEST" with
  | none => rfl
  | some value =>
    cases value with
    | nil => rfl
    | cons b rest =>
      have hb : b ≠ Bytes.byte '0' := fun heq => h rest (heq ▸ hvalue)
      simp [hb]

theorem mem_primitiveNames_iff {name : Bytes} : name ∈ primitiveNames ↔ Primitive.ofName? name ≠ none := by
  constructor
  · intro h
    obtain ⟨p, -, rfl⟩ := List.mem_map.mp h
    cases p <;> decide
  · intro h
    obtain ⟨p, hp⟩ := Option.ne_none_iff_exists'.mp h
    have hname : p.name = name := by simpa using List.find?_some hp
    rw [← hname]
    cases p <;> decide

theorem pairwise_primitiveNames : primitiveNames.Pairwise (· < ·) := by decide

theorem similarNames_eq (names : List Bytes) (name : Bytes) :
    similarNames names name = ((names ++ primitiveNames).filter fun known => WithinEdits 2 name known).take 5 := by
  unfold similarNames
  congr 1
  exact List.filter_congr fun known _ => decide_eq_decide.mpr editDistance_le_iff

theorem notes_unknownType (name : Bytes) (similar : List Bytes) (pos : Position) :
    (Fault.unknownType name similar).notes pos =
      if similar = [] then [] else [⟨Bytes.ascii "did you mean " ++ Fault.enumerate similar, pos⟩] := by
  cases similar <;> rfl

namespace Sections

variable {s : Sections} {f : Form} {graph : Graph} {suggests : Bool} {pos : Position}

/-- An error that tells an unknown name is the one that the scope gives. -/
theorem exists_unknown_of_error (hs : s.Whole) (hentry : Entry (Bytes.ascii "graph") f s) (hgraph : graph.WellFormed)
    {e : Diagnostic} (he : e ∈ (Reader.new.readSections suggests graph pos s).1.report.errors)
    (hcode : e.code = Bytes.ascii "E2020") : 
    ∃ name, UnknownIn f name ∧ e = ((s.scope suggests graph).unknownType e.pos name).diagnostic := by
  obtain ⟨p, hp, rfl⟩ := ReadResult.mem_errors_iff.mp he
  obtain ⟨name, similar, hfault⟩ := Fault.code_eq_unknown_iff.mp hcode
  obtain ⟨-, hunknown, heq⟩ := (answers_withTops hs hentry hgraph).1.told p hp name similar hfault
  exact ⟨name, hunknown, congrArg Problem.diagnostic heq⟩

theorem exists_error_of_unknown (hs : s.Whole) (hentry : Entry (Bytes.ascii "graph") f s) (hgraph : graph.WellFormed)
    {name : Bytes} (h : UnknownIn f name) :
    ∃ e ∈ (Reader.new.readSections suggests graph pos s).1.report.errors, e.code = Bytes.ascii "E2020" ∧
      e.message = Bytes.ascii "unknown type " ++ Bytes.named name := by
  obtain ⟨⟨type, htype, hname⟩, hprimitive, hnew⟩ := h
  have hunknown : (s.scope suggests graph).Unknown name := by
    refine ⟨hprimitive, fun hmem => ?_⟩
    obtain ⟨d, hd, heq⟩ := (mem_names_scope hs hentry).mp hmem
    exact hnew d hd heq
  obtain ⟨q, htold⟩ := (answers_withTops hs hentry hgraph).2 type htype name
    ((TypeForm.cites_ofForm_iff type).mpr hname) hunknown
  have hcode : ((s.scope suggests graph).unknownType q name).fault.code = Bytes.ascii "E2020" :=
    Fault.code_eq_unknown_iff.mpr ⟨name, _, rfl⟩
  exact ⟨_, ReadResult.mem_errors_iff.mpr ⟨_, htold, rfl⟩, hcode, rfl⟩

end Sections

theorem not_unknownIn {f : Form} (h : ¬ ∃ s, Entry (Bytes.ascii "graph") f s) (name : Bytes) : ¬ UnknownIn f name := by
  rintro ⟨⟨type, htype, -⟩, -⟩
  cases htype with
  | member hd =>
    obtain ⟨s, _, _, hentry, -⟩ := hd
    exact h ⟨s, hentry⟩
  | property hd =>
    obtain ⟨s, _, _, hentry, -⟩ := hd
    exact h ⟨s, hentry⟩
  | top hentry => exact h ⟨_, hentry⟩

/-- **Unknown names are answered with the nearest ones.** The distance of two texts is the least number of bytes to be
inserted, deleted or replaced, and two rows of 32-bit integers suffice for it. Reading a parsed form tells of just the
unknown names. Unless it is switched off, a remark to each of them lists the first five names at most two edits away, of
the declared ones in their order and then of those of the primitive types in the order of their bytes; it is left out if
there are none. -/
theorem readForm_suggests_nearest_names {source : Bytes} {f : Form} (h : Edn.parse source = .ok f) {graph : Graph}
    (hgraph : graph.WellFormed) {env : Environment}
    (henv : ∀ rest, env.get? "PYEMIT_SUGGEST" ≠ some (Bytes.byte '0' :: rest)) :
    (∀ a b : Bytes, IsLeast {n | Edits n a b} (editDistance a b) ∧
      (a.length < 2 ^ 30 → b.length < 2 ^ 30 → ∀ stale : Array Int32, stale.size = b.length + 1 →
        (inPlaceDistance a b stale).toInt = editDistance a b)) ∧
    (primitiveNames.Pairwise (· < ·) ∧ ∀ name, name ∈ primitiveNames ↔ Primitive.ofName? name ≠ none) ∧
    (∀ name, UnknownIn f name ↔ ∃ e ∈ (readForm env.suggests graph f).report.errors, e.code = Bytes.ascii "E2020" ∧
      e.message = Bytes.ascii "unknown type " ++ Bytes.named name) ∧
    ∀ e ∈ (readForm env.suggests graph f).report.errors, e.code = Bytes.ascii "E2020" → ∃ names name near,
      NamesIn f names ∧ UnknownIn f name ∧ e.message = Bytes.ascii "unknown type " ++ Bytes.named name ∧
      near = ((names ++ primitiveNames).filter fun known => WithinEdits 2 name known).take 5 ∧
      e.notes = if near = [] then [] else [⟨Bytes.ascii "did you mean " ++ Fault.enumerate near, e.pos⟩] := by
  refine ⟨fun a b => ⟨isLeast_editDistance a b, fun ha hb stale => toInt_inPlaceDistance ha hb⟩,
    ⟨pairwise_primitiveNames, fun name => mem_primitiveNames_iff⟩, ?_⟩
  rw [Environment.suggests_eq_true henv]
  by_cases hform : ∃ s, Entry (Bytes.ascii "graph") f s
  · obtain ⟨s, hentry⟩ := hform
    have hs := hentry.whole (Edn.whole_of_parse h)
    rw [readForm_of_entry hentry]
    refine ⟨fun name => ⟨Sections.exists_error_of_unknown hs hentry hgraph, ?_⟩, fun e he hcode => ?_⟩
    · rintro ⟨e, he, hcode, hmessage⟩
      obtain ⟨other, hunknown, heq⟩ := Sections.exists_unknown_of_error hs hentry hgraph he hcode
      rw [heq] at hmessage
      exact Bytes.named_inj.mp (List.append_cancel_left hmessage) ▸ hunknown
    · obtain ⟨names, hnames⟩ := exists_namesIn hentry
      obtain ⟨name, hunknown, heq⟩ := Sections.exists_unknown_of_error hs hentry hgraph he hcode
      have hscope : (s.scope true graph).names = names := Sections.names_scope_eq hs hentry hnames
      refine ⟨names, name, similarNames names name, hnames, hunknown, by rw [heq]; rfl, similarNames_eq names name, ?_⟩
      rw [heq, ← hscope]
      exact notes_unknownType _ _ _
  · have herrors : ∀ e ∈ (readForm true graph f).report.errors, e.code ≠ Bytes.ascii "E2020" := by
      intro e he hcode
      obtain ⟨p, hp, rfl⟩ := ReadResult.mem_errors_iff.mp he
      obtain ⟨name, similar, hfault⟩ := Fault.code_eq_unknown_iff.mp hcode
      exact (formal_of_not_entry hform true graph p hp).ne_unknownType name similar hfault
    refine ⟨fun name => iff_of_false (not_unknownIn hform name) ?_, fun e he hcode => absurd hcode (herrors e he)⟩
    rintro ⟨e, he, hcode, -⟩
    exact herrors e he hcode

/-! ### A misspelt name -/

/-- An enum, and a top-level whose type is neither its name nor that of a primitive type. -/
def misspeltSource : Bytes := Bytes.ascii "(graph :types [(enum :name dat)] :top-levels [(top :name t :type tat)])"

def misspeltEnum : Form := .seq ⟨1, 16⟩ .round [symbolAt 17 "enum", keywordAt 22 "name", symbolAt 28 "dat"]

def misspeltTop : Form := .seq ⟨1, 47⟩ .round
  [symbolAt 48 "top", keywordAt 52 "name", symbolAt 58 "t", keywordAt 60 "type", symbolAt 66 "tat"]

def misspeltForm : Form := .seq ⟨1, 1⟩ .round [symbolAt 2 "graph",
  keywordAt 8 "types", .seq ⟨1, 15⟩ .square [misspeltEnum], keywordAt 34 "top-levels", .seq ⟨1, 46⟩ .square [misspeltTop]]

set_option maxRecDepth 4000 in
theorem parse_misspeltSource : Edn.parse misspeltSource = .ok misspeltForm := by
  with_unfolding_all rfl

def misspeltSections : Sections :=
  [(Bytes.ascii "types", .seq ⟨1, 15⟩ .square [misspeltEnum]),
    (Bytes.ascii "top-levels", .seq ⟨1, 46⟩ .square [misspeltTop])]

theorem entry_misspeltForm : Entry (Bytes.ascii "graph") misspeltForm misspeltSections :=
  ⟨_, ⟨_, _, rfl⟩, .cons (.cons .nil)⟩

theorem whole_misspeltSections : misspeltSections.Whole :=
  entry_misspeltForm.whole (Edn.whole_of_parse parse_misspeltSource)

theorem names_misspeltSections : (misspeltSections.scope true Graph.empty).names = [Bytes.ascii "dat"] := by
  with_unfolding_all rfl

theorem unknownIn_misspeltForm : UnknownIn misspeltForm (Bytes.ascii "tat") := by
  refine ⟨⟨symbolAt 66 "tat", .top entry_misspeltForm rfl rfl List.mem_cons_self ?_, .name rfl⟩, by decide, ?_⟩
  · exact ⟨_, Bytes.ascii "t", ⟨_, ⟨_, _, rfl⟩, .cons (.cons .nil)⟩, ⟨_, rfl, rfl⟩, rfl⟩
  · intro d hd heq
    have hmem : Bytes.ascii "tat" ∈ (misspeltSections.scope true Graph.empty).names :=
      (Sections.mem_names_scope whole_misspeltSections entry_misspeltForm).mpr ⟨d, hd, heq⟩
    rw [names_misspeltSections] at hmem
    exact absurd hmem (by decide)

/-- The declared name comes first, then the primitive type. -/
theorem misspelt_name_is_answered :
    Edn.parse misspeltSource = .ok misspeltForm ∧ Graph.empty.WellFormed ∧
      (∀ rest, Environment.get? [] "PYEMIT_SUGGEST" ≠ some (Bytes.byte '0' :: rest)) ∧
      ∃ e ∈ (readForm (Environment.suggests []) Graph.empty misspeltForm).report.errors, e.code = Bytes.ascii "E2020" ∧
        e.notes = [⟨Bytes.ascii "did you mean dat or date", e.pos⟩] := by
  have henv : ∀ rest, Environment.get? [] "PYEMIT_SUGGEST" ≠ some (Bytes.byte '0' :: rest) := by
    rintro rest ⟨⟩
  obtain ⟨-, -, htold, hanswer⟩ := readForm_suggests_nearest_names parse_misspeltSource Graph.wellFormed_empty henv
  obtain ⟨e, he, hcode, hmessage⟩ := (htold (Bytes.ascii "tat")).mp unknownIn_misspeltForm
  obtain ⟨names, name, near, hnames, -, hmessage', hnear, hnotes⟩ := hanswer e he hcode
  obtain rfl : name = Bytes.ascii "tat" := Bytes.named_inj.mp (List.append_cancel_left (hmessage'.symm.trans hmessage))
  obtain rfl : names = [Bytes.ascii "dat"] :=
    (Sections.names_scope_eq whole_misspeltSections entry_misspeltForm hnames).symm.trans names_misspeltSections
  obtain rfl : near = [Bytes.ascii "dat", Bytes.ascii "date"] := hnear.trans (by decide)
  exact ⟨parse_misspeltSource, Graph.wellFormed_empty, henv, e, he, hcode, hnotes⟩

end Typewright
