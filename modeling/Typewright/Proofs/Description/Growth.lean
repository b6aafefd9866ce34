import Typewright.Description.Reader
import Typewright.Proofs.Description.Members

/-!
# Readings grow

* `ResolveRules` : what holds of all ways in which a written type can be resolved holds of `resolve`;
* `Reading.Known`, `Reading.Grows` : resolving refers to known types only, so the graph grows by calls that succeed,
  and keeps what is there already;
* `growsTo_readForm` : so does reading a description, whether it succeeds or not;
* `declaredType?` : the type that a declared name gets.
-/

namespace Typewright

/-! ## Ways to resolve a type -/

/-- The constructors of one type from another, and what they do to a graph. -/
inductive Wraps : (TypeForm → TypeForm) → (Graph → TypeId → TypeId × Graph) → Prop where
  | array : Wraps .array fun g id => g.intern (.array id)
  | map : Wraps .map fun g id => g.intern (.map id)
  | nullable : Wraps .nullable Graph.internNullable

/-- Properties of resolving, from the scope, the open unions, the reading before and the written type to the outcome,
that hold in every way it can go. -/
structure ResolveRules (s : UnionScope) (P : List Bytes → Reading → TypeForm → Option TypeId × Reading → Prop)
    (Q : List Bytes → Reading → List TypeForm → List (Option TypeId) × Reading → Prop) : Prop where
  absent : ∀ opened r, P opened r .absent (none, r)
  invalid : ∀ opened r p, P opened r (.invalid p) (none, r.report p)
  primitive : ∀ opened r pos name p, Primitive.ofName? name = some p → P opened r (.named pos name) (some p.id, r)
  built : ∀ opened r pos name id, Primitive.ofName? name = none → r.built.lookup name = some id →
    P opened r (.named pos name) (id, r)
  unknown : ∀ opened r pos name, Primitive.ofName? name = none → r.built.lookup name = none →
    s.unions.lookup name = none → P opened r (.named pos name) (none, r.report (s.unknownType pos name))
  recursive : ∀ opened r pos name u, Primitive.ofName? name = none → r.built.lookup name = none →
    s.unions.lookup name = some u → name ∈ opened →
    P opened r (.named pos name) (none, r.report ⟨.recursiveUnion name, pos⟩)
  missing : ∀ opened r pos name u, Primitive.ofName? name = none → r.built.lookup name = none →
    s.unions.lookup name = some u → name ∉ opened → u.members = none →
    P opened r (.named pos name) (none, (r.report ⟨.membersMissing name, u.pos⟩).define name none)
  declared : ∀ opened r pos name u ts ids r₁ id r₂, Primitive.ofName? name = none → r.built.lookup name = none →
    s.unions.lookup name = some u → name ∉ opened → u.members = some ts →
    resolveAll s (name :: opened) r ts = (ids, r₁) → Q (name :: opened) r ts (ids, r₁) →
    r₁.makeUnion u.pos name ids = (id, r₂) → P opened r (.named pos name) (id, r₂.define name id)
  wrap_none : ∀ opened r t r₁ wrap make, Wraps wrap make → P opened r t (none, r₁) → P opened r (wrap t) (none, r₁)
  wrap : ∀ opened r t id r₁ wrap make, Wraps wrap make → resolve s opened r t = (some id, r₁) →
    P opened r t (some id, r₁) →
    P opened r (wrap t) (some (make r₁.graph id).1, { r₁ with graph := (make r₁.graph id).2 })
  union : ∀ opened r pos ts ids r₁, resolveAll s opened r ts = (ids, r₁) → Q opened r ts (ids, r₁) →
    P opened r (.union pos ts) (r₁.makeUnion pos [] ids)
  nil : ∀ opened r, Q opened r [] ([], r)
  cons : ∀ opened r t ts id r₁ ids r₂, resolve s opened r t = (id, r₁) → resolveAll s opened r₁ ts = (ids, r₂) →
    P opened r t (id, r₁) → Q opened r₁ ts (ids, r₂) → Q opened r (t :: ts) (id :: ids, r₂)

namespace ResolveRules

variable {s : UnionScope} {P : List Bytes → Reading → TypeForm → Option TypeId × Reading → Prop}
  {Q : List Bytes → Reading → List TypeForm → List (Option TypeId) × Reading → Prop}

theorem holds_both (h : ResolveRules s P Q) :
    (∀ opened r t, P opened r t (resolve s opened r t)) ∧ ∀ opened r ts, Q opened r ts (resolveAll s opened r ts) := by
  refine resolve.mutual_induct s _ _ ?absent ?invalid ?primitive ?built ?unknown ?recursive ?missing ?declared ?arrayNone
    ?array ?mapNone ?map ?nullableNone ?nullable ?union ?nil ?cons
  case absent =>
    intro opened r
    rw [resolve]
    exact h.absent opened r
  case invalid =>
    intro opened r p
    rw [resolve]
    exact h.invalid opened r p
  case primitive =>
    intro opened r pos name p hp
    simp only [resolve, hp]
    exact h.primitive opened r pos name p hp
  case built =>
    intro opened r pos name hp id hid
    simp only [resolve, hp, hid]
    exact h.built opened r pos name id hp hid
  case unknown =>
    intro opened r pos name hp hid hu
    simp only [resolve, hp, hid]
    split
    · exact h.unknown opened r pos name hp hid hu
    · simp_all
  case recursive =>
    intro opened r pos name hp hid u hu hopen
    simp only [resolve, hp, hid]
    split
    · simp_all
    · rw [dif_pos hopen]
      exact h.recursive opened r pos name u hp hid hu hopen
  case missing =>
    intro opened r pos name hp hid u hu hopen hm
    simp only [resolve, hp, hid]
    split
    · simp_all
    · rename_i u' hu'
      obtain rfl := Option.some.inj (hu.symm.trans hu')
      rw [dif_neg hopen, hm]
      exact h.missing opened r pos name u hp hid hu hopen hm
  case declared =>
    intro opened r pos name hp hid u hu hopen ts hm _ ids r₁ hall id r₂ hmake ih
    simp only [resolve, hp, hid]
    split
    · simp_all
    · rename_i u' hu'
      obtain rfl := Option.some.inj (hu.symm.trans hu')
      rw [dif_neg hopen, hm]
      rw [hall] at ih
      simp only [hall, hmake]
      exact h.declared opened r pos name u ts ids r₁ id r₂ hp hid hu hopen hm hall ih hmake
  case arrayNone =>
    intro opened r t r₁ ht ih
    rw [ht] at ih
    simp only [resolve, ht]
    exact h.wrap_none opened r t r₁ _ _ .array ih
  case array =>
    intro opened r t id r₁ ht id' graph hmake ih
    rw [ht] at ih
    simp only [resolve, ht]
    exact h.wrap opened r t id r₁ _ _ .array ht ih
  case mapNone =>
    intro opened r t r₁ ht ih
    rw [ht] at ih
    simp only [resolve, ht]
    exact h.wrap_none opened r t r₁ _ _ .map ih
  case map =>
    intro opened r t id r₁ ht id' graph hmake ih
    rw [ht] at ih
    simp only [resolve, ht]
    exact h.wrap opened r t id r₁ _ _ .map ht ih
  case nullableNone =>
    intro opened r t r₁ ht ih
    rw [ht] at ih
    simp only [resolve, ht]
    exact h.wrap_none opened r t r₁ _ _ .nullable ih
  case nullable =>
    intro opened r t id r₁ ht id' graph hmake ih
    rw [ht] at ih
    simp only [resolve, ht]
    exact h.wrap opened r t id r₁ _ _ .nullable ht ih
  case union =>
    intro opened r pos ts ids r₁ hall ih
    rw [hall] at ih
    simp only [resolve, hall]
    exact h.union opened r pos ts ids r₁ hall ih
  case nil =>
    intro opened r
    rw [resolveAll]
    exact h.nil opened r
  case cons =>
    intro opened r t ts id r₁ ht ids r₂ hall ih ihs
    rw [ht] at ih
    rw [hall] at ihs
    simp only [resolveAll, ht, hall]
    exact h.cons opened r t ts id r₁ ids r₂ ht hall ih ihs

theorem holds (h : ResolveRules s P Q) (opened : List Bytes) (r : Reading) (t : TypeForm) :
    P opened r t (resolve s opened r t) :=
  h.holds_both.1 opened r t

theorem holds_all (h : ResolveRules s P Q) (opened : List Bytes) (r : Reading) (ts : List TypeForm) :
    Q opened r ts (resolveAll s opened r ts) :=
  h.holds_both.2 opened r ts

end ResolveRules

theorem Wraps.extends {wrap : TypeForm → TypeForm} {make : Graph → TypeId → TypeId × Graph} (h : Wraps wrap make)
    {g : Graph} {id : TypeId} (hid : id < g.size) :
    g.Extends (make g id).2 ∧ (make g id).1 < (make g id).2.size := by
  have hpush : ∀ n, g.GrowsTo (g.push n).2 → g.Extends (g.push n).2 ∧ (g.push n).1 < (g.push n).2.size :=
    fun n hn => ⟨Graph.extends_push hn, by rw [Graph.size_push]; exact Nat.lt_succ_self _⟩
  cases h with
  | array =>
    have hgrow := Graph.growsTo_array hid
    rcases g.intern_cases (.array id) with ⟨id', hid', h⟩ | ⟨_, h⟩ <;> simp only [h] at hgrow ⊢
    · exact ⟨.refl g, Graph.lt_size_of_node? hid'⟩
    · exact hpush _ hgrow
  | map =>
    have hgrow := Graph.growsTo_map hid
    rcases g.intern_cases (.map id) with ⟨id', hid', h⟩ | ⟨_, h⟩ <;> simp only [h] at hgrow ⊢
    · exact ⟨.refl g, Graph.lt_size_of_node? hid'⟩
    · exact hpush _ hgrow
  | nullable =>
    have hgrow := Graph.growsTo_nullable hid
    rcases g.internNullable_cases id with ⟨_, h⟩ | ⟨_, h⟩ <;> rw [h] at hgrow ⊢
    · exact ⟨.refl g, hid⟩
    · exact hpush _ hgrow

/-! ## Resolving grows a reading -/

namespace Reading

/-- What a reading refers to is in its graph. -/
structure Known (r : Reading) : Prop where
  wellFormed : r.graph.WellFormed
  built : ∀ name id, r.built.lookup name = some (some id) → id < r.graph.size

/-- The flag is set just if no problems were met. -/
def Flagged (r : Reading) : Prop := r.success = true ↔ r.problems = []

/-- A reading goes on and keeps what it has. -/
structure Grows (r r' : Reading) : Prop where
  graph : r.graph.Extends r'.graph
  built : ∀ name id, r.built.lookup name = some id → r'.built.lookup name = some id
  problems : r.problems <+: r'.problems
  flagged : r.Flagged → r'.Flagged

variable {r r' r'' : Reading}

theorem flagged_report (r : Reading) (p : Problem) : (r.report p).Flagged := by
  simp [Flagged, report]

theorem Grows.refl (r : Reading) : r.Grows r := ⟨.refl _, fun _ _ h => h, List.prefix_refl _, id⟩

theorem Grows.trans (h : r.Grows r') (h' : r'.Grows r'') : r.Grows r'' :=
  ⟨h.graph.trans h'.graph, fun name id hid => h'.built name id (h.built name id hid), h.problems.trans h'.problems,
    h'.flagged ∘ h.flagged⟩

theorem grows_report (r : Reading) (p : Problem) : r.Grows (r.report p) :=
  ⟨.refl _, fun _ _ h => h, List.prefix_append _ _, fun _ => flagged_report r p⟩

theorem grows_reportAll (r : Reading) (ps : List Problem) : r.Grows (r.reportAll ps) :=
  List.foldlRecOn ps report (.refl r) fun r' h p _ => h.trans (grows_report r' p)

theorem grows_graph {g : Graph} (h : r.graph.Extends g) : r.Grows { r with graph := g } :=
  ⟨h, fun _ _ h => h, List.prefix_refl _, id⟩

theorem lookup_define (r : Reading) (name : Bytes) (id : Option TypeId) (other : Bytes) :
    (r.define name id).built.lookup other = if other = name then some id else r.built.lookup other := by
  rw [define, List.lookup_cons]
  by_cases h : other = name
  · simp [h]
  · rw [beq_eq_false_iff_ne.mpr h, if_neg h]

@[simp]
theorem graph_reportAll (r : Reading) (ps : List Problem) : (r.reportAll ps).graph = r.graph := by
  induction ps generalizing r with
  | nil => rfl
  | cons p ps ih => exact ih (r.report p)

@[simp]
theorem built_reportAll (r : Reading) (ps : List Problem) : (r.reportAll ps).built = r.built := by
  induction ps generalizing r with
  | nil => rfl
  | cons p ps ih => exact ih (r.report p)

@[simp]
theorem problems_reportAll (r : Reading) (ps : List Problem) : (r.reportAll ps).problems = r.problems ++ ps := by
  induction ps generalizing r with
  | nil => exact (List.append_nil _).symm
  | cons p ps ih => exact (ih (r.report p)).trans (List.append_assoc _ [p] ps)

theorem reportAll_define (r : Reading) (name : Bytes) (id : Option TypeId) (ps : List Problem) :
    (r.define name id).reportAll ps = (r.reportAll ps).define name id := by
  induction ps generalizing r with
  | nil => rfl
  | cons p ps ih => exact ih (r.report p)

theorem Grows.define (h : r.Grows r') {name : Bytes} (hname : r.built.lookup name = none) (id : Option TypeId) :
    r.Grows (r'.define name id) := by
  refine ⟨h.graph, fun other i hi => ?_, h.problems, h.flagged⟩
  rw [lookup_define, if_neg, h.built other i hi]
  rintro rfl
  simp [hname] at hi

theorem Known.report (h : r.Known) (p : Problem) : (r.report p).Known := ⟨h.wellFormed, h.built⟩

theorem Known.graph (h : r.Known) {g : Graph} (hg : r.graph.Extends g) : { r with graph := g }.Known :=
  ⟨hg.growsTo.wellFormed h.wellFormed, fun name id hid => hg.lt_size (h.built name id hid)⟩

theorem Known.define (h : r.Known) (name : Bytes) {id : Option TypeId} (hid : ∀ i, id = some i → i < r.graph.size) :
    (r.define name id).Known := by
  refine ⟨h.wellFormed, fun other i hi => ?_⟩
  rw [lookup_define] at hi
  split at hi
  · exact hid i (Option.some.inj hi)
  · exact h.built other i hi

/-- What resolving does to a reading. -/
structure Resolves (r r' : Reading) (ids : List (Option TypeId)) : Prop where
  grows : r.Grows r'
  known : r'.Known
  lt_size : ∀ id, some id ∈ ids → id < r'.graph.size

theorem makeUnion_cases (r : Reading) (pos : Position) (hint : Bytes) (members : List (Option TypeId)) :
    none ∈ members ∧ r.makeUnion pos hint members = (none, r) ∨
      ∃ ids : List TypeId, members = ids.map some ∧
        ((distinct ids).length < 2 ∧ r.makeUnion pos hint members = (none, r.report ⟨.tooFewMembers, pos⟩) ∨
          ¬ (distinct ids).length < 2 ∧ r.makeUnion pos hint members = (some r.graph.size,
            { r with graph := (r.graph.push (.union (r.graph.unionHint hint (distinct ids)) (distinct ids))).2 })) := by
  by_cases h : none ∈ members
  · refine .inl ⟨h, ?_⟩
    rw [makeUnion, if_pos (List.any_eq_true.mpr ⟨none, h, rfl⟩)]
  · have hids : members = (members.filterMap id).map some := by
      clear pos hint
      induction members with
      | nil => rfl
      | cons a l ih =>
        simp only [List.mem_cons, not_or] at h
        obtain ⟨i, rfl⟩ := Option.ne_none_iff_exists'.mp (Ne.symm h.1)
        simpa using ih h.2
    refine .inr ⟨members.filterMap id, hids, ?_⟩
    have hany : ¬ members.any Option.isNone = true := by simpa using h
    rw [makeUnion, if_neg hany]
    by_cases h₂ : (distinct (members.filterMap id)).length < 2
    · exact .inl ⟨h₂, if_pos h₂⟩
    · refine .inr ⟨h₂, ?_⟩
      dsimp only
      rw [if_neg h₂]
      rfl

theorem Known.makeUnion (h : r.Known) (pos : Position) (hint : Bytes) {members : List (Option TypeId)}
    (hids : ∀ id, some id ∈ members → id < r.graph.size) :
    r.Resolves (r.makeUnion pos hint members).2 [(r.makeUnion pos hint members).1] := by
  rcases r.makeUnion_cases pos hint members with ⟨-, heq⟩ | ⟨ids, rfl, ⟨-, heq⟩ | ⟨h₂, heq⟩⟩ <;> rw [heq]
  · exact ⟨.refl r, h, by simp⟩
  · exact ⟨grows_report r _, h.report _, by simp⟩
  · have hg := Graph.extends_push
      (Graph.growsTo_union (r.graph.unionHint hint (distinct ids)) (fun id hid => hids id (by simp [hid])) h₂)
    refine ⟨grows_graph hg, h.graph hg, fun id hid => ?_⟩
    obtain rfl : id = r.graph.size := by simpa using hid
    rw [Graph.size_push]
    exact Nat.lt_succ_self _

/-- Resolving keeps what there is, whether it succeeds or not. -/
theorem resolveRules_known (s : UnionScope) :
    ResolveRules s (fun _ r _ x => r.Known → r.Resolves x.2 [x.1]) fun _ r _ x => r.Known → r.Resolves x.2 x.1 where
  absent opened r h := ⟨.refl r, h, by simp⟩
  invalid opened r p h := ⟨grows_report r p, h.report p, by simp⟩
  primitive opened r pos name p _ h := by
    refine ⟨.refl r, h, fun id hid => ?_⟩
    obtain rfl : id = p.id := by simpa using hid
    exact Graph.lt_size_of_node? (h.wellFormed.primitives p)
  built opened r pos name id _ hid h := by
    refine ⟨.refl r, h, fun i hi => ?_⟩
    obtain rfl : some i = id := by simpa using hi
    exact h.built name i hid
  unknown opened r pos name _ _ _ h := ⟨grows_report r _, h.report _, by simp⟩
  recursive opened r pos name u _ _ _ _ h := ⟨grows_report r _, h.report _, by simp⟩
  missing opened r pos name u _ hid _ _ _ h :=
    ⟨(grows_report r _).define hid none, (h.report _).define name (by simp), by simp⟩
  declared opened r pos name u ts ids r₁ id r₂ _ hid _ _ _ _ ih hmake h := by
    obtain ⟨hgrows, hknown, hlt⟩ := ih h
    obtain ⟨hgrows', hknown', hlt'⟩ := hknown.makeUnion u.pos name hlt
    rw [hmake] at hgrows' hknown' hlt'
    exact ⟨(hgrows.trans hgrows').define hid id, hknown'.define name fun i hi => hlt' i (by simp [hi]), hlt'⟩
  wrap_none opened r t r₁ wrap make _ ih h := ih h
  wrap opened r t id r₁ wrap make hwrap _ ih h := by
    obtain ⟨hgrows, hknown, hlt⟩ := ih h
    obtain ⟨hext, hnew⟩ := hwrap.extends (hlt id (by simp))
    exact ⟨hgrows.trans (grows_graph hext), hknown.graph hext, by simpa using hnew⟩
  union opened r pos ts ids r₁ _ ih h := by
    obtain ⟨hgrows, hknown, hlt⟩ := ih h
    obtain ⟨hgrows', hknown', hlt'⟩ := hknown.makeUnion pos [] hlt
    exact ⟨hgrows.trans hgrows', hknown', hlt'⟩
  nil opened r h := ⟨.refl r, h, by simp⟩
  cons opened r t ts id r₁ ids r₂ _ _ ih ihs h := by
    obtain ⟨hgrows, hknown, hlt⟩ := ih h
    obtain ⟨hgrows', hknown', hlt'⟩ := ihs hknown
    refine ⟨hgrows.trans hgrows', hknown', fun i hi => ?_⟩
    rcases List.mem_cons.mp hi with rfl | hi
    · exact hgrows'.graph.lt_size (hlt i (by simp))
    · exact hlt' i hi

theorem Known.resolves (h : r.Known) (s : UnionScope) (opened : List Bytes) (t : TypeForm) :
    r.Resolves (resolve s opened r t).2 [(resolve s opened r t).1] :=
  (resolveRules_known s).holds opened r t h

/-! ## Reading a description -/

/-- A reading goes on. Other than while resolving, classes may get properties, and top-levels may be added. -/
structure Proceeds (r r' : Reading) : Prop where
  graph : r.graph.GrowsTo r'.graph
  known : r'.Known
  problems : r.problems <+: r'.problems
  flagged : r.Flagged → r'.Flagged

theorem Known.proceeds (h : r.Known) : r.Proceeds r := ⟨.refl _, h, List.prefix_refl _, id⟩

theorem Proceeds.trans (h : r.Proceeds r') (h' : r'.Proceeds r'') : r.Proceeds r'' :=
  ⟨h.graph.trans h'.graph, h'.known, h.problems.trans h'.problems, h'.flagged ∘ h.flagged⟩

theorem Grows.proceeds (h : r.Grows r') (hknown : r'.Known) : r.Proceeds r' :=
  ⟨h.graph.growsTo, hknown, h.problems, h.flagged⟩

theorem Known.proceeds_report (h : r.Known) (p : Problem) : r.Proceeds (r.report p) :=
  (grows_report r p).proceeds (h.report p)

/-- A new type gets a name. -/
theorem Known.proceeds_push (h : r.Known) {n : Node} (hn : r.graph.GrowsTo (r.graph.push n).2) (name : Bytes) :
    r.Proceeds ((r.push n).2.define name (some (r.push n).1)) := by
  refine ⟨hn, (h.graph (Graph.extends_push hn)).define name fun i hi => ?_, List.prefix_refl _, id⟩
  obtain rfl : r.graph.size = i := Option.some.inj hi
  rw [Graph.size_push]
  exact Nat.lt_succ_self _

theorem Known.proceeds_foldl (h : r.Known) {f : Reading → β → Reading}
    (hf : ∀ (r : Reading) (b : β), r.Known → r.Proceeds (f r b)) (l : List β) : r.Proceeds (l.foldl f r) :=
  List.foldlRecOn l f h.proceeds fun r' hr' b _ => hr'.trans (hf r' b hr'.known)

theorem Known.proceeds_reportAll (h : r.Known) (ps : List Problem) : r.Proceeds (r.reportAll ps) :=
  (grows_reportAll r ps).proceeds ⟨by rw [graph_reportAll]; exact h.wellFormed, by simpa using h.built⟩

theorem Known.proceeds_declare (h : r.Known) (ds : List Declaration) (f : Edn.Form) :
    r.Proceeds (declare (ds, r) f).2 := by
  unfold declare
  dsimp only
  split
  · split
    · exact h.proceeds_report _
    · split
      · exact h.proceeds_push (Graph.growsTo_record _) _
      · exact h.proceeds
  · exact h.proceeds

theorem Known.proceeds_foldl_declare (h : r.Known) (ds : List Declaration) (items : List Edn.Form) :
    r.Proceeds (items.foldl declare (ds, r)).2 :=
  List.foldlRecOn (motive := fun x => r.Proceeds x.2) items declare h.proceeds
    fun x hx f _ => hx.trans (hx.known.proceeds_declare x.1 f)

theorem Known.proceeds_readDeclarations (h : r.Known) (f : Edn.Form) : r.Proceeds (readDeclarations [] r f).2 := by
  unfold readDeclarations
  split
  · exact h.proceeds_report _
  · exact h.proceeds_foldl_declare [] _

theorem Known.proceeds_buildEnum (h : r.Known) (d : Declaration) : r.Proceeds (buildEnum r d) := by
  unfold buildEnum
  split
  · exact h.proceeds_push (Graph.growsTo_enum _ _) _
  · split
    · exact ⟨.refl _, (h.report _).define _ (by simp), List.prefix_append _ _, fun _ => flagged_report r _⟩
    · rename_i f _ _ items _
      have hpush := h.proceeds_push (Graph.growsTo_enum d.name (readCases f items).1) d.name
      dsimp only
      rw [← reportAll_define]
      exact hpush.trans (hpush.known.proceeds_reportAll _)

theorem Known.proceeds_buildUnion (h : r.Known) (s : UnionScope) (d : Declaration) : r.Proceeds (buildUnion s r d) :=
  let hr := h.resolves s [] (.named d.pos d.name)
  hr.grows.proceeds hr.known

theorem addProperty_cases (s : UnionScope) (pos : Position) (body : ClassBody) (r : Reading) (f : Edn.Form) :
    (∃ p body', body'.properties = body.properties ∧ addProperty s pos (body, r) f = (body', r.report p)) ∨
      ∃ p b, readProperty pos f = .ok p ∧ p.name ∉ body.seen ∧ p.optional = .ok b ∧
        ((∃ r', resolve s [] r p.type = (none, r') ∧
            addProperty s pos (body, r) f = (⟨body.properties, p.name :: body.seen⟩, r')) ∨
          ∃ id r', resolve s [] r p.type = (some id, r') ∧
            addProperty s pos (body, r) f = (⟨body.properties ++ [⟨p.name, id, b⟩], p.name :: body.seen⟩, r')) := by
  unfold addProperty
  dsimp only
  split
  · exact .inl ⟨_, body, rfl, rfl⟩
  · rename_i p hp
    split
    · exact .inl ⟨_, body, rfl, rfl⟩
    · rename_i hseen
      split
      · exact .inl ⟨_, ⟨body.properties, p.name :: body.seen⟩, rfl, rfl⟩
      · rename_i b hb
        refine .inr ⟨p, b, hp, hseen, hb, ?_⟩
        split
        · rename_i r' hres
          exact .inl ⟨r', hres, rfl⟩
        · rename_i id r' hres
          exact .inr ⟨id, r', hres, rfl⟩

theorem Known.grows_addProperty (h : r.Known) (s : UnionScope) (pos : Position) (body : ClassBody) (f : Edn.Form) :
    r.Grows (addProperty s pos (body, r) f).2 ∧ (addProperty s pos (body, r) f).2.Known := by
  rcases addProperty_cases s pos body r f with ⟨p, body', -, heq⟩ | ⟨p, b, -, -, -, h'⟩
  · rw [heq]
    exact ⟨grows_report r _, h.report _⟩
  · obtain ⟨hgrows, hknown, -⟩ := h.resolves s [] p.type
    rcases h' with ⟨r', hres, heq⟩ | ⟨id, r', hres, heq⟩ <;> rw [hres] at hgrows hknown <;> rw [heq] <;>
      exact ⟨hgrows, hknown⟩

theorem Known.grows_addProperties (h : r.Known) (s : UnionScope) (pos : Position) (body : ClassBody)
    (items : List Edn.Form) :
    r.Grows (items.foldl (addProperty s pos) (body, r)).2 ∧ (items.foldl (addProperty s pos) (body, r)).2.Known :=
  List.foldlRecOn (motive := fun x => r.Grows x.2 ∧ x.2.Known) items (addProperty s pos) ⟨.refl r, h⟩ fun x hx f _ =>
    have hstep := hx.2.grows_addProperty s pos x.1 f
    ⟨hx.1.trans hstep.1, hstep.2⟩

/-- The properties of a class refer to known types. -/
theorem Known.addProperty_lt_size (h : r.Known) (s : UnionScope) (pos : Position) {body : ClassBody} (f : Edn.Form)
    (hbody : ∀ p ∈ body.properties, p.type < r.graph.size) :
    ∀ p ∈ (addProperty s pos (body, r) f).1.properties, p.type < (addProperty s pos (body, r) f).2.graph.size := by
  have hold : ∀ p ∈ body.properties, p.type < (addProperty s pos (body, r) f).2.graph.size :=
    fun p hp => (h.grows_addProperty s pos body f).1.graph.lt_size (hbody p hp)
  rcases addProperty_cases s pos body r f with
      ⟨p, body', hbody', heq⟩ | ⟨p, b, -, -, -, ⟨r', -, heq⟩ | ⟨id, r', hres, heq⟩⟩ <;>
    rw [heq] at hold ⊢
  · rwa [hbody']
  · exact hold
  · have hlt := (h.resolves s [] p.type).lt_size
    rw [hres] at hlt
    simp only [List.mem_append, List.mem_singleton]
    rintro q (hq | rfl)
    · exact hold q hq
    · exact hlt id (by simp)

theorem Known.addProperties_lt_size (h : r.Known) (s : UnionScope) (pos : Position) (items : List Edn.Form) :
    ∀ p ∈ (items.foldl (addProperty s pos) (⟨[], []⟩, r)).1.properties,
      p.type < (items.foldl (addProperty s pos) (⟨[], []⟩, r)).2.graph.size :=
  (List.foldlRecOn (motive := fun x => x.2.Known ∧ ∀ p ∈ x.1.properties, p.type < x.2.graph.size) items
    (addProperty s pos) ⟨h, by simp⟩ fun x hx f _ =>
      ⟨(hx.1.grows_addProperty s pos x.1 f).2, hx.1.addProperty_lt_size s pos f hx.2⟩).2

theorem Known.proceeds_buildClass (h : r.Known) (s : UnionScope) (d : Declaration) : r.Proceeds (buildClass s r d) := by
  unfold buildClass
  split
  · exact h.proceeds
  · split
    · exact h.proceeds_report _
    · rename_i f _ _ items _
      have hgrows := h.grows_addProperties s f.pos ⟨[], []⟩ items
      have hlt := h.addProperties_lt_size s f.pos items
      dsimp only
      split
      · exact ⟨hgrows.1.graph.growsTo.trans (Graph.growsTo_putProperties hlt),
          ⟨hgrows.2.wellFormed.putProperties hlt, by simpa only [Graph.size_putProperties] using hgrows.2.built⟩,
          hgrows.1.problems, hgrows.1.flagged⟩
      · exact hgrows.1.proceeds hgrows.2

theorem Known.proceeds_addTopLevel (h : r.Known) (s : UnionScope) (pos : Position) (f : Edn.Form) :
    r.Proceeds (addTopLevel s pos r f) := by
  unfold addTopLevel
  split
  · exact h.proceeds_report _
  · rename_i name t _
    obtain ⟨hgrows, hknown, hlt⟩ := h.resolves s [] t
    split
    · rename_i hres
      rw [hres] at hgrows hknown
      exact hgrows.proceeds hknown
    · rename_i id r' hres
      rw [hres] at hgrows hknown hlt
      have hid : id < r'.graph.size := hlt id (by simp)
      exact ⟨hgrows.graph.growsTo.trans (Graph.growsTo_putTop hid),
        ⟨hknown.wellFormed.putTop hid, hknown.built⟩, hgrows.problems, hgrows.flagged⟩

theorem Known.proceeds_readTopLevels (h : r.Known) (s : UnionScope) (f : Edn.Form) :
    r.Proceeds (readTopLevels s r f) := by
  unfold readTopLevels
  split
  · exact h.proceeds_report _
  · exact h.proceeds_foldl (fun r f hr => hr.proceeds_addTopLevel s _ f) _

end Reading

/-! ## The readings of the sections, one after the other -/

namespace Sections

/-- The reading before the declarations. -/
def opening (s : Sections) (graph : Graph) : Reading :=
  (⟨graph, [], [], true⟩ : Reading).reportAll (((s.get? "comments").map readComments).getD ([], [])).2

def declarations (s : Sections) (graph : Graph) : List Declaration × Reading :=
  ((s.get? "types").map (readDeclarations [] (s.opening graph))).getD ([], s.opening graph)

def scope (s : Sections) (suggests : Bool) (graph : Graph) : UnionScope := unionScope suggests (s.declarations graph).1

def withEnums (s : Sections) (graph : Graph) : Reading :=
  (ofKind .enum (s.declarations graph).1).foldl buildEnum (s.declarations graph).2

def withUnions (s : Sections) (suggests : Bool) (graph : Graph) : Reading :=
  (ofKind .union (s.declarations graph).1).foldl (buildUnion (s.scope suggests graph)) (s.withEnums graph)

def withClasses (s : Sections) (suggests : Bool) (graph : Graph) : Reading :=
  (ofKind .record (s.declarations graph).1).foldl (buildClass (s.scope suggests graph)) (s.withUnions suggests graph)

def withTops (s : Sections) (suggests : Bool) (graph : Graph) : Reading :=
  ((s.get? "top-levels").map (readTopLevels (s.scope suggests graph) (s.withClasses suggests graph))).getD
    (s.withClasses suggests graph)

variable (s : Sections) (suggests : Bool) (graph : Graph) (pos : Position)

theorem graph_readSections :
    (Reader.new.readSections suggests graph pos s).1.graph = (s.withTops suggests graph).graph := rfl

theorem problems_readSections :
    (Reader.new.readSections suggests graph pos s).1.problems = (s.withTops suggests graph).problems := rfl

theorem success_readSections :
    (Reader.new.readSections suggests graph pos s).1.success = (s.withTops suggests graph).success := rfl

theorem graph_opening : (s.opening graph).graph = graph := Reading.graph_reportAll _ _

theorem built_opening : (s.opening graph).built = [] := Reading.built_reportAll _ _

theorem problems_opening :
    (s.opening graph).problems = (((s.get? "comments").map readComments).getD ([], [])).2 := by
  rw [opening, Reading.problems_reportAll, List.nil_append]

variable {s suggests graph}

theorem proceeds_opening (h : graph.WellFormed) : (⟨graph, [], [], true⟩ : Reading).Proceeds (s.opening graph) :=
  Reading.Known.proceeds_reportAll ⟨h, by simp⟩ _

theorem known_opening (h : graph.WellFormed) : (s.opening graph).Known := (proceeds_opening h).known

theorem proceeds_declarations (h : graph.WellFormed) : (s.opening graph).Proceeds (s.declarations graph).2 := by
  unfold declarations
  cases s.get? "types" with
  | none => exact (known_opening h).proceeds
  | some f => exact (known_opening h).proceeds_readDeclarations f

theorem proceeds_withEnums (h : graph.WellFormed) : (s.declarations graph).2.Proceeds (s.withEnums graph) :=
  (proceeds_declarations h).known.proceeds_foldl (fun _ d hr => hr.proceeds_buildEnum d) _

theorem proceeds_withUnions (h : graph.WellFormed) : (s.withEnums graph).Proceeds (s.withUnions suggests graph) :=
  (proceeds_withEnums h).known.proceeds_foldl (fun _ d hr => hr.proceeds_buildUnion _ d) _

theorem proceeds_withClasses (h : graph.WellFormed) :
    (s.withUnions suggests graph).Proceeds (s.withClasses suggests graph) :=
  (proceeds_withUnions h).known.proceeds_foldl (fun _ d hr => hr.proceeds_buildClass _ d) _

theorem proceeds_withTops (h : graph.WellFormed) :
    (s.withClasses suggests graph).Proceeds (s.withTops suggests graph) := by
  unfold withTops
  cases s.get? "top-levels" with
  | none => exact (proceeds_withClasses h).known.proceeds
  | some f => exact (proceeds_withClasses h).known.proceeds_readTopLevels _ f

theorem proceeds_readSections (h : graph.WellFormed) :
    (⟨graph, [], [], true⟩ : Reading).Proceeds (s.withTops suggests graph) :=
  (proceeds_opening h).trans (proceeds_declarations h) |>.trans (proceeds_withEnums h)
    |>.trans (proceeds_withUnions h) |>.trans (proceeds_withClasses h) |>.trans (proceeds_withTops h)

end Sections

section

variable {f : Edn.Form} (suggests : Bool) (graph : Graph)

theorem readForm_of_sections {s : Sections} (hhead : f.head? = some (Bytes.ascii "graph")) (hs : f.sections = .ok s) :
    readForm suggests graph f = (Reader.new.readSections suggests graph f.pos s).1 := by
  simp only [readForm, Reader.read, Reader.reset, if_pos hhead, hs]

theorem readForm_of_error {p : Problem} (hhead : f.head? = some (Bytes.ascii "graph")) (hs : f.sections = .error p) :
    readForm suggests graph f = ⟨graph, [p], false, [], [], none⟩ := by
  simp only [readForm, Reader.read, if_pos hhead, hs]

theorem readForm_of_head? (hhead : f.head? ≠ some (Bytes.ascii "graph")) :
    readForm suggests graph f = ⟨graph, [⟨.notAGraph, f.pos⟩], false, [], [], none⟩ := by
  simp only [readForm, Reader.read, if_neg hhead]

/-- A description is read section by section, or is told to be none. -/
theorem readForm_cases (f : Edn.Form) :
    (∃ p, readForm suggests graph f = ⟨graph, [p], false, [], [], none⟩) ∨
      ∃ s, readForm suggests graph f = (Reader.new.readSections suggests graph f.pos s).1 := by
  by_cases hhead : f.head? = some (Bytes.ascii "graph")
  · cases hs : f.sections with
    | error p => exact .inl ⟨p, readForm_of_error suggests graph hhead hs⟩
    | ok s => exact .inr ⟨s, readForm_of_sections suggests graph hhead hs⟩
  · exact .inl ⟨_, readForm_of_head? suggests graph hhead⟩

end

/-- Reading a description goes on from the graph it is given by calls that succeed, whatever the form is. -/
theorem growsTo_readForm (suggests : Bool) {graph : Graph} (h : graph.WellFormed) (f : Edn.Form) :
    graph.GrowsTo (readForm suggests graph f).graph := by
  rcases readForm_cases suggests graph f with ⟨p, heq⟩ | ⟨s, heq⟩ <;> rw [heq]
  · exact .refl graph
  · rw [Sections.graph_readSections]
    exact (Sections.proceeds_readSections h).graph

/-- **The flag of a reading is set just if it met no problems.** -/
theorem success_readForm_iff (suggests : Bool) {graph : Graph} (h : graph.WellFormed) (f : Edn.Form) :
    (readForm suggests graph f).success = true ↔ (readForm suggests graph f).problems = [] := by
  rcases readForm_cases suggests graph f with ⟨p, heq⟩ | ⟨s, heq⟩ <;> rw [heq]
  · simp
  · rw [Sections.success_readSections, Sections.problems_readSections]
    exact (Sections.proceeds_readSections h).flagged (by simp [Reading.Flagged])

theorem accepted_iff {suggests : Bool} {f : Edn.Form} :
    (readForm suggests .empty f).report.success = true ↔ (readForm suggests .empty f).problems = [] :=
  success_readForm_iff suggests Graph.wellFormed_empty f

/-- The type that a name gets while a form is read into a graph, if it is declared and can be built. -/
def declaredType? (suggests : Bool) (graph : Graph) (f : Edn.Form) (name : Bytes) : Option TypeId :=
  if f.head? = some (Bytes.ascii "graph") then
    match f.sections with
    | .error _ => none
    | .ok s => ((s.withTops suggests graph).built.lookup name).join
  else none

end Typewright
