import Typewright.Proofs.Description.UnionNames

/-!
# The course of a reading

* `Problem.Formal` : a problem of a form. Whatever is told other than by `resolve` is one (`formal_of_readDeclaration`
  and the like);
* `CountsProperty items name type`, `TypesTop f type` : the type of a property that counts, and of a top-level;
* `Reading.Course s T r r'` : a reading tells problems of forms, resolves the types in `T` one after the other, and
  gives the graph properties of classes and top-levels;
* `Sections.course_withUnions`, `Sections.course_withTops` : behind the enums a reading takes such a course, and the
  types it resolves are those of the unions, of the properties that count and of the top-levels.
-/

namespace Typewright

open Edn (Form)

/-! ## Problems of forms -/

/-- A fault is neither that a union contains itself nor that a name is unknown. -/
def Fault.isFormal : Fault → Bool
  | .recursiveUnion _ | .unknownType _ _ => false
  | _ => true

/-- A problem of a form: what it tells does not depend on the declarations. -/
def Problem.Formal (p : Problem) : Prop := p.fault.isFormal = true

theorem Problem.Formal.plain {p : Problem} (h : p.Formal) : p.Plain := by
  intro name hname
  rw [Formal, hname] at h
  cases h

theorem Problem.Formal.ne_unknownType {p : Problem} (h : p.Formal) (name : Bytes) (similar : List Bytes) :
    p.fault ≠ .unknownType name similar := by
  intro hname
  rw [Formal, hname] at h
  cases h

theorem exists_of_mem_gather {k : α → Except Problem β} {l : List α} {p : Problem} (h : p ∈ (gather k l).2) :
    ∃ a ∈ l, k a = .error p := by
  induction l with
  | nil => cases h
  | cons a l ih =>
    rw [gather] at h
    cases hk : k a with
    | ok b =>
      simp only [hk] at h
      obtain ⟨a', ha', hk'⟩ := ih h
      exact ⟨a', List.mem_cons_of_mem a ha', hk'⟩
    | error q =>
      simp only [hk] at h
      rcases List.mem_cons.mp h with rfl | h
      · exact ⟨a, List.mem_cons_self, hk⟩
      · obtain ⟨a', ha', hk'⟩ := ih h
        exact ⟨a', List.mem_cons_of_mem a ha', hk'⟩

theorem formal_of_error {fault : Fault} {pos : Position} {p : Problem}
    (h : (.error ⟨fault, pos⟩ : Except Problem α) = .error p) (hfault : fault.isFormal = true) : p.Formal := by
  obtain rfl := Except.error.inj h
  exact hfault

theorem formal_of_sectionsOf {pos : Position} {items : List Form} {p : Problem} (h : sectionsOf pos items = .error p) :
    p.Formal := by
  induction items using sectionsOf.induct generalizing p with
  | case1 => simp [sectionsOf] at h
  | case2 q key => exact formal_of_error h rfl
  | case3 q key value rest ih =>
    rw [sectionsOf] at h
    cases hrest : sectionsOf pos rest with
    | error e =>
      rw [hrest] at h
      obtain rfl := Except.error.inj h
      exact ih hrest
    | ok s => simp [hrest, Except.map] at h
  | case4 f rest hf =>
    rw [sectionsOf] at h
    · exact formal_of_error h rfl
    · exact hf

theorem formal_of_sections {f : Form} {p : Problem} (h : f.sections = .error p) : p.Formal := by
  unfold Edn.Form.sections at h
  split at h
  · exact formal_of_sectionsOf h
  · cases h

theorem formal_of_readComments {f : Form} : ∀ p ∈ (readComments f).2, p.Formal := by
  intro p hp
  unfold readComments at hp
  split at hp
  · obtain rfl := List.mem_singleton.mp hp
    rfl
  · obtain ⟨c, -, hc⟩ := exists_of_mem_gather hp
    split at hc
    · cases hc
    · exact formal_of_error hc rfl

theorem formal_of_readCases {f : Form} {items : List Form} : ∀ p ∈ (readCases f items).2, p.Formal := by
  intro p hp
  obtain ⟨c, -, hc⟩ := exists_of_mem_gather hp
  split at hc
  · cases hc
  · exact formal_of_error hc rfl

theorem formal_of_readDeclaration {before : List Declaration} {f : Form} {p : Problem}
    (h : readDeclaration before f = .error p) : p.Formal := by
  unfold readDeclaration at h
  split at h
  · exact formal_of_error h rfl
  split at h
  · rename_i hs
    obtain rfl := Except.error.inj h
    exact formal_of_sections hs
  split at h
  · exact formal_of_error h rfl
  split at h
  · exact formal_of_error h rfl
  split at h
  · exact formal_of_error h rfl
  · cases h

theorem formal_of_readOptional {s : Sections} {p : Problem} (h : readOptional s = .error p) : p.Formal := by
  unfold readOptional at h
  split at h
  · cases h
  · cases h
  · exact formal_of_error h rfl

theorem formal_of_readProperty {pos : Position} {f : Form} {p : Problem} (h : readProperty pos f = .error p) :
    p.Formal := by
  unfold readProperty at h
  split at h
  · split at h
    · rename_i hs
      obtain rfl := Except.error.inj h
      exact formal_of_sections hs
    · split at h
      · cases h
      · exact formal_of_error h rfl
  · exact formal_of_error h rfl

theorem formal_of_readTopLevel {pos : Position} {f : Form} {p : Problem} (h : readTopLevel pos f = .error p) :
    p.Formal := by
  unfold readTopLevel at h
  split at h
  · split at h
    · rename_i hs
      obtain rfl := Except.error.inj h
      exact formal_of_sections hs
    · split at h
      · cases h
      · exact formal_of_error h rfl
  · exact formal_of_error h rfl

namespace TypeForm

theorem formal_of_part_apply {pos : Position} {head : Bytes} {args : List TypeForm}
    (h : ∀ t ∈ args, ∀ p, Part (.invalid p) t → p.Formal) :
    ∀ p, Part (.invalid p) (apply pos head args) → p.Formal := by
  intro p hpart
  unfold apply at hpart
  split at hpart
  · rename_i wrap hwrap
    obtain ⟨⟨make, hmake⟩, -⟩ := unary?_wraps hwrap
    split at hpart
    · rename_i t
      rcases (part_wrap_iff hmake).mp hpart with heq | hpart
      · cases hmake <;> cases heq
      · exact h t (by simp) p hpart
    · cases hpart
      rfl
  · split at hpart
    · rcases part_union_iff.mp hpart with heq | ⟨t, ht, hpart⟩
      · cases heq
      · exact h t ht p hpart
    · cases hpart
      rfl

/-- What is no type in a form is told by problems of forms. -/
theorem formal_of_part (f : Form) : ∀ p, Part (.invalid p) (ofForm f) → p.Formal := by
  refine ofForm.induct (fun f => ∀ p, Part (.invalid p) (ofForm f) → p.Formal)
    (fun fs => ∀ t ∈ ofForms fs, ∀ p, Part (.invalid p) t → p.Formal) ?absent ?symbol ?string ?list ?other ?nil ?cons f
  case absent =>
    intro p hpart
    rw [ofForm] at hpart
    cases hpart
  case symbol =>
    intro pos name p hpart
    rw [ofForm] at hpart
    cases hpart
  case string =>
    intro pos name p hpart
    rw [ofForm] at hpart
    cases hpart
  case list =>
    intro pos p head args ih
    rw [ofForm]
    exact formal_of_part_apply ih
  case other =>
    intro f h₁ h₂ h₃ h₄ p hpart
    rw [ofForm.eq_5 f h₁ h₂ h₃ h₄] at hpart
    cases hpart
    rfl
  case nil => exact fun t ht => absurd ht List.not_mem_nil
  case cons =>
    intro f fs ih ihs
    rw [ofForms, List.forall_mem_cons]
    exact ⟨ih, ihs⟩

theorem proper_ofForm (f : Form) : (ofForm f).Proper := fun p hpart => (formal_of_part f p hpart).plain

end TypeForm

/-! ## The types of properties and top-levels -/

def HeadsProperty (f : Form) (name : Bytes) (type : Form) (s : Sections) : Prop :=
  Entry (Bytes.ascii "prop") f s ∧ s.Gives "name" SpellsName name ∧ s.lookup (Bytes.ascii "type") = some type

/-- The type of a property counts among some forms: no form before it is a property of its name, and it is told whether
it is optional. -/
inductive CountsProperty : List Form → Bytes → Form → Prop where
  | here {f type : Form} {rest : List Form} {name : Bytes} {s : Sections} {b : Bool} :
    HeadsProperty f name type s → s.GivesOr "optional" SpellsFlag false b → CountsProperty (f :: rest) name type
  | there {f type : Form} {rest : List Form} {name : Bytes} :
    (∀ type' s, ¬ HeadsProperty f name type' s) → CountsProperty rest name type → CountsProperty (f :: rest) name type

/-- The type of a property that counts in a declaration. -/
def TypesProperty (d : Declaration) (type : Form) : Prop :=
  ∃ props items name, d.sections.lookup (Bytes.ascii "properties") = some props ∧ props.vector? = some items ∧
    CountsProperty items name type

def TypesTop (f type : Form) : Prop :=
  ∃ s name, Entry (Bytes.ascii "top") f s ∧ s.Gives "name" SpellsName name ∧ s.lookup (Bytes.ascii "type") = some type

theorem readProperty_eq_ok_iff_heads {f : Form} (hf : f.Whole) (pos : Position) {name : Bytes} {t : TypeForm}
    {optional : Except Problem Bool} :
    (∃ npos, readProperty pos f = .ok ⟨name, npos, t, optional⟩) ↔
      ∃ type s, HeadsProperty f name type s ∧ t = .ofForm type ∧ optional = readOptional s := by
  simp only [readProperty_eq_ok_iff]
  constructor
  · rintro ⟨npos, s, type, hentry, hname, htype, rfl, rfl⟩
    have hs := hentry.whole hf
    rw [hs.get?_eq] at htype
    exact ⟨type, s, ⟨hentry, (nameIn?_iff hs).mp ⟨npos, hname⟩, htype⟩, rfl, rfl⟩
  · rintro ⟨type, s, ⟨hentry, hname, htype⟩, rfl, rfl⟩
    have hs := hentry.whole hf
    obtain ⟨npos, hname⟩ := (nameIn?_iff hs).mpr hname
    exact ⟨npos, s, type, hentry, hname, by rw [hs.get?_eq, htype], rfl, rfl⟩

theorem HeadsProperty.unique {f type type' : Form} {name name' : Bytes} {s s' : Sections}
    (h : HeadsProperty f name type s) (h' : HeadsProperty f name' type' s') : name = name' ∧ type = type' ∧ s = s' := by
  obtain ⟨hentry, hname, htype⟩ := h
  obtain ⟨hentry', hname', htype'⟩ := h'
  obtain rfl := hentry.unique hentry'
  exact ⟨hname.unique rightUnique_spellsName hname', Option.some.inj (htype.symm.trans htype'), rfl⟩

theorem readTopLevel_eq_ok_iff_types {f : Form} (hf : f.Whole) (pos : Position) {t : TypeForm} :
    (∃ name, readTopLevel pos f = .ok (name, t)) ↔ ∃ type, TypesTop f type ∧ t = .ofForm type := by
  simp only [readTopLevel_eq_ok_iff]
  constructor
  · rintro ⟨name, s, type, hentry, hname, htype, rfl⟩
    have hs := hentry.whole hf
    rw [hs.get?_eq] at htype
    exact ⟨type, ⟨s, name, hentry, (nameIn?_iff hs).mp hname, htype⟩, rfl⟩
  · rintro ⟨type, ⟨s, name, hentry, hname, htype⟩, rfl⟩
    have hs := hentry.whole hf
    exact ⟨name, s, type, hentry, (nameIn?_iff hs).mpr hname, by rw [hs.get?_eq, htype], rfl⟩

/-! ## Courses -/

namespace Reading

/-- A reading goes on: it tells problems of forms, it resolves types, and the graph changes in the properties of classes
and in the top-levels. `T` are the types that are resolved. -/
inductive Course (s : UnionScope) : Set TypeForm → Reading → Reading → Prop where
  | done (r : Reading) : Course s ∅ r r
  | report {T : Set TypeForm} {r r' : Reading} {p : Problem} :
    p.Formal → Course s T (r.report p) r' → Course s T r r'
  | resolve {T : Set TypeForm} {r r' : Reading} (t : TypeForm) :
    Course s T (resolve s [] r t).2 r' → Course s (insert t T) r r'
  | graph {T : Set TypeForm} {r r' : Reading} {g : Graph} :
    { r with graph := g }.Known → (∀ i, (g.node? i).map Node.bare = (r.graph.node? i).map Node.bare) →
      Course s T { r with graph := g } r' → Course s T r r'

variable {s : UnionScope} {r r' r'' : Reading} {T T' : Set TypeForm}

theorem Course.congr (h : Course s T r r') (hT : ∀ t, t ∈ T' ↔ t ∈ T) : Course s T' r r' := by
  rwa [Set.ext hT]

/-- Nothing is done, and nothing is to be resolved. -/
theorem Course.stay (r : Reading) (hT : ∀ t, t ∉ T) : Course s T r r :=
  (Course.done r).congr fun t => iff_of_false (hT t) (Set.notMem_empty t)

theorem Course.trans (h : Course s T r r') (h' : Course s T' r' r'') : Course s (T ∪ T') r r'' := by
  induction h with
  | done r => rwa [Set.empty_union]
  | report hp _ ih => exact .report hp (ih h')
  | resolve t _ ih =>
    rw [Set.insert_union]
    exact .resolve t (ih h')
  | graph hknown hg _ ih => exact .graph hknown hg (ih h')

theorem Course.known (h : Course s T r r') (hr : r.Known) : r'.Known := by
  induction h with
  | done r => exact hr
  | report _ _ ih => exact ih (hr.report _)
  | resolve t _ ih => exact ih (hr.resolves s [] t).known
  | graph hknown _ _ ih => exact ih hknown

theorem course_resolve (t : TypeForm) : Course s {t} r (Typewright.resolve s [] r t).2 := by
  rw [← insert_empty_eq]
  exact .resolve t (.done _)

/-- Steps one after the other take a course if each of them does. -/
theorem Known.course_foldl {β : Type} {step : Reading → β → Reading} {R : β → Set TypeForm} {l : List β} (hr : r.Known)
    (hstep : ∀ r, ∀ b ∈ l, r.Known → Course s (R b) r (step r b)) :
    Course s {t | ∃ b ∈ l, t ∈ R b} r (l.foldl step r) := by
  induction l generalizing r with
  | nil => exact .stay r (by simp)
  | cons b l ih =>
    have hfirst := hstep r b List.mem_cons_self hr
    have hrest := ih (hfirst.known hr) fun r b hb => hstep r b (List.mem_cons_of_mem _ hb)
    exact (hfirst.trans hrest).congr (by simp)

/-- A property is resolved unless one of its name was seen. -/
theorem course_addProperty (pos : Position) {f : Form} (hf : f.Whole) (body : ClassBody) :
    Course s {t | ∃ name type sections b, HeadsProperty f name type sections ∧ name ∉ body.seen ∧
        sections.GivesOr "optional" SpellsFlag false b ∧ t = .ofForm type} r (addProperty s pos (body, r) f).2 ∧
      ∀ name, name ∈ (addProperty s pos (body, r) f).1.seen ↔
        name ∈ body.seen ∨ ∃ type sections, HeadsProperty f name type sections := by
  cases hread : readProperty pos f with
  | error p =>
    have hstep : addProperty s pos (body, r) f = (body, r.report p) := by simp only [addProperty, hread]
    have hnot : ∀ name type sections, ¬ HeadsProperty f name type sections := by
      intro name type sections h
      obtain ⟨npos, hok⟩ := (readProperty_eq_ok_iff_heads hf pos).mpr ⟨type, sections, h, rfl, rfl⟩
      rw [hread] at hok
      cases hok
    rw [hstep]
    exact ⟨.report (formal_of_readProperty hread) (.stay _ (by simp [hnot])), by simp [hnot]⟩
  | ok q =>
    obtain ⟨name, npos, t, optional⟩ := q
    obtain ⟨type, sections, hheads, rfl, rfl⟩ := (readProperty_eq_ok_iff_heads hf pos).mp ⟨npos, hread⟩
    have hname : ∀ other, (∃ type' sections', HeadsProperty f other type' sections') ↔ other = name :=
      fun other => ⟨fun ⟨_, _, h⟩ => (h.unique hheads).1, fun h => ⟨type, sections, h ▸ hheads⟩⟩
    have hoptional := fun b => readOptional_eq_ok_iff (hheads.1.whole hf) (b := b)
    by_cases hseen : name ∈ body.seen
    · have hstep : addProperty s pos (body, r) f = (body, r.report ⟨.duplicateProperty name, npos⟩) := by
        simp only [addProperty, hread, if_pos hseen]
      have hformal : Problem.Formal ⟨.duplicateProperty name, npos⟩ := rfl
      rw [hstep]
      refine ⟨.report hformal (.stay _ ?_), fun other => ?_⟩
      · rintro t ⟨_, _, _, _, h, hnew, -⟩
        exact hnew ((h.unique hheads).1 ▸ hseen)
      · rw [hname, or_iff_left_of_imp]
        rintro rfl
        exact hseen
    · cases hread' : readOptional sections with
      | error p =>
        have hstep : addProperty s pos (body, r) f = (⟨body.properties, name :: body.seen⟩, r.report p) := by
          simp only [addProperty, hread, if_neg hseen, hread']
        rw [hstep]
        refine ⟨.report (formal_of_readOptional hread') (.stay _ ?_),
          fun other => by rw [hname, List.mem_cons, or_comm]⟩
        rintro t ⟨_, _, _, b, h, -, hb, -⟩
        obtain ⟨-, -, rfl⟩ := h.unique hheads
        rw [(hoptional b).mpr hb] at hread'
        cases hread'
      | ok b =>
        have hstep : ∃ ps, addProperty s pos (body, r) f =
            (⟨ps, name :: body.seen⟩, (Typewright.resolve s [] r (.ofForm type)).2) := by
          simp only [addProperty, hread, if_neg hseen, hread']
          split
          · rename_i hres
            exact ⟨body.properties, by rw [hres]⟩
          · rename_i id r' hres
            exact ⟨body.properties ++ [⟨name, id, b⟩], by rw [hres]⟩
        obtain ⟨ps, hstep⟩ := hstep
        rw [hstep]
        refine ⟨(course_resolve (.ofForm type)).congr fun t => ⟨?_, ?_⟩,
          fun other => by rw [hname, List.mem_cons, or_comm]⟩
        · rintro ⟨_, _, _, _, h, -, -, rfl⟩
          rw [(h.unique hheads).2.1]
          rfl
        · rintro rfl
          exact ⟨name, type, sections, b, hheads, hseen, (hoptional b).mp hread', rfl⟩

theorem course_addProperties (pos : Position) {items : List Form} (hw : ∀ f ∈ items, f.Whole) (body : ClassBody) :
    Course s {t | ∃ name type, CountsProperty items name type ∧ name ∉ body.seen ∧ t = .ofForm type} r
      (items.foldl (addProperty s pos) (body, r)).2 := by
  induction items generalizing body r with
  | nil =>
    refine .stay r ?_
    rintro t ⟨_, _, ⟨⟩, _⟩
  | cons f items ih =>
    rw [List.forall_mem_cons] at hw
    obtain ⟨hstep, hseen⟩ := course_addProperty (s := s) (r := r) pos hw.1 body
    refine (hstep.trans (ih hw.2 (addProperty s pos (body, r) f).1)).congr fun t => ?_
    simp only [Set.mem_union, Set.mem_ofPred_eq, hseen]
    constructor
    · rintro ⟨name, type, ⟨h, hb⟩ | ⟨hne, h⟩, hnew, ht⟩
      · exact .inl ⟨name, type, _, _, h, hnew, hb, ht⟩
      · exact .inr ⟨name, type, h, not_or.mpr ⟨hnew, fun ⟨_, _, h⟩ => hne _ _ h⟩, ht⟩
    · rintro (⟨name, type, _, _, h, hnew, hb, ht⟩ | ⟨name, type, h, hnew, ht⟩)
      · exact ⟨name, type, .here h hb, hnew, ht⟩
      · exact ⟨name, type, .there (fun _ _ h' => hnew (.inr ⟨_, _, h'⟩)) h, fun hn => hnew (.inl hn), ht⟩

theorem Known.course_buildClass (hr : r.Known) {d : Declaration} (hd : d.sections.Whole) :
    Course s {t | ∃ type, TypesProperty d type ∧ t = .ofForm type} r (buildClass s r d) := by
  cases hprops : d.sections.lookup (Bytes.ascii "properties") with
  | none =>
    have hstep : buildClass s r d = r := by rw [Typewright.buildClass, hd.get?_eq, hprops]
    rw [hstep]
    exact .stay r (by simp [TypesProperty, hprops])
  | some props =>
    cases hitems : props.vector? with
    | none =>
      have hstep : buildClass s r d = r.report ⟨.propertiesNotVector, props.pos⟩ := by
        simp only [Typewright.buildClass, hd.get?_eq, hprops, hitems]
      rw [hstep]
      exact .report (p := ⟨.propertiesNotVector, props.pos⟩) rfl (.stay _ (by simp [TypesProperty, hprops, hitems]))
    | some items =>
      have hw := (hd.of_lookup hprops).of_vector? hitems
      have hbody : Course s {t | ∃ type, TypesProperty d type ∧ t = .ofForm type} r
          (items.foldl (addProperty s props.pos) (⟨[], []⟩, r)).2 :=
        (course_addProperties props.pos hw ⟨[], []⟩).congr fun t => by
          simp only [TypesProperty, hprops, Set.mem_ofPred_eq]
          grind
      have hlt := hr.addProperties_lt_size s props.pos items
      have hknown := hbody.known hr
      simp only [Typewright.buildClass, hd.get?_eq, hprops, hitems]
      split
      · rename_i id _
        refine (hbody.trans
          (.graph (g := (items.foldl (addProperty s props.pos) (⟨[], []⟩, r)).2.graph.putProperties id _)
            ⟨hknown.wellFormed.putProperties hlt, ?_⟩ (Graph.bare_putProperties _ _ _) (.done _))).congr (by simp)
        simpa only [Graph.size_putProperties] using hknown.built
      · exact hbody

theorem Known.course_addTopLevel (hr : r.Known) (pos : Position) {f : Form} (hf : f.Whole) :
    Course s {t | ∃ type, TypesTop f type ∧ t = .ofForm type} r (addTopLevel s pos r f) := by
  have htypes : {t | ∃ type, TypesTop f type ∧ t = .ofForm type} = {t | ∃ name, readTopLevel pos f = .ok (name, t)} :=
    Set.ext fun t => (readTopLevel_eq_ok_iff_types hf pos).symm
  rw [htypes]
  unfold Typewright.addTopLevel
  cases hread : readTopLevel pos f with
  | error p =>
    exact .report (formal_of_readTopLevel hread) (.stay _ (by simp))
  | ok x =>
    obtain ⟨name, t⟩ := x
    have hone : {t' | ∃ name', (.ok (name, t) : Except Problem (Bytes × TypeForm)) = .ok (name', t')} = {t} := by
      ext t'
      simp [eq_comm]
    have hres := course_resolve (s := s) (r := r) t
    have hlt := (hr.resolves s [] t).lt_size
    have hknown := (hr.resolves s [] t).known
    rw [hone]
    dsimp only
    split
    · rename_i heq
      rwa [heq] at hres
    · rename_i id r' heq
      rw [heq] at hres hlt hknown
      rw [← Set.union_empty {t}]
      exact hres.trans (.graph ⟨hknown.wellFormed.putTop (hlt id (by simp)), hknown.built⟩ (fun _ => rfl) (.done _))

end Reading

namespace Sections

variable {s : Sections} {f : Form} {graph : Graph} {suggests : Bool}

theorem course_withUnions (hgraph : graph.WellFormed) :
    Reading.Course (s.scope suggests graph)
      {t | ∃ d ∈ (s.declarations graph).1, d.kind = .union ∧ t = .named d.pos d.name}
      (s.withEnums graph) (s.withUnions suggests graph) := by
  have hfold : Reading.Course (s.scope suggests graph)
      {t | ∃ d ∈ ofKind .union (s.declarations graph).1, t ∈ ({.named d.pos d.name} : Set TypeForm)}
      (s.withEnums graph) (s.withUnions suggests graph) :=
    (proceeds_withEnums hgraph).known.course_foldl fun _ d _ _ => Reading.course_resolve (.named d.pos d.name)
  exact hfold.congr fun t => by simp [mem_ofKind, and_assoc]

theorem course_withTops (hs : s.Whole) (hentry : Entry (Bytes.ascii "graph") f s) (hgraph : graph.WellFormed) :
    Reading.Course (s.scope suggests graph)
      {t | ∃ type, ((∃ d ∈ (s.declarations graph).1, d.kind = .record ∧ TypesProperty d type) ∨
        ∃ tops items, s.lookup (Bytes.ascii "top-levels") = some tops ∧ tops.vector? = some items ∧
          ∃ g ∈ items, TypesTop g type) ∧ t = .ofForm type}
      (s.withUnions suggests graph) (s.withTops suggests graph) := by
  have hclasses : Reading.Course (s.scope suggests graph)
      {t | ∃ d ∈ ofKind .record (s.declarations graph).1, t ∈ {t | ∃ type, TypesProperty d type ∧ t = .ofForm type}}
      (s.withUnions suggests graph) (s.withClasses suggests graph) :=
    (proceeds_withUnions hgraph).known.course_foldl fun _ d hd hr =>
      hr.course_buildClass (whole_of_mem_declarations hs hentry (mem_ofKind.mp hd).1)
  have htops : Reading.Course (s.scope suggests graph)
      {t | ∃ tops items, s.lookup (Bytes.ascii "top-levels") = some tops ∧ tops.vector? = some items ∧
        ∃ g ∈ items, t ∈ {t | ∃ type, TypesTop g type ∧ t = .ofForm type}}
      (s.withClasses suggests graph) (s.withTops suggests graph) := by
    have hknown : (s.withClasses suggests graph).Known := (proceeds_withClasses hgraph).known
    unfold withTops
    rw [hs.get?_eq]
    cases htops : s.lookup (Bytes.ascii "top-levels") with
    | none => exact .stay _ (by simp)
    | some tops =>
      rw [Option.map_some, Option.getD_some, readTopLevels]
      cases hitems : tops.vector? with
      | none =>
        exact .report (p := ⟨.topLevelsNotVector, tops.pos⟩) rfl (.stay _ (by simp [hitems]))
      | some items =>
        have hw := (hs.of_lookup htops).of_vector? hitems
        exact (hknown.course_foldl fun _ g hg hr => hr.course_addTopLevel tops.pos (hw g hg)).congr (by simp [hitems])
  refine (hclasses.trans htops).congr fun t => ?_
  simp only [Set.mem_union, Set.mem_ofPred_eq, mem_ofKind]
  grind

end Sections

end Typewright
