import Typewright.Proofs.Description.Acceptance
import Typewright.Proofs.Description.Attempt
import Typewright.Proofs.Description.Cycles

/-!
# The unions that a form declares

* `NamesType f name` : a form of a type names a declaration;
* `Counts items d` : of the declarations with one name the first one counts;
* `NamesUnion f a b` : a declared union of a description names another one in its members;
* `Sections.mem_declarations_iff`, `Sections.namesUnion_iff` : the declarations that are taken up are those that count,
  and the unions of their scope name one another as those of the form do.
-/

namespace Typewright

open Edn (Form)

/-! ## What a form declares -/

/-- A form of a type names a type, itself or in an argument. -/
inductive NamesType : Form → Bytes → Prop where
  | name {f : Form} {name : Bytes} : SpellsName f name → NamesType f name
  | array {f a : Form} {name : Bytes} : Headed (Bytes.ascii "array") f [a] → NamesType a name → NamesType f name
  | map {f a : Form} {name : Bytes} : Headed (Bytes.ascii "map") f [a] → NamesType a name → NamesType f name
  | nullable {f a : Form} {name : Bytes} : Headed (Bytes.ascii "nullable") f [a] → NamesType a name → NamesType f name
  | union {f a : Form} {args : List Form} {name : Bytes} :
    Headed (Bytes.ascii "union") f args → a ∈ args → NamesType a name → NamesType f name

/-- A declaration counts among some forms: no primitive type has its name, and no form before it does. -/
inductive Counts : List Form → Declaration → Prop where
  | here {f : Form} {rest : List Form} {d : Declaration} :
    Heads f d → Primitive.ofName? d.name = none → Counts (f :: rest) d
  | there {f : Form} {rest : List Form} {d : Declaration} :
    (∀ d', Heads f d' → d'.name ≠ d.name) → Counts rest d → Counts (f :: rest) d

/-- A description declares something. -/
def DeclaredIn (f : Form) (d : Declaration) : Prop :=
  ∃ s types items, Entry (Bytes.ascii "graph") f s ∧ s.lookup (Bytes.ascii "types") = some types ∧
    types.vector? = some items ∧ Counts items d

/-- A union that a description declares names another one in its members. -/
def NamesUnion (f : Form) (a b : Bytes) : Prop :=
  ∃ d d', DeclaredIn f d ∧ d.kind = .union ∧ d.name = a ∧ DeclaredIn f d' ∧ d'.kind = .union ∧ d'.name = b ∧
    ∃ members items, d.sections.lookup (Bytes.ascii "members") = some members ∧ members.vector? = some items ∧
      ∃ m ∈ items, NamesType m b

/-! ## The names in a form -/

theorem namesType_list {pos p : Position} {head name : Bytes} {args : List Form} :
    NamesType (.seq pos .round (.atom p (.symbol head) :: args)) name ↔
      (∃ a, args = [a] ∧ NamesType a name ∧
        (head = Bytes.ascii "array" ∨ head = Bytes.ascii "map" ∨ head = Bytes.ascii "nullable")) ∨
      head = Bytes.ascii "union" ∧ ∃ a ∈ args, NamesType a name := by
  constructor
  · rintro (hname | ⟨hhead, h⟩ | ⟨hhead, h⟩ | ⟨hhead, h⟩ | ⟨hhead, ha, h⟩)
    · simp [SpellsName, Edn.Form.name?] at hname
    all_goals obtain ⟨rfl, rfl⟩ := headed_list.mp hhead
    · exact .inl ⟨_, rfl, h, .inl rfl⟩
    · exact .inl ⟨_, rfl, h, .inr (.inl rfl)⟩
    · exact .inl ⟨_, rfl, h, .inr (.inr rfl)⟩
    · exact .inr ⟨rfl, _, ha, h⟩
  · rintro (⟨a, rfl, h, rfl | rfl | rfl⟩ | ⟨rfl, a, ha, h⟩)
    · exact .array ⟨pos, p, rfl⟩ h
    · exact .map ⟨pos, p, rfl⟩ h
    · exact .nullable ⟨pos, p, rfl⟩ h
    · exact .union ⟨pos, p, rfl⟩ ha h

theorem namesType_name {f : Form} {name other : Bytes} (h : f.name? = some name) : NamesType f other ↔ other = name := by
  have hhead : ∀ word items, ¬ Headed word f items := by
    rintro word items ⟨pos, p, rfl⟩
    simp [Edn.Form.name?] at h
  constructor
  · rintro (hname | ⟨hf, _⟩ | ⟨hf, _⟩ | ⟨hf, _⟩ | ⟨hf, _⟩)
    · exact Option.some.inj (hname.symm.trans h)
    all_goals exact absurd hf (hhead _ _)
  · rintro rfl
    exact .name h

theorem not_namesType {f : Form} (hname : f.name? = none) (hhead : ∀ word items, ¬ Headed word f items) {name : Bytes} :
    ¬ NamesType f name := by
  rintro (h | ⟨h, _⟩ | ⟨h, _⟩ | ⟨h, _⟩ | ⟨h, _⟩)
  · simp [SpellsName, hname] at h
  all_goals exact absurd h (hhead _ _)

namespace TypeForm

theorem unary?_wraps {head : Bytes} {wrap : TypeForm → TypeForm} (h : unary? head = some wrap) :
    (∃ make, Wraps wrap make) ∧
      (head = Bytes.ascii "array" ∨ head = Bytes.ascii "map" ∨ head = Bytes.ascii "nullable") := by
  unfold unary? at h
  split_ifs at h with ha hm hn <;> obtain rfl := Option.some.inj h
  · exact ⟨⟨_, .array⟩, .inl ha⟩
  · exact ⟨⟨_, .map⟩, .inr (.inl hm)⟩
  · exact ⟨⟨_, .nullable⟩, .inr (.inr hn)⟩

theorem unary?_eq_none {head : Bytes} (h : unary? head = none) :
    ¬ (head = Bytes.ascii "array" ∨ head = Bytes.ascii "map" ∨ head = Bytes.ascii "nullable") := by
  unfold unary? at h
  split_ifs at h with ha hm hn
  rintro (h | h | h)
  · exact ha h
  · exact hm h
  · exact hn h

theorem cites_apply_iff {pos : Position} {head name : Bytes} {args : List TypeForm} :
    (apply pos head args).Cites name ↔
      (∃ t, args = [t] ∧ t.Cites name ∧
        (head = Bytes.ascii "array" ∨ head = Bytes.ascii "map" ∨ head = Bytes.ascii "nullable")) ∨
      head = Bytes.ascii "union" ∧ ∃ t ∈ args, t.Cites name := by
  unfold apply
  split
  · rename_i wrap hwrap
    obtain ⟨⟨make, hmake⟩, hhead⟩ := unary?_wraps hwrap
    have hunion : head ≠ Bytes.ascii "union" := by rcases hhead with rfl | rfl | rfl <;> decide
    split
    · simp [cites_wrap_iff hmake, hhead, hunion]
    · rename_i hargs
      simp only [not_cites_invalid, hunion, false_and, or_false, false_iff]
      rintro ⟨t, rfl, -⟩
      exact hargs t rfl
  · rename_i hnone
    split
    · rename_i hunion
      rw [cites_union_iff, and_iff_right hunion]
      exact (or_iff_right fun ⟨_, _, _, hhead⟩ => unary?_eq_none hnone hhead).symm
    · rename_i hunion
      simp only [not_cites_invalid, hunion, false_and, or_false, false_iff]
      rintro ⟨_, _, _, hhead⟩
      exact unary?_eq_none hnone hhead

theorem ofForms_eq_map (fs : List Form) : ofForms fs = fs.map ofForm := by
  induction fs with
  | nil => rfl
  | cons f fs ih => rw [ofForms, ih, List.map_cons]

/-- The names in a form are those in the type that it writes. -/
theorem cites_ofForm_iff {name : Bytes} (f : Form) : (ofForm f).Cites name ↔ NamesType f name := by
  refine ofForm.induct (fun f => (ofForm f).Cites name ↔ NamesType f name)
    (fun fs => ∀ f ∈ fs, ((ofForm f).Cites name ↔ NamesType f name)) ?absent ?symbol ?string ?list ?other ?nil ?cons f
  case absent =>
    refine iff_of_false not_cites_absent (not_namesType rfl ?_)
    rintro word items ⟨pos, p, h⟩
    cases h
  case symbol =>
    intro pos other
    rw [namesType_name rfl, ofForm, cites_named_iff]
  case string =>
    intro pos other
    rw [namesType_name rfl, ofForm, cites_named_iff]
  case list =>
    intro pos p head args ih
    rw [ofForm, cites_apply_iff, namesType_list, ofForms_eq_map]
    refine or_congr ?_ (and_congr_right fun _ => ?_)
    · rcases args with _ | ⟨a, _ | ⟨b, args⟩⟩
      · simp
      · simp [ih a]
      · simp
    · simp only [List.mem_map, exists_exists_and_eq_and]
      exact exists_congr fun a => and_congr_right fun ha => ih a ha
  case other =>
    intro f h₁ h₂ h₃ h₄
    have hname : f.name? = none := by
      unfold Edn.Form.name?
      split
      · exact absurd rfl (h₂ _ _)
      · exact absurd rfl (h₃ _ _)
      · rfl
    rw [ofForm.eq_5 f h₁ h₂ h₃ h₄]
    refine iff_of_false not_cites_invalid (not_namesType hname ?_)
    rintro word items ⟨pos, p, rfl⟩
    exact h₄ _ _ _ _ rfl
  case nil => exact fun f hf => absurd hf List.not_mem_nil
  case cons => exact fun f fs ih ihs => List.forall_mem_cons.mpr ⟨ih, ihs⟩

end TypeForm

/-! ## Which declarations count -/

theorem Heads.unique {f : Form} {d d' : Declaration} (h : Heads f d) (h' : Heads f d') : d = d' := by
  obtain ⟨name, kind, pos, sections⟩ := d
  obtain ⟨name', kind', pos', sections'⟩ := d'
  obtain ⟨hentry, hname, hpos⟩ := h
  obtain ⟨hentry', hname', hpos'⟩ := h'
  obtain ⟨hhead, hs⟩ := entry_iff.mp hentry
  obtain ⟨hhead', hs'⟩ := entry_iff.mp hentry'
  obtain rfl : sections = sections' := Except.ok.inj (hs.symm.trans hs')
  obtain rfl : name = name' := hname.unique rightUnique_spellsName hname'
  obtain rfl : kind = kind' := by
    have hword : kind.word = kind'.word := Option.some.inj (hhead.symm.trans hhead')
    exact Option.some.inj ((DeclarationKind.ofWord?_eq_some_iff.mpr rfl).symm.trans
      (DeclarationKind.ofWord?_eq_some_iff.mpr hword))
  obtain rfl : pos = pos' := hpos.trans hpos'.symm
  rfl

theorem Counts.not_primitive {items : List Form} {d : Declaration} (h : Counts items d) :
    Primitive.ofName? d.name = none := by
  induction h with
  | here _ hp => exact hp
  | there _ _ ih => exact ih

theorem readDeclaration_eq_ok_iff_heads {before : List Declaration} {f : Form} (hf : f.Whole) {d : Declaration} :
    readDeclaration before f = .ok d ↔
      Heads f d ∧ Primitive.ofName? d.name = none ∧ ∀ d' ∈ before, d'.name ≠ d.name := by
  rw [readDeclaration_eq_ok_iff hf, Heads, and_assoc, and_assoc]

theorem mem_foldl_declare_iff {items : List Form} (hw : ∀ f ∈ items, f.Whole) {ds : List Declaration} {r : Reading}
    {d : Declaration} :
    d ∈ (items.foldl declare (ds, r)).1 ↔ d ∈ ds ∨ Counts items d ∧ ∀ d' ∈ ds, d'.name ≠ d.name := by
  induction items generalizing ds r with
  | nil =>
    refine (or_iff_left ?_).symm
    rintro ⟨⟨⟩, -⟩
  | cons f items ih =>
    rw [List.forall_mem_cons] at hw
    rw [List.foldl_cons]
    cases hread : readDeclaration ds f with
    | error p =>
      have hdeclare : declare (ds, r) f = (ds, r.report p) := by
        unfold declare
        dsimp only
        rw [if_pos hw.1.isPresent, hread]
      -- a name that is new to `ds` would have been taken up
      have hnot : ∀ d', Heads f d' → Primitive.ofName? d'.name = none → ¬ ∀ e ∈ ds, e.name ≠ d'.name := by
        intro d' hd' hp hnew
        have hok := (readDeclaration_eq_ok_iff_heads hw.1).mpr ⟨hd', hp, hnew⟩
        rw [hread] at hok
        cases hok
      rw [hdeclare, ih hw.2]
      refine or_congr_right (and_congr_left fun hnew => ⟨fun hcounts => .there (fun d' hd' heq => ?_) hcounts, ?_⟩)
      · exact hnot d' hd' (heq ▸ hcounts.not_primitive) (heq ▸ hnew)
      · rintro (⟨hd, hp⟩ | ⟨-, hcounts⟩)
        · exact absurd hnew (hnot d hd hp)
        · exact hcounts
    | ok e =>
      obtain ⟨he, hp, hnew⟩ := (readDeclaration_eq_ok_iff_heads hw.1).mp hread
      rw [declare_of_ok hw.1 hread, ih hw.2]
      simp only [List.mem_append, List.mem_singleton, or_imp, forall_and, forall_eq]
      constructor
      · rintro ((hd | rfl) | ⟨hcounts, hds, hne⟩)
        · exact .inl hd
        · exact .inr ⟨.here he hp, hnew⟩
        · exact .inr ⟨.there (fun d' hd' => he.unique hd' ▸ hne) hcounts, hds⟩
      · rintro (hd | ⟨⟨hd, -⟩ | ⟨hne, hcounts⟩, hds⟩)
        · exact .inl (.inl hd)
        · exact .inl (.inr (hd.unique he))
        · exact .inr ⟨hcounts, hds, hne e he⟩

theorem Declaration.members_unionForm {d : Declaration} (hd : d.sections.Whole) :
    d.unionForm.members =
      ((d.sections.lookup (Bytes.ascii "members")).bind Form.vector?).map (List.map TypeForm.ofForm) := by
  rw [Declaration.unionForm, hd.get?_eq]
  exact congrArg (fun g => Option.map g _) (funext TypeForm.ofForms_eq_map)

namespace Sections

variable {s : Sections} {f : Form} {graph : Graph} {suggests : Bool} {d : Declaration}

theorem mem_declarations_iff (hs : s.Whole) (hentry : Entry (Bytes.ascii "graph") f s) :
    d ∈ (s.declarations graph).1 ↔ DeclaredIn f d := by
  have hin : DeclaredIn f d ↔ ∃ types items, s.lookup (Bytes.ascii "types") = some types ∧
      types.vector? = some items ∧ Counts items d := by
    constructor
    · rintro ⟨s', types, items, hentry', h⟩
      obtain rfl := hentry.unique hentry'
      exact ⟨types, items, h⟩
    · rintro ⟨types, items, h⟩
      exact ⟨s, types, items, hentry, h⟩
  rw [hin]
  unfold declarations
  rw [hs.get?_eq]
  cases htypes : s.lookup (Bytes.ascii "types") with
  | none => simp
  | some types =>
    rw [Option.map_some, Option.getD_some, readDeclarations]
    cases hitems : types.vector? with
    | none => simp [hitems]
    | some items =>
      have hw := (hs.of_lookup htypes).of_vector? hitems
      simp only [mem_foldl_declare_iff hw]
      simp [hitems]

theorem whole_of_mem_declarations (hs : s.Whole) (hentry : Entry (Bytes.ascii "graph") f s)
    (hd : d ∈ (s.declarations graph).1) : d.sections.Whole := by
  obtain ⟨s', types, items, hentry', htypes, hitems, hcounts⟩ := (mem_declarations_iff hs hentry).mp hd
  obtain rfl := hentry.unique hentry'
  have hw := (hs.of_lookup htypes).of_vector? hitems
  clear hitems
  induction hcounts with
  | here hheads _ => exact hheads.1.whole (hw _ List.mem_cons_self)
  | there _ _ ih => exact ih hd fun f hf => hw f (List.mem_cons_of_mem _ hf)

/-- The cycles of a form are those of its scope. -/
theorem namesUnion_iff (hs : s.Whole) (hentry : Entry (Bytes.ascii "graph") f s) (hgraph : graph.WellFormed)
    {a b : Bytes} : NamesUnion f a b ↔ (s.scope suggests graph).Cites a b := by
  have hnodup := (s.declared_declarations hgraph).names
  unfold NamesUnion scope
  constructor
  · rintro ⟨d, d', hd, hkind, rfl, hd', hkind', rfl, v, items, hv, hitems, m, hm, hnames⟩
    rw [← mem_declarations_iff hs hentry] at hd hd'
    refine ⟨d.unionForm, items.map TypeForm.ofForm, lookup_unions_of_mem hnodup hd hkind, ?_,
      ⟨_, List.mem_map_of_mem hm, (TypeForm.cites_ofForm_iff m).mpr hnames⟩, ?_⟩
    · simp [Declaration.members_unionForm (whole_of_mem_declarations hs hentry hd), hv, hitems]
    · rw [lookup_unions_of_mem hnodup hd' hkind']
      rfl
  · rintro ⟨u, ts, hu, hts, ⟨t, ht, hcites⟩, hb⟩
    obtain ⟨u', hu'⟩ := Option.isSome_iff_exists.mp hb
    obtain ⟨d, hd, hkind, rfl, rfl⟩ := mem_of_lookup_unions hu
    obtain ⟨d', hd', hkind', rfl, -⟩ := mem_of_lookup_unions hu'
    rw [Declaration.members_unionForm (whole_of_mem_declarations hs hentry hd)] at hts
    obtain ⟨items, hitems, rfl⟩ := Option.map_eq_some_iff.mp hts
    obtain ⟨v, hv, hitems⟩ := Option.bind_eq_some_iff.mp hitems
    obtain ⟨m, hm, rfl⟩ := List.mem_map.mp ht
    exact ⟨d, d', (mem_declarations_iff hs hentry).mp hd, hkind, rfl, (mem_declarations_iff hs hentry).mp hd', hkind', rfl,
      v, items, hv, hitems, m, hm, (TypeForm.cites_ofForm_iff m).mp hcites⟩

end Sections

end Typewright
