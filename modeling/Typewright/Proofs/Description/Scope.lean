import Typewright.Proofs.Description.Elaboration

/-!
# Declarations and the description they make

* `Declaration.Declares d t` : a declaration that is taken up declares `t`;
* `terms_unionScope` : the unions that types may refer to are those of the description;
* `Sections.comments_eq_iff`, `Sections.declarations_eq` : what is read of the comments and of the heads of the
  declarations.
-/

namespace Typewright

open Edn (Form)
open Relation

/-! ## Lists with different keys -/

theorem lookup_eq_some_of_mem [BEq α] [LawfulBEq α] {l : List (α × β)} (hnodup : (l.map Prod.fst).Nodup) {a : α} {b : β}
    (h : (a, b) ∈ l) : l.lookup a = some b := by
  induction l with
  | nil => simp at h
  | cons p l ih =>
    rw [List.map_cons, List.nodup_cons] at hnodup
    rcases List.mem_cons.mp h with rfl | h
    · simp
    · have hne : a ≠ p.1 := fun heq => hnodup.1 (heq ▸ List.mem_map_of_mem h)
      rw [List.lookup_cons, beq_eq_false_iff_ne.mpr hne, ih hnodup.2 h]

theorem find?_eq_some_of_mem [BEq β] [LawfulBEq β] {f : α → β} {l : List α} (hnodup : (l.map f).Nodup) {a : α}
    (h : a ∈ l) : l.find? (fun b => f b == f a) = some a := by
  induction l with
  | nil => simp at h
  | cons b l ih =>
    rw [List.map_cons, List.nodup_cons] at hnodup
    rcases List.mem_cons.mp h with rfl | h
    · simp
    · have hne : f b ≠ f a := fun heq => hnodup.1 (heq ▸ List.mem_map_of_mem h)
      rw [List.find?_cons_of_neg (by simpa using hne), ih hnodup.2 h]

theorem exists_forall₂ {R : α → β → Prop} {l : List α} (h : ∀ a ∈ l, ∃ b, R a b) : ∃ l', List.Forall₂ R l l' := by
  induction l with
  | nil => exact ⟨[], .nil⟩
  | cons a l ih =>
    obtain ⟨b, hb⟩ := h a (by simp)
    obtain ⟨l', hl'⟩ := ih fun a ha => h a (by simp [ha])
    exact ⟨b :: l', .cons hb hl'⟩

/-! ## The unions of a description -/

namespace Description

variable {d : Description}

theorem unions_of_mem (h : d.names.Nodup) {t : TypeDecl} (ht : t ∈ d.types) :
    d.unions t.name = match t.body with
      | .union members => some members
      | _ => none := by
  unfold unions
  rw [find?_eq_some_of_mem h ht]
  obtain ⟨name, body⟩ := t
  cases body <;> rfl

theorem unions_eq_none {name : Bytes} (h : name ∉ d.names) : d.unions name = none := by
  unfold unions
  rw [List.find?_eq_none.mpr fun t ht => by simpa using fun heq : t.name = name => h (heq ▸ List.mem_map_of_mem ht)]

end Description

/-! ## The scope of some declarations -/

/-- What a declaration declares. -/
structure Declaration.Declares (d : Declaration) (t : TypeDecl) : Prop where
  name : d.name = t.name
  body : SpellsBody d.sections d.kind t.body

theorem forall₂_spellsDecl_iff {items : List Form} {ts : List TypeDecl} :
    List.Forall₂ SpellsDecl items ts ↔ ∃ ds, List.Forall₂ Heads items ds ∧ List.Forall₂ Declaration.Declares ds ts := by
  constructor
  · intro h
    induction h with
    | nil => exact ⟨[], .nil, .nil⟩
    | @cons f t items ts hdecl _ ih =>
      obtain ⟨kind, s, hentry, hname, hbody⟩ := hdecl
      obtain ⟨ds, hheads, hdeclares⟩ := ih
      exact ⟨⟨t.name, kind, f.pos, s⟩ :: ds, .cons ⟨hentry, hname, rfl⟩ hheads, .cons ⟨rfl, hbody⟩ hdeclares⟩
  · rintro ⟨ds, hheads, hdeclares⟩
    induction hheads generalizing ts with
    | nil =>
      cases hdeclares
      exact .nil
    | cons hhead _ ih =>
      cases hdeclares with
      | cons hdeclare hdeclares =>
        refine .cons ⟨_, _, hhead.1, ?_, hdeclare.body⟩ (ih hdeclares)
        rw [← hdeclare.name]
        exact hhead.2.1

theorem map_name_of_declares {ds : List Declaration} {ts : List TypeDecl} (h : List.Forall₂ Declaration.Declares ds ts) :
    ds.map Declaration.name = ts.map TypeDecl.name := by
  induction h with
  | nil => rfl
  | cons hd _ ih => rw [List.map_cons, List.map_cons, ih, hd.name]

theorem mem_ofKind {kind : DeclarationKind} {ds : List Declaration} {d : Declaration} :
    d ∈ ofKind kind ds ↔ d ∈ ds ∧ d.kind = kind := by
  simp [ofKind]

theorem exists_of_mem_ofKind {kind : DeclarationKind} {ds : List Declaration} {ts : List TypeDecl}
    (h : List.Forall₂ Declaration.Declares ds ts) {d : Declaration} (hd : d ∈ ofKind kind ds) :
    ∃ body, ⟨d.name, body⟩ ∈ ts ∧ SpellsBody d.sections kind body := by
  obtain ⟨hmem, rfl⟩ := mem_ofKind.mp hd
  obtain ⟨t, ht, hname, hbody⟩ := exists_of_forall₂_left h hmem
  rw [hname]
  exact ⟨t.body, ht, hbody⟩

section

variable {suggests : Bool} {ds : List Declaration} {d : Declaration}

theorem nodup_ofKind (h : (ds.map Declaration.name).Nodup) (kind : DeclarationKind) :
    ((ofKind kind ds).map Declaration.name).Nodup :=
  h.sublist (List.filter_sublist.map _)

theorem mem_of_lookup_unions {name : Bytes} {u : UnionForm} (h : (unionScope suggests ds).unions.lookup name = some u) :
    ∃ d ∈ ds, d.kind = .union ∧ d.name = name ∧ d.unionForm = u := by
  obtain ⟨l₁, l₂, heq, -⟩ := List.lookup_eq_some_iff.mp h
  have hmem : (name, u) ∈ (unionScope suggests ds).unions := by simp [heq]
  obtain ⟨d, hd, hdu⟩ := List.mem_map.mp hmem
  obtain ⟨rfl, rfl⟩ := Prod.mk.inj hdu
  obtain ⟨hd, hkind⟩ := mem_ofKind.mp hd
  exact ⟨d, hd, hkind, rfl, rfl⟩

theorem lookup_unions_of_mem (hnodup : (ds.map Declaration.name).Nodup) (hd : d ∈ ds) (hkind : d.kind = .union) :
    (unionScope suggests ds).unions.lookup d.name = some d.unionForm := by
  refine lookup_eq_some_of_mem ?_ (List.mem_map.mpr ⟨d, mem_ofKind.mpr ⟨hd, hkind⟩, rfl⟩)
  rw [unionScope, List.map_map]
  exact nodup_ofKind hnodup .union

theorem lookup_unions_eq_none (hnodup : (ds.map Declaration.name).Nodup) (hd : d ∈ ds) (hkind : d.kind ≠ .union) :
    (unionScope suggests ds).unions.lookup d.name = none := by
  cases hu : (unionScope suggests ds).unions.lookup d.name with
  | none => rfl
  | some u =>
    obtain ⟨d', hd', hkind', hname, -⟩ := mem_of_lookup_unions hu
    obtain rfl := List.inj_on_of_nodup_map hnodup hd' hd hname
    exact absurd hkind' hkind

theorem spellsBody_union_iff (hd : d.sections.Whole) {us : List TypeTerm} :
    SpellsBody d.sections .union (.union us) ↔ d.unionForm.members.bind TypeForm.terms? = some us := by
  unfold Declaration.unionForm
  rw [hd.get?_eq]
  constructor
  · rintro (_ | _ | ⟨f, hf, items, hitems, hus⟩)
    simp [hf, hitems, (TypeForm.term?_iff_writesType.2 items us).mpr hus]
  · intro h
    refine .union ?_
    cases hf : d.sections.lookup (Bytes.ascii "members") with
    | none => simp [hf] at h
    | some f =>
      cases hitems : f.vector? with
      | none => simp [hf, hitems] at h
      | some items =>
        have hus : TypeForm.terms? (TypeForm.ofForms items) = some us := by simpa [hf, hitems] using h
        exact ⟨f, hf, items, hitems, (TypeForm.term?_iff_writesType.2 items us).mp hus⟩

theorem whole_unionScope (suggests : Bool) (hw : ∀ d ∈ ds, d.sections.Whole) : (unionScope suggests ds).Whole where
  names name u hu := by
    obtain ⟨d, hd, -, rfl, -⟩ := mem_of_lookup_unions hu
    exact List.mem_map_of_mem hd
  members name u ts hu hts := by
    obtain ⟨d, hd, -, -, rfl⟩ := mem_of_lookup_unions hu
    obtain ⟨items, hitems, rfl⟩ := Option.map_eq_some_iff.mp hts
    obtain ⟨f, hf, hvec⟩ := Option.bind_eq_some_iff.mp hitems
    rw [(hw d hd).get?_eq] at hf
    exact TypeForm.whole_of_whole.2 items (((hw d hd).of_lookup hf).of_vector? hvec)

/-- The unions that types may refer to are those of the description. -/
theorem terms_unionScope (suggests : Bool) (hnodup : (ds.map Declaration.name).Nodup) (hw : ∀ d ∈ ds, d.sections.Whole)
    {desc : Description} (h : List.Forall₂ Declaration.Declares ds desc.types) :
    (unionScope suggests ds).terms = desc.unions := by
  have hnames : ds.map Declaration.name = desc.names := map_name_of_declares h
  funext name
  by_cases hname : name ∈ desc.names
  · obtain ⟨d, hd, rfl⟩ := List.mem_map.mp (hnames ▸ hname)
    obtain ⟨t, ht, hdt⟩ := exists_of_forall₂_left h hd
    rw [hdt.name, Description.unions_of_mem (hnames ▸ hnodup) ht, ← hdt.name, UnionScope.terms]
    have hbody := hdt.body
    obtain ⟨tname, body⟩ := t
    generalize hkind : d.kind = kind at hbody
    cases hbody with
    | record _ =>
      rw [lookup_unions_eq_none hnodup hd (by simp [hkind])]
      rfl
    | enum _ =>
      rw [lookup_unions_eq_none hnodup hd (by simp [hkind])]
      rfl
    | union hus =>
      rw [lookup_unions_of_mem hnodup hd hkind]
      exact (spellsBody_union_iff (hw d hd)).mp (.union hus)
  · rw [Description.unions_eq_none hname]
    cases hu : (unionScope suggests ds).unions.lookup name with
    | none => exact UnionScope.terms_eq_none hu
    | some u =>
      obtain ⟨d, hd, -, rfl, -⟩ := mem_of_lookup_unions hu
      exact absurd (hnames ▸ List.mem_map_of_mem hd) hname

theorem valid_unionScope (suggests : Bool) (hw : ∀ d ∈ ds, d.sections.Whole) {desc : Description}
    (h : List.Forall₂ Declaration.Declares ds desc.types) (hv : desc.Valid) : (unionScope suggests ds).Valid := by
  have hnames : ds.map Declaration.name = desc.names := map_name_of_declares h
  have hterms := terms_unionScope suggests (hnames ▸ hv.nodup_names) hw h
  refine ⟨fun name u hu => ?_, ?_⟩
  · obtain ⟨d, hd, hkind, rfl, rfl⟩ := mem_of_lookup_unions hu
    obtain ⟨body, ht, hbody⟩ := exists_of_mem_ofKind h (mem_ofKind.mpr ⟨hd, hkind⟩)
    cases hbody with
    | @union us _ =>
      have hus : desc.unions d.name = some us := Description.unions_of_mem hv.nodup_names ht
      rw [hterms, show (unionScope suggests ds).names = desc.names from hnames]
      exact ⟨us, hus, hv.terms _ ht, hv.members _ ht us rfl⟩
  · have hneeds : (unionScope suggests ds).Needs = desc.Needs := by
      unfold Description.Needs UnionScope.Needs
      rw [hterms]
    rw [hneeds]
    exact hv.acyclic

end

/-! ## Comments and heads -/

theorem readComments_eq_iff {f : Form} {cs : List Bytes} : readComments f = (cs, []) ↔ VectorOf SpellsText f cs := by
  unfold readComments VectorOf
  cases f.vector? with
  | none => simp
  | some items =>
    simp only [gather_eq_iff, Option.some.injEq, exists_eq_left']
    refine ⟨fun h => h.imp fun c text hc => ?_, fun h => h.imp fun c text hc => ?_⟩
    · split at hc
      · rename_i pos _
        exact ⟨pos, by rw [Except.ok.inj hc]⟩
      · cases hc
    · obtain ⟨pos, rfl⟩ := hc
      rfl

namespace Sections

variable {s : Sections}

theorem comments_eq_iff (hs : s.Whole) {cs : List Bytes} :
    ((s.get? "comments").map readComments).getD ([], []) = (cs, []) ↔
      s.GivesOr "comments" (VectorOf SpellsText) [] cs := by
  unfold GivesOr
  rw [hs.get?_eq]
  cases s.lookup (Bytes.ascii "comments") with
  | none => simp [eq_comm]
  | some f => exact readComments_eq_iff

theorem declarations_eq (hs : s.Whole) {ds : List Declaration} (hds : s.GivesOr "types" (VectorOf Heads) [] ds)
    (hadm : Admissible [] ds) (graph : Graph) :
    s.declarations graph = (ds, ds.foldl Reading.takeUp (s.opening graph)) := by
  unfold GivesOr at hds
  unfold declarations
  rw [hs.get?_eq]
  cases hf : s.lookup (Bytes.ascii "types") with
  | none =>
    rw [hf] at hds
    subst hds
    rfl
  | some f =>
    rw [hf] at hds
    obtain ⟨items, hitems, hheads⟩ := hds
    have heq := foldl_declare_eq ((hs.of_lookup hf).of_vector? hitems) hheads hadm (s.opening graph)
    simpa [readDeclarations, hitems] using heq

theorem exists_of_declarations (hs : s.Whole) {graph : Graph} (hg : graph.WellFormed)
    (hp : (s.declarations graph).2.problems = []) :
    ∃ ds, s.GivesOr "types" (VectorOf Heads) [] ds ∧ Admissible [] ds := by
  unfold declarations at hp
  unfold GivesOr
  rw [hs.get?_eq] at hp
  cases hf : s.lookup (Bytes.ascii "types") with
  | none => exact ⟨[], rfl, by simp, by simp, by simp⟩
  | some f =>
    simp only [hf, Option.map_some, Option.getD_some, readDeclarations] at hp
    cases hitems : f.vector? with
    | none => simp [hitems, Reading.report] at hp
    | some items =>
      rw [hitems] at hp
      obtain ⟨ds, hheads, hadm⟩ := exists_of_foldl_declare ((hs.of_lookup hf).of_vector? hitems) (known_opening hg) hp
      exact ⟨ds, ⟨items, hitems, hheads⟩, hadm⟩

theorem givesOr_types_iff {ts : List TypeDecl} :
    s.GivesOr "types" (VectorOf SpellsDecl) [] ts ↔
      ∃ ds, s.GivesOr "types" (VectorOf Heads) [] ds ∧ List.Forall₂ Declaration.Declares ds ts := by
  unfold GivesOr VectorOf
  cases s.lookup (Bytes.ascii "types") with
  | none => simp
  | some f =>
    simp only [forall₂_spellsDecl_iff]
    constructor
    · rintro ⟨items, hitems, ds, hheads, hds⟩
      exact ⟨ds, ⟨items, hitems, hheads⟩, hds⟩
    · rintro ⟨ds, ⟨items, hitems, hheads⟩, hds⟩
      exact ⟨items, hitems, ds, hheads, hds⟩

theorem whole_of_heads (hs : s.Whole) {ds : List Declaration} (hds : s.GivesOr "types" (VectorOf Heads) [] ds) :
    ∀ d ∈ ds, d.sections.Whole := by
  unfold GivesOr at hds
  cases hf : s.lookup (Bytes.ascii "types") with
  | none =>
    rw [hf] at hds
    simp [hds]
  | some f =>
    rw [hf] at hds
    obtain ⟨items, hitems, hheads⟩ := hds
    intro d hd
    obtain ⟨form, hform, hhead⟩ := exists_of_forall₂_right hheads hd
    exact hhead.1.whole ((hs.of_lookup hf).of_vector? hitems form hform)

end Sections

end Typewright
