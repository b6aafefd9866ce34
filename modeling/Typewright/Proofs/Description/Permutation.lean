import Typewright.Proofs.Description.Isomorphism
import Typewright.Proofs.Module.Renaming

/-!
# The order of the declarations

* `Form.Reorders f f'` : two forms differ by the order of their declarations only;
* `Description.Valid.reordered` : a description stays valid in another order;
* `readForm_ignores_declaration_order` : the order of the declarations has no influence on what is accepted or rendered.
-/

namespace Typewright

open Edn (Form)

/-! ## Other orders -/

/-- The items behind the head of a form, with the first vector of declarations in another order. -/
inductive ReordersTypes : List Form → List Form → Prop where
  | here {p pos : Position} {types types' rest : List Form} : types.Perm types' →
    ReordersTypes (.atom p (.keyword (Bytes.ascii "types")) :: .seq pos .square types :: rest)
      (.atom p (.keyword (Bytes.ascii "types")) :: .seq pos .square types' :: rest)
  | later {key value : Form} {rest rest' : List Form} : (∀ p, key ≠ .atom p (.keyword (Bytes.ascii "types"))) →
    ReordersTypes rest rest' → ReordersTypes (key :: value :: rest) (key :: value :: rest')

/-- Two forms differ by the order of their declarations. -/
inductive Edn.Form.Reorders : Form → Form → Prop where
  | intro {pos : Position} {head : Form} {items items' : List Form} : ReordersTypes items items' →
    Reorders (.seq pos .round (head :: items)) (.seq pos .round (head :: items'))

/-- Sections that differ by the order of the declarations. -/
structure Sections.Reorders (s s' : Sections) : Prop where
  other : ∀ key ≠ Bytes.ascii "types", s'.lookup key = s.lookup key
  types : ∃ f l f' l', s.lookup (Bytes.ascii "types") = some f ∧ f.vector? = some l ∧
    s'.lookup (Bytes.ascii "types") = some f' ∧ f'.vector? = some l' ∧ l.Perm l'

/-- Descriptions that differ by the order of the declarations. -/
structure Description.Reorders (d d' : Description) : Prop where
  comments : d'.comments = d.comments
  types : d'.types.Perm d.types
  tops : d'.tops = d.tops

theorem ReordersTypes.symm {items items' : List Form} (h : ReordersTypes items items') : ReordersTypes items' items := by
  induction h with
  | here h => exact .here h.symm
  | later hkey _ ih => exact .later hkey ih

theorem Edn.Form.Reorders.symm {f f' : Form} (h : f.Reorders f') : f'.Reorders f := by
  cases h with
  | intro h => exact .intro h.symm

theorem ReordersTypes.whole {items items' : List Form} (h : ReordersTypes items items') (hw : ∀ f ∈ items, f.Whole) :
    ∀ f ∈ items', f.Whole := by
  induction h with
  | here h =>
    simp only [List.mem_cons, forall_eq_or_imp] at hw ⊢
    exact ⟨hw.1, .seq _ _ fun f hf => hw.2.1.items f (h.mem_iff.mpr hf), hw.2.2⟩
  | later _ _ ih =>
    simp only [List.mem_cons, forall_eq_or_imp] at hw ⊢
    exact ⟨hw.1, hw.2.1, ih hw.2.2⟩

theorem Edn.Form.Reorders.whole {f f' : Form} (h : f.Reorders f') (hf : f.Whole) : f'.Whole := by
  cases h with
  | intro h =>
    have hw := hf.items
    simp only [List.mem_cons, forall_eq_or_imp] at hw
    refine .seq _ _ fun f hf => ?_
    rcases List.mem_cons.mp hf with rfl | hf
    · exact hw.1
    · exact h.whole hw.2 f hf

theorem ReordersTypes.exists_pairs {items items' : List Form} (h : ReordersTypes items items') {s : Sections}
    (hs : Pairs items s) : ∃ s', Pairs items' s' ∧ s.Reorders s' := by
  induction h generalizing s with
  | here h =>
    cases hs with
    | cons hs =>
      refine ⟨_, .cons hs, fun key hkey => ?_, _, _, _, _, List.lookup_cons_self, rfl, List.lookup_cons_self, rfl, h⟩
      rw [List.lookup_cons, List.lookup_cons, beq_eq_false_iff_ne.mpr hkey]
  | later hkey _ ih =>
    cases hs with
    | @cons p k value _ _ hs =>
      obtain ⟨s', hs', hother, f, l, f', l', hf, hl, hf', hl', hperm⟩ := ih hs
      have hk : (Bytes.ascii "types" == k) = false := by
        rw [beq_eq_false_iff_ne]
        rintro rfl
        exact hkey p rfl
      refine ⟨_, .cons hs', fun other hne => ?_, f, l, f', l', ?_, hl, ?_, hl', hperm⟩
      · rw [List.lookup_cons, List.lookup_cons, hother other hne]
      · rw [List.lookup_cons, hk, hf]
      · rw [List.lookup_cons, hk, hf']

theorem Edn.Form.Reorders.exists_entry {f f' : Form} (h : f.Reorders f') {word : Bytes} {s : Sections}
    (hs : Entry word f s) : ∃ s', Entry word f' s' ∧ s.Reorders s' := by
  cases h with
  | @intro pos head items items' h =>
    obtain ⟨_, ⟨_, p, heq⟩, hs⟩ := hs
    obtain ⟨-, -, heq⟩ := Edn.Form.seq.inj heq
    obtain ⟨rfl, rfl⟩ := List.cons.inj heq
    obtain ⟨s', hs', hre⟩ := h.exists_pairs hs
    exact ⟨s', ⟨items', ⟨pos, p, rfl⟩, hs'⟩, hre⟩

/-! ## What is spelled in another order -/

theorem Sections.Reorders.givesOr {s s' : Sections} (h : s.Reorders s') {key : String}
    (hkey : Bytes.ascii key ≠ Bytes.ascii "types") {R : Form → α → Prop} {default a : α} (ha : s.GivesOr key R default a) :
    s'.GivesOr key R default a := by
  unfold GivesOr at ha ⊢
  rw [h.other _ hkey]
  exact ha

/-- A form in another order spells the description in another order. -/
theorem Edn.Form.Reorders.exists_spells {f f' : Form} (h : f.Reorders f') {d : Description} (hd : Spells f d) :
    ∃ d', Spells f' d' ∧ d.Reorders d' := by
  obtain ⟨s, hs, hcomments, htypes, htops⟩ := hd
  obtain ⟨s', hs', hre⟩ := h.exists_entry hs
  obtain ⟨v, l, v', l', hv, hl, hv', hl', hperm⟩ := hre.types
  unfold Sections.GivesOr at htypes
  rw [hv] at htypes
  obtain ⟨_, hl₂, hts⟩ := htypes
  obtain rfl := Option.some.inj (hl.symm.trans hl₂)
  obtain ⟨ts', hts', hperm'⟩ := List.perm_comp_forall₂ hperm.symm hts
  have htypes' : s'.GivesOr "types" (VectorOf SpellsDecl) [] ts' := by
    unfold Sections.GivesOr
    rw [hv']
    exact ⟨l', hl', hts'⟩
  exact ⟨⟨d.comments, ts', d.tops⟩, ⟨s', hs', hre.givesOr (by decide) hcomments, htypes', hre.givesOr (by decide) htops⟩,
    rfl, hperm', rfl⟩

theorem TypeTerm.Valid.mono {names names' : List Bytes} {unions : Bytes → Option (List TypeTerm)} {t : TypeTerm}
    (h : t.Valid names unions) (hnames : ∀ name ∈ names, name ∈ names') : t.Valid names' unions := by
  induction h with
  | primitive p => exact .primitive p
  | declared hname => exact .declared (hnames _ hname)
  | array _ ih => exact .array ih
  | map _ ih => exact .map ih
  | nullable _ ih => exact .nullable ih
  | union _ h₂ ih => exact .union ih h₂

namespace Description

variable {d d' : Description}

theorem Reorders.mem_names (h : d.Reorders d') {name : Bytes} : name ∈ d'.names ↔ name ∈ d.names :=
  (h.types.map TypeDecl.name).mem_iff

theorem Reorders.nodup_names (h : d.Reorders d') (hnodup : d.names.Nodup) : d'.names.Nodup :=
  (h.types.map TypeDecl.name).nodup_iff.mpr hnodup

theorem Reorders.unions_eq (h : d.Reorders d') (hnodup : d.names.Nodup) : d'.unions = d.unions := by
  funext name
  by_cases hname : name ∈ d.names
  · obtain ⟨t, ht, rfl⟩ := List.mem_map.mp hname
    rw [unions_of_mem hnodup ht, unions_of_mem (h.nodup_names hnodup) (h.types.mem_iff.mpr ht)]
  · rw [unions_eq_none hname, unions_eq_none fun hmem => hname (h.mem_names.mp hmem)]

/-- A description stays valid in another order. -/
theorem Valid.reordered (hv : d.Valid) (h : d.Reorders d') : d'.Valid := by
  have hunions := h.unions_eq hv.nodup_names
  have hterm : ∀ t : TypeTerm, t.Valid d.names d.unions → t.Valid d'.names d'.unions := by
    rw [hunions]
    exact fun t ht => ht.mono fun name hname => h.mem_names.mpr hname
  refine ⟨h.nodup_names hv.nodup_names, fun name hname => hv.not_primitive name (h.mem_names.mp hname),
    fun t ht => hv.nodup_properties t (h.types.mem_iff.mp ht),
    fun t ht u hu => hterm u (hv.terms t (h.types.mem_iff.mp ht) u hu), fun t ht us hus => ?_, ?_, fun t ht => ?_⟩
  · rw [hunions]
    exact hv.members t (h.types.mem_iff.mp ht) us hus
  · have hneeds : d'.Needs = d.Needs := by
      unfold Needs
      rw [hunions]
    rw [hneeds]
    exact hv.acyclic
  · rw [h.tops] at ht
    exact hterm t.type (hv.tops t ht)

theorem Reorders.agrees (h : d.Reorders d') (hnodup : d.names.Nodup) : d.Agrees d' :=
  ⟨h.unions_eq hnodup, fun _ ht => h.types.mem_iff.mpr ht, h.tops⟩

end Description

/-! ## Reading and rendering -/

theorem Edn.Form.Reorders.readForm_passes {f f' : Form} (h : f.Reorders f') (hf : f.Whole) {suggests : Bool}
    (hp : (readForm suggests Graph.empty f).problems = []) : (readForm suggests Graph.empty f').problems = [] := by
  obtain ⟨d, hd, hv, -⟩ := exists_elaborates_of_readForm hf hp
  obtain ⟨d', hd', hre⟩ := h.exists_spells hd
  exact Typewright.readForm_passes (h.whole hf) suggests hd' (hv.reordered hre)

theorem Edn.Form.Reorders.comments_readForm {f f' : Form} (h : f.Reorders f') (suggests : Bool) (graph : Graph) :
    (readForm suggests graph f').comments = (readForm suggests graph f).comments := by
  by_cases hentry : ∃ s, Entry (Bytes.ascii "graph") f s
  · obtain ⟨s, hs⟩ := hentry
    obtain ⟨s', hs', hre⟩ := h.exists_entry hs
    have hget : s'.get? "comments" = s.get? "comments" := by
      unfold Sections.get?
      rw [hre.other _ (by decide)]
    rw [readForm_of_entry hs, readForm_of_entry hs']
    unfold Reader.readSections
    rw [hget]
  · have hentry' : ¬ ∃ s, Entry (Bytes.ascii "graph") f' s := by
      rintro ⟨s', hs'⟩
      obtain ⟨s, hs, -⟩ := h.symm.exists_entry hs'
      exact hentry ⟨s, hs⟩
    obtain ⟨p, hp⟩ := readForm_of_not_entry hentry suggests graph
    obtain ⟨p', hp'⟩ := readForm_of_not_entry hentry' suggests graph
    rw [hp, hp']

/-- The graphs that are read are equal on the types that can be reached, up to their numbers. -/
theorem Edn.Form.Reorders.exists_renames {f f' : Form} (h : f.Reorders f') (hf : f.Whole) {suggests : Bool}
    (hp : (readForm suggests Graph.empty f).problems = []) :
    ∃ ρ, Graph.Renames ρ (readForm suggests Graph.empty f).graph (readForm suggests Graph.empty f').graph := by
  obtain ⟨d, hd, hv, sc, ks, r, hr, helab⟩ := exists_elaborates_of_readForm hf hp
  obtain ⟨d', hd', hre⟩ := h.exists_spells hd
  obtain ⟨d'', hd'', -, sc', ks', r', hr', helab'⟩ := exists_elaborates_of_readForm (h.whole hf) (h.readForm_passes hf hp)
  obtain rfl := rightUnique_spells hd'' hd'
  rw [← hr, ← hr']
  exact helab.exists_renames helab' (hre.agrees hv.nodup_names)

/-- **The order of the declarations does not matter.** Forms that differ by it are accepted or not alike, have the same
comments, and are rendered alike. -/
theorem readForm_ignores_declaration_order {source : Bytes} {f f' : Form} (h : Edn.parse source = .ok f)
    (hre : f.Reorders f') (suggests : Bool) :
    (readForm suggests Graph.empty f').report.success = (readForm suggests Graph.empty f).report.success ∧
      (readForm suggests Graph.empty f').comments = (readForm suggests Graph.empty f).comments ∧
      ((readForm suggests Graph.empty f).report.success = true → ∀ (u : CharacterData) (o : Options),
        ((readForm suggests Graph.empty f').graph.render u o).result =
          ((readForm suggests Graph.empty f).graph.render u o).result) := by
  have hf := Edn.whole_of_parse h
  refine ⟨Bool.eq_iff_iff.mpr ⟨fun hs => ?_, fun hs => ?_⟩, hre.comments_readForm suggests _, fun hs u o => ?_⟩
  · exact accepted_iff.mpr (hre.symm.readForm_passes (hre.whole hf) (accepted_iff.mp hs))
  · exact accepted_iff.mpr (hre.readForm_passes hf (accepted_iff.mp hs))
  · obtain ⟨ρ, hρ⟩ := hre.exists_renames hf (accepted_iff.mp hs)
    have hbuilt : ∀ f, (readForm suggests Graph.empty f).graph.Built :=
      fun f => (growsTo_readForm suggests Graph.wellFormed_empty f).built
    exact (hbuilt f).wellFormed.render_eq_of_renames (hbuilt f').wellFormed hρ u o

/-- The class may stand before the union. -/
theorem chain_in_either_order :
    Edn.parse chainSource = .ok (chainForm [chainUnion, chainClass]) ∧
      (chainForm [chainUnion, chainClass]).Reorders (chainForm [chainClass, chainUnion]) ∧
      (readForm false Graph.empty (chainForm [chainClass, chainUnion])).report.success = true ∧
      ((readForm false Graph.empty (chainForm [chainClass, chainUnion])).graph.render .ascii
          ⟨true, false, []⟩).result =
        ((readForm false Graph.empty (chainForm [chainUnion, chainClass])).graph.render .ascii
          ⟨true, false, []⟩).result := by
  have hre : (chainForm [chainUnion, chainClass]).Reorders (chainForm [chainClass, chainUnion]) :=
    .intro (.here (List.Perm.swap _ _ _))
  have hs : (readForm false Graph.empty (chainForm [chainUnion, chainClass])).report.success = true :=
    accepted_iff.mpr (readForm_passes (Edn.whole_of_parse parse_chainSource) false spells_chain valid_chain)
  obtain ⟨hsuccess, -, hrender⟩ := readForm_ignores_declaration_order parse_chainSource hre false
  exact ⟨parse_chainSource, hre, hsuccess.trans hs, hrender hs _ _⟩

end Typewright
