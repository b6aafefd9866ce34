import Typewright.Proofs.Module.Binding

/-!
# Annotations that need to be postponed

* `Module.Renders.cases_annotation`, `Module.Renders.exists_annotation` : the annotations of a class mention words that
  are built in or imported and exactly the types that the class depends on;
* `Graph.Built.postpones_iff_unbound_annotation` : annotations are left unevaluated just if one of them mentions a type
  that is not declared before the class.
-/

namespace Typewright

variable {u : CharacterData} {g : Graph} {o : Options} {m : Module} {c d : TypeId}

theorem Module.mem_imports_of_mem_fields {n : Bytes} {fields : List Field} (hb : .record n fields ∈ m.blocks)
    {f : Field} (hf : f ∈ fields) {i : Import} (hi : i ∈ f.type.imports) : i ∈ m.imports := by
  refine List.mem_append_left _ (List.mem_append_left _ (List.mem_flatMap.mpr ⟨_, hb, ?_⟩))
  exact List.mem_flatMap.mpr ⟨f, hf, hi⟩

namespace Module.Renders

/-- What the annotations of a class mention: words that are built in or imported, and the types that the class depends
on. -/
theorem cases_annotation (hu : u.Standard) (h : g.WellFormed) (hm : m.Renders u g o) {k : Nat} {n : Bytes}
    {fields : List Field} (hclass : ClassAt m.lines k n fields) {f : Field} (hf : f ∈ fields) {w : Mention}
    (hw : w ∈ Bytes.mentions f.type.text) :
    ∃ c ∈ g.declared o.declareUnions, (∃ hint ps, g.node? c = some (.record hint ps)) ∧ k = m.declLine (g.rank o c) ∧
      (w.word ∈ Identifier.reserved .global ∧ (w.word ∈ builtinWords ∨ ImportedBefore m.lines w.word k) ∨
        ∃ d ∈ g.declared o.declareUnions, g.Depends o.declareUnions c d ∧
          (NameTable.ofGraph u o g).type d = .ok w.word) := by
  obtain ⟨i, fields', hb, rfl, hfields⟩ := (hm.spelled hu).classAt hclass
  obtain ⟨f', hf', -, htext⟩ := hfields f hf
  obtain ⟨c, hc, hrank, -, hint, ps, hn, -, hwritten⟩ := hm.exists_declared h hb
  obtain ⟨p, hp, hwrites⟩ := exists_of_forall₂_right hwritten hf'
  have hdeclared := (h.mem_blockOrder_iff.mp hc).1
  refine ⟨c, hdeclared, ⟨hint, ps, hn⟩, by rw [hrank], ?_⟩
  rw [← htext, hwrites.mentions_text hu] at hw
  rcases hwrites.sound w hw with ⟨hplain, -⟩ | ⟨d, hshows, hdecl, hname, -⟩
  · refine Or.inl ⟨reserved_of_mem_plainWords hplain, (mem_plainWords_iff.mp hplain).imp_right ?_⟩
    rintro ⟨imported, -, hi, hname⟩
    rw [← hname]
    have hneeded := mem_imports_of_mem_fields (List.mem_of_getElem? hb) hf' hi
    exact importedBefore_of_mem_imports hneeded (getElem?_declarations_block hb)
  · have hchild : p.type ∈ g.children c := by
      rw [Graph.children_of_node? hn]
      exact List.mem_map_of_mem hp
    have hdep : g.Depends o.declareUnions c d := h.mem_dependencies_iff.mpr ⟨⟨p.type, hchild, hshows⟩, hdecl⟩
    exact Or.inr ⟨d, h.mem_declared_of_depends hdeclared hdep, hdep, hname⟩

/-- A class stands at its place, with its properties as fields. -/
theorem exists_classAt (hu : u.Standard) (h : g.WellFormed) (hm : m.Renders u g o) (hc : c ∈ g.declared o.declareUnions)
    {hint : Bytes} {ps : List Property} (hn : g.node? c = some (.record hint ps)) :
    ∃ name fields, (NameTable.ofGraph u o g).type c = .ok name ∧ ClassAt m.lines (m.declLine (g.rank o c)) name fields ∧
      fields.map Field.name = propertyNames u o ps ∧
      List.Forall₂ (fun p (f : Field) => (g.context u o false []).Writes g p.type f.type) ps fields := by
  have hblock : g.isUnionAt c = false := Graph.isUnionAt_of_node? hn
  obtain ⟨b, hb, hdecl⟩ := hm.exists_block (h.mem_blockOrder_iff.mpr ⟨hc, hblock⟩)
  cases b with
  | record name fields =>
    obtain ⟨hname, hint', ps', hn', hnames, hfields⟩ := hdecl
    rw [hn] at hn'
    cases hn'
    exact ⟨name, fields, hname, Module.classAt_of_getElem? (hm.spelled hu) hb, hnames, hfields⟩
  | enum name cases =>
    obtain ⟨-, hint', cs, hn', -⟩ := hdecl
    rw [hn] at hn'
    cases hn'

/-- The annotations of a class mention every type that the class depends on. -/
theorem exists_annotation (hu : u.Standard) (h : g.WellFormed) (hc : c ∈ g.declared o.declareUnions) {hint : Bytes}
    {ps : List Property} (hn : g.node? c = some (.record hint ps)) {fields : List Field}
    (hfields : List.Forall₂ (fun p (f : Field) => (g.context u o false []).Writes g p.type f.type) ps fields)
    (hd : g.Depends o.declareUnions c d) :
    ∃ f ∈ fields, ∃ w ∈ Bytes.mentions f.type.text, (NameTable.ofGraph u o g).type d = .ok w.word := by
  obtain ⟨⟨t, ht, hshows⟩, -⟩ := h.mem_dependencies_iff.mp hd
  rw [Graph.children_of_node? hn] at ht
  obtain ⟨p, hp, rfl⟩ := List.mem_map.mp ht
  obtain ⟨f, hf, hwrites⟩ := exists_of_forall₂_left hfields hp
  exact ⟨f, hf, hwrites.exists_mention hu h (h.mem_declared_of_depends hc hd) hshows⟩

end Module.Renders

namespace Graph

/-- **Annotations are left unevaluated just if they have to be.** The header says so if and only if some class has an
annotation that mentions a declared type whose declaration is not complete where the class starts. If it does not say
so, then every word in the annotations of fields and of constructors is built in, imported, or the name of a declared
type that is bound. Every declared class can be read in the lines, with its properties as fields. -/
theorem Built.postpones_iff_unbound_annotation (hu : u.Standard) (hg : g.Built) (o : Options) (hnone : ¬ g.NoneReachable) :
    let names := NameTable.ofGraph u o g
    ∃ lines, (g.render u o).result = .ok lines ∧
      (PostponesAnnotations lines ↔ ∃ k name fields, ClassAt lines k name fields ∧ ∃ f ∈ fields,
        ∃ w ∈ Bytes.mentions f.type.text, (∃ id ∈ g.declared o.declareUnions, names.type id = .ok w.word) ∧
          ¬ BoundBefore lines w.word k) ∧
      (¬ PostponesAnnotations lines → ∀ k name fields, ClassAt lines k name fields → ∀ f ∈ fields,
        ∀ w ∈ Bytes.mentions f.type.text, w.word ∈ builtinWords ∨ ImportedBefore lines w.word k ∨
          (∃ id ∈ g.declared o.declareUnions, names.type id = .ok w.word) ∧ BoundBefore lines w.word k) ∧
      ∀ id ∈ g.declared o.declareUnions, ∀ hint ps, g.node? id = some (.record hint ps) →
        ∃ k name fields, names.type id = .ok name ∧ ClassAt lines k name fields ∧
          fields.map Field.name = propertyNames u o ps := by
  intro names
  have h := hg.wellFormed
  obtain ⟨m, hm, hresult⟩ := h.exists_module u o hnone
  have hpostponed : PostponesAnnotations m.lines ↔ ∃ c ∈ g.declared o.declareUnions,
      (∃ hint ps, g.node? c = some (.record hint ps)) ∧
      ∃ d, g.Depends o.declareUnions c d ∧ g.rank o c ≤ g.rank o d := by
    rw [(hm.spelled hu).postponesAnnotations_iff, hm.postponed, h.needsPostponed_iff]
  have hunbound : ∀ {c d : TypeId} {word : Bytes}, c ∈ g.declared o.declareUnions →
      (∃ hint ps, g.node? c = some (.record hint ps)) → g.Depends o.declareUnions c d → names.type d = .ok word →
      ¬ BoundBefore m.lines word (m.declLine (g.rank o c)) → PostponesAnnotations m.lines := by
    intro c d word hc hrecord hdep hname hbound
    rw [hm.boundBefore_iff hu h (h.mem_declared_of_depends hc hdep) hname hc, Nat.not_lt] at hbound
    exact hpostponed.mpr ⟨c, hc, hrecord, d, hdep, hbound⟩
  refine ⟨m.lines, hresult, ⟨fun hpost => ?_, ?_⟩, fun hpost k name fields hclass f hf w hw => ?_, ?_⟩
  · obtain ⟨c, hc, ⟨hint, ps, hn⟩, d, hdep, hrank⟩ := hpostponed.mp hpost
    obtain ⟨name, fields, -, hclass, -, hfields⟩ := hm.exists_classAt hu h hc hn
    obtain ⟨f, hf, w, hw, hname⟩ := Module.Renders.exists_annotation hu h hc hn hfields hdep
    have hd := h.mem_declared_of_depends hc hdep
    refine ⟨_, name, fields, hclass, f, hf, w, hw, ⟨d, hd, hname⟩, ?_⟩
    rwa [hm.boundBefore_iff hu h hd hname hc, Nat.not_lt]
  · rintro ⟨k, name, fields, hclass, f, hf, w, hw, ⟨id, -, hname⟩, hbound⟩
    obtain ⟨c, hc, hrecord, rfl, ⟨hreserved, -⟩ | ⟨d, -, hdep, hname'⟩⟩ := hm.cases_annotation hu h hclass hf hw
    · exact absurd hreserved (NameTable.not_reserved_of_type hname)
    · exact hunbound hc hrecord hdep hname' hbound
  · obtain ⟨c, hc, hrecord, rfl, ⟨-, hplain⟩ | ⟨d, hd, hdep, hname⟩⟩ := hm.cases_annotation hu h hclass hf hw
    · exact hplain.imp_right Or.inl
    · exact Or.inr (Or.inr ⟨⟨d, hd, hname⟩, by_contra fun hbound => hpost (hunbound hc hrecord hdep hname hbound)⟩)
  · intro id hid hint ps hn
    obtain ⟨name, fields, hname, hclass, hnames, -⟩ := hm.exists_classAt hu h hid hn
    exact ⟨_, name, fields, hname, hclass, hnames⟩

/-- The class of the knot has an annotation that its first union binds only later. -/
theorem knot_postpones_annotations :
    knot.Built ∧ ¬ knot.NoneReachable ∧ ∃ lines, (knot.render .ascii ⟨true, false, []⟩).result = .ok lines ∧
      PostponesAnnotations lines ∧ ∃ k name fields, ClassAt lines k name fields ∧ ∃ f ∈ fields,
        ∃ w ∈ Bytes.mentions f.type.text, ¬ BoundBefore lines w.word k := by
  have hu := CharacterData.standard_ascii
  have hpostponed : needsPostponed knot (knot.orderedFor ⟨true, false, []⟩) true = true := by cbv
  obtain ⟨m, hm, hresult⟩ := built_knot.wellFormed.exists_module .ascii ⟨true, false, []⟩ not_noneReachable_knot
  obtain ⟨lines, hlines, hiff, -⟩ :=
    built_knot.postpones_iff_unbound_annotation hu ⟨true, false, []⟩ not_noneReachable_knot
  cases hresult.symm.trans hlines
  have hpost : PostponesAnnotations m.lines := (hm.spelled hu).postponesAnnotations_iff.mpr (hm.postponed.trans hpostponed)
  obtain ⟨k, name, fields, hclass, f, hf, w, hw, -, hbound⟩ := hiff.mp hpost
  exact ⟨built_knot, not_noneReachable_knot, m.lines, hresult, hpost, k, name, fields, hclass, f, hf, w, hw, hbound⟩

end Graph

end Typewright
