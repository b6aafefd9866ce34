import Typewright.Proofs.Description.Denotation
import Typewright.Proofs.Graph.Reach

/-!
# Warnings about declarations that cannot be reached

* `Diagnostic.TellsUnreachable w t` : the warning `w` says that the declaration `t` cannot be reached;
* `mem_unreachable_iff` : which declarations are warned of;
* `readForm_warns_of_undeclared` : in an accepted description these are the ones that are not among the types to
  declare.
-/

namespace Typewright

open Edn (Form)

def TypeBody.kind : TypeBody → DeclarationKind
  | .record _ => .record
  | .enum _ => .enum
  | .union _ => .union

theorem SpellsBody.kind_eq {s : Sections} {kind : DeclarationKind} {body : TypeBody} (h : SpellsBody s kind body) :
    body.kind = kind := by
  cases h <;> rfl

/-! ## What a warning tells -/

/-- A warning says that a declaration cannot be reached. -/
def Diagnostic.TellsUnreachable (w : Diagnostic) (t : TypeDecl) : Prop :=
  w.code = Bytes.ascii "W2100" ∧
    w.message = t.body.kind.word ++ Bytes.ascii " " ++ Bytes.named t.name ++
      Bytes.ascii " is not reachable from any top-level"

instance (w : Diagnostic) (t : TypeDecl) : Decidable (w.TellsUnreachable t) :=
  inferInstanceAs (Decidable (_ ∧ _))

theorem DeclarationKind.word_append_inj {k k' : DeclarationKind} {s s' : Bytes} (h : k.word ++ s = k'.word ++ s') :
    k = k' ∧ s = s' := by
  -- the words start with different letters
  have hhead : (k.word ++ s).head? = (k'.word ++ s').head? := congrArg List.head? h
  obtain rfl : k = k' := by
    cases k <;> cases k' <;> first | rfl | exact absurd hhead (by simp [word, Bytes.ascii])
  exact ⟨rfl, List.append_cancel_left h⟩

theorem Bytes.named_inj {s s' : Bytes} : Bytes.named s = Bytes.named s' ↔ s = s' := by
  simp [Bytes.named]

/-- A warning tells of a declaration just if it was made for its kind and name. -/
theorem Warning.tellsUnreachable_iff {w : Warning} {t : TypeDecl} :
    w.diagnostic.TellsUnreachable t ↔ w.caution = .unreachable t.body.kind t.name := by
  obtain ⟨caution, pos⟩ := w
  cases caution with
  | unknownSection key =>
    refine iff_of_false (fun h => ?_) (by rintro ⟨⟩)
    exact absurd (show Bytes.ascii "W2101" = Bytes.ascii "W2100" from h.1) (by decide)
  | noTopLevels =>
    refine iff_of_false (fun h => ?_) (by rintro ⟨⟩)
    exact absurd (show Bytes.ascii "W2102" = Bytes.ascii "W2100" from h.1) (by decide)
  | unreachable kind name =>
    rw [Caution.unreachable.injEq]
    constructor
    · rintro ⟨-, hmessage⟩
      simp only [Warning.diagnostic, List.append_assoc] at hmessage
      obtain ⟨hkind, hrest⟩ := DeclarationKind.word_append_inj hmessage
      exact ⟨hkind, Bytes.named_inj.mp (List.append_cancel_right (List.append_cancel_left hrest))⟩
    · rintro ⟨rfl, rfl⟩
      exact ⟨rfl, rfl⟩

/-! ## Which declarations are warned of -/

/-- A declaration has a type that no top-level leads to. -/
def Reading.Misses (r : Reading) (d : Declaration) : Prop :=
  ∃ id, r.built.lookup d.name = some (some id) ∧ id ∉ r.graph.marked

theorem mem_unreachable_iff {ds : List Declaration} {r : Reading} {w : Warning} :
    w ∈ unreachable ds r ↔ ∃ d ∈ ds, r.Misses d ∧ ⟨.unreachable d.kind d.name, d.pos⟩ = w := by
  simp only [unreachable, List.mem_map, List.mem_filter, and_assoc]
  refine exists_congr fun d => and_congr_right fun _ => and_congr_left fun _ => ?_
  unfold Reading.Misses
  split
  · rename_i id hid
    simp [hid]
  · rename_i hnone
    simpa using fun id hid => absurd hid (hnone id)

/-- Of one declaration there is at most one warning. -/
theorem countP_unreachable_le {ds : List Declaration} (hnodup : (ds.map Declaration.name).Nodup) (r : Reading)
    (t : TypeDecl) : (unreachable ds r).countP (fun w => w.diagnostic.TellsUnreachable t) ≤ 1 := by
  calc (unreachable ds r).countP (fun w => w.diagnostic.TellsUnreachable t)
    _ ≤ (ds.map fun d => (⟨.unreachable d.kind d.name, d.pos⟩ : Warning)).countP
        (fun w => w.diagnostic.TellsUnreachable t) := (List.filter_sublist.map _).countP_le
    _ ≤ (ds.map Declaration.name).count t.name := by
      rw [List.countP_map, List.count, List.countP_map]
      refine List.countP_mono_left fun d _ hd => ?_
      have hcaution := Warning.tellsUnreachable_iff.mp (of_decide_eq_true hd)
      exact beq_iff_eq.mpr (Caution.unreachable.inj hcaution).2
    _ ≤ 1 := List.nodup_iff_count_le_one.mp hnodup t.name

/-- Before the declarations come warnings about the sections. -/
theorem Sections.exists_warnings_eq (s : Sections) {suggests : Bool} {graph : Graph} (pos : Position)
    (hs : (s.withTops suggests graph).success = true) :
    ∃ ws, (∀ w ∈ ws, w.diagnostic.code ≠ Bytes.ascii "W2100") ∧
      (Reader.new.readSections suggests graph pos s).1.warnings =
        ws ++ unreachable (s.declarations graph).1 (s.withTops suggests graph) := by
  refine ⟨unknownSections s ++ if (s.get? "top-levels").isNone then [⟨.noTopLevels, pos⟩] else [], ?_, ?_⟩
  · intro w hw
    rcases List.mem_append.mp hw with hw | hw
    · obtain ⟨p, -, rfl⟩ := List.mem_map.mp hw
      exact show Bytes.ascii "W2101" ≠ Bytes.ascii "W2100" by decide
    · split at hw
      · obtain rfl := List.mem_singleton.mp hw
        exact show Bytes.ascii "W2102" ≠ Bytes.ascii "W2100" by decide
      · cases hw
  · unfold Reader.readSections
    dsimp only
    exact congrArg _ (if_pos hs)

/-- The declarations of a valid description are those that are taken up. -/
theorem Sections.forall₂_declares {s : Sections} (hs : s.Whole) {d : Description} (hv : d.Valid)
    (htypes : s.GivesOr "types" (VectorOf SpellsDecl) [] d.types) (graph : Graph) :
    List.Forall₂ Declaration.Declares (s.declarations graph).1 d.types := by
  obtain ⟨ds, hds, hdeclares⟩ := givesOr_types_iff.mp htypes
  have hnames : ds.map Declaration.name = d.names := map_name_of_declares hdeclares
  have hadm : Admissible [] ds := ⟨fun d hd => hv.not_primitive _ (hnames ▸ List.mem_map_of_mem hd),
    hnames ▸ hv.nodup_names, by simp⟩
  rwa [declarations_eq hs hds hadm]

/-! ## What is rendered of a description -/

/-- Classes and enums are declared whatever becomes of unions. -/
theorem RealizesDecl.isDeclared {g : Graph} {names : List Bytes} {decl : Bytes → TypeId} {t : TypeDecl}
    (h : RealizesDecl g names decl t) (hkind : t.body.kind ≠ .union) (b : Bool) :
    g.isDeclared b (decl t.name) = true := by
  rw [Graph.isDeclared_iff]
  cases h with
  | record hn _ => exact .inl ⟨_, _, hn⟩
  | enum hn => exact .inr (.inl ⟨_, _, hn⟩)
  | union _ _ => exact absurd rfl hkind

/-- A union is declared, unless it is one type and `null`. -/
theorem Elaborates.isDeclared_union {d : Description} {sc : UnionScope} {ks : List TypeKey} {r : Reading}
    (h : Elaborates d sc ks r) {names : List Bytes} {decl : Bytes → TypeId} {t : TypeDecl}
    (ht : RealizesDecl r.graph names decl t) (hkind : t.body.kind = .union)
    (hnull : ¬ r.graph.AllowsNull (decl t.name)) : r.graph.isDeclared true (decl t.name) = true := by
  rw [Graph.isDeclared_iff]
  cases ht with
  | record _ _ => cases hkind
  | enum _ => cases hkind
  | @union _ hint _ ids _ hn =>
    refine .inr (.inr ⟨rfl, ⟨_, _, hn⟩, Option.not_isSome_iff_eq_none.mp fun hsome => hnull (.inr ?_)⟩)
    obtain ⟨a, b, hab, hor⟩ := (h.tracks.isSome_nullableInner?_union hn).mp hsome
    exact ⟨hint, a, b, hab ▸ hn, hor⟩

/-- A declaration is warned of just if its type cannot be reached. -/
theorem Elaborates.exists_warning_iff {d : Description} {sc : UnionScope} {ks : List TypeKey} {r : Reading}
    (h : Elaborates d sc ks r) {ds : List Declaration} (hds : List.Forall₂ Declaration.Declares ds d.types)
    {t : TypeDecl} (ht : t ∈ d.types) {id : TypeId} (hid : ks[id]? = some (.declared t.name)) :
    (∃ w ∈ unreachable ds r, w.diagnostic.TellsUnreachable t) ↔ ¬ r.graph.Reached id := by
  rw [← h.tracks.known.wellFormed.mem_marked_iff]
  have hbuilt := (h.tracks.built t.name id).mpr hid
  constructor
  · rintro ⟨w, hw, htells⟩
    obtain ⟨d', -, ⟨id', hid', hnot⟩, rfl⟩ := mem_unreachable_iff.mp hw
    have hname : d'.name = t.name := (Caution.unreachable.inj (Warning.tellsUnreachable_iff.mp htells)).2
    rw [hname, hbuilt] at hid'
    rwa [Option.some.inj (Option.some.inj hid')]
  · intro hnot
    obtain ⟨d', hd', hname, hbody⟩ := exists_of_forall₂_right hds ht
    refine ⟨_, mem_unreachable_iff.mpr ⟨d', hd', ⟨id, hname ▸ hbuilt, hnot⟩, rfl⟩, ?_⟩
    rw [Warning.tellsUnreachable_iff, hbody.kind_eq, hname]

/-- The warnings of a reading tell which declarations are not rendered. The declared names have the types `decl`. -/
structure ReadResult.WarnsExactly (r : ReadResult) (d : Description) (decl : Bytes → TypeId) : Prop where
  once : ∀ t ∈ d.types, r.report.warnings.countP (·.TellsUnreachable t) ≤ 1
  only : ∀ w ∈ r.report.warnings, w.code = Bytes.ascii "W2100" → ∃ t ∈ d.types, w.TellsUnreachable t
  classesAndEnums : ∀ t ∈ d.types, t.body.kind ≠ .union → ∀ declareUnions,
    (∃ w ∈ r.report.warnings, w.TellsUnreachable t) ↔ decl t.name ∉ r.graph.declared declareUnions
  unions : ∀ t ∈ d.types, t.body.kind = .union → ¬ r.graph.AllowsNull (decl t.name) →
    ((∃ w ∈ r.report.warnings, w.TellsUnreachable t) ↔ decl t.name ∉ r.graph.declared true)

theorem Elaborates.warnsExactly {d : Description} (hv : d.Valid) {s : Sections} (hs : s.Whole)
    (htypes : s.GivesOr "types" (VectorOf SpellsDecl) [] d.types) {suggests : Bool} {pos : Position}
    (hsuccess : (s.withTops suggests Graph.empty).success = true) {sc : UnionScope} {ks : List TypeKey}
    (h : Elaborates d sc ks (s.withTops suggests Graph.empty)) {decl : Bytes → TypeId}
    (hdecl : ∀ name ∈ d.names, ks[decl name]? = some (.declared name)) :
    (Reader.new.readSections suggests Graph.empty pos s).1.WarnsExactly d decl := by
  obtain ⟨ws, hws, hwarnings⟩ := s.exists_warnings_eq pos hsuccess
  have hds := Sections.forall₂_declares hs hv htypes Graph.empty
  have hreport : (Reader.new.readSections suggests Graph.empty pos s).1.report.warnings = ws.map Warning.diagnostic ++
      (unreachable (s.declarations Graph.empty).1 (s.withTops suggests Graph.empty)).map Warning.diagnostic := by
    rw [ReadResult.report, hwarnings, List.map_append]
  have hnodup : ((s.declarations Graph.empty).1.map Declaration.name).Nodup :=
    map_name_of_declares hds ▸ hv.nodup_names
  -- the warnings about sections have other codes
  have hws' : ∀ t, ∀ w ∈ ws, ¬ w.diagnostic.TellsUnreachable t := fun t w hw htells => hws w hw htells.1
  have hreached : ∀ t ∈ d.types, (∃ w ∈ (Reader.new.readSections suggests Graph.empty pos s).1.report.warnings,
      w.TellsUnreachable t) ↔ ¬ (s.withTops suggests Graph.empty).graph.Reached (decl t.name) := by
    intro t ht
    rw [hreport, ← h.exists_warning_iff hds ht (hdecl t.name (List.mem_map_of_mem ht))]
    simp only [List.mem_append, List.mem_map]
    constructor
    · rintro ⟨_, ⟨w, hw, rfl⟩ | ⟨w, hw, rfl⟩, htells⟩
      · exact absurd htells (hws' t w hw)
      · exact ⟨w, hw, htells⟩
    · rintro ⟨w, hw, htells⟩
      exact ⟨_, .inr ⟨w, hw, rfl⟩, htells⟩
  have hnot_mem : ∀ {b id}, (s.withTops suggests Graph.empty).graph.isDeclared b id = true →
      (¬ (s.withTops suggests Graph.empty).graph.Reached id ↔
        id ∉ (s.withTops suggests Graph.empty).graph.declared b) := by
    intro b id hid
    rw [h.tracks.known.wellFormed.mem_declared_iff, hid, and_iff_left rfl]
  have hrealizes := (h.realizes hdecl).types
  refine ⟨fun t ht => ?_, fun w hw hcode => ?_, fun t ht hkind b => ?_, fun t ht hkind hnull => ?_⟩
  · rw [hreport, List.countP_append, List.countP_map, List.countP_map, List.countP_eq_zero.mpr, Nat.zero_add]
    · exact countP_unreachable_le hnodup _ t
    · exact fun w hw htells => hws' t w hw (of_decide_eq_true htells)
  · rw [hreport, List.mem_append, List.mem_map, List.mem_map] at hw
    rcases hw with ⟨w, hw, rfl⟩ | ⟨w, hw, rfl⟩
    · exact absurd hcode (hws w hw)
    · obtain ⟨d', hd', -, rfl⟩ := mem_unreachable_iff.mp hw
      obtain ⟨t, ht, hname, hbody⟩ := exists_of_forall₂_left hds hd'
      exact ⟨t, ht, by rw [Warning.tellsUnreachable_iff, hbody.kind_eq, hname]⟩
  · exact (hreached t ht).trans (hnot_mem ((hrealizes t ht).isDeclared hkind b))
  · exact (hreached t ht).trans (hnot_mem (h.isDeclared_union (hrealizes t ht) hkind hnull))

/-- Reading an accepted description warns once of every declaration that is not among the types to declare, and of no
other one. -/
theorem readForm_warns_of_undeclared {source : Bytes} {f : Form} (h : Edn.parse source = .ok f) {suggests : Bool}
    (hs : (readForm suggests Graph.empty f).report.success = true) :
    ∃ d, Spells f d ∧ ∃ decl, Realizes (readForm suggests Graph.empty f).graph d decl ∧
      (∀ t ∈ d.types, declaredType? suggests Graph.empty f t.name = some (decl t.name)) ∧
      (readForm suggests Graph.empty f).WarnsExactly d decl := by
  have hp := accepted_iff.mp hs
  obtain ⟨s, hentry⟩ := exists_entry_of_readForm hp
  rw [readForm_of_entry hentry] at hs hp ⊢
  have hw := hentry.whole (Edn.whole_of_parse h)
  obtain ⟨d, hcomments, htypes, htops, hv, sc, ks, hholds⟩ := Sections.exists_elaborates hw suggests hp
  let decl (name : Bytes) : TypeId := (declaredType? suggests Graph.empty f name).getD 0
  have hlookup : ∀ name ∈ d.names, declaredType? suggests Graph.empty f name = some (decl name) ∧
      ks[decl name]? = some (.declared name) := by
    intro name hname
    obtain ⟨id, hid⟩ := hholds.exists_key hname
    have htype : declaredType? suggests Graph.empty f name = some id := by
      rw [declaredType?_of_entry hentry, (hholds.tracks.built name id).mpr hid, Option.join_some]
    have hdecl : decl name = id := by simp [decl, htype]
    exact ⟨hdecl ▸ htype, hdecl ▸ hid⟩
  have hkeys : ∀ name ∈ d.names, ks[decl name]? = some (.declared name) := fun name hname => (hlookup name hname).2
  exact ⟨d, ⟨s, hentry, hcomments, htypes, htops⟩, decl, hholds.realizes hkeys,
    fun t ht => (hlookup t.name (List.mem_map_of_mem ht)).1, hholds.warnsExactly hv hw htypes hs hkeys⟩

/-! ### Declarations that no top-level uses -/

/-- A class that is a top-level, and a class and a union that no top-level leads to. -/
def spareSource : Bytes := Bytes.ascii ("(graph :types [(class :name A) (class :name B) " ++
  "(union :name V :members [A B])] :top-levels [(top :name t :type A)])")

def spareTypes : List Form := [
  .seq ⟨1, 16⟩ .round [symbolAt 17 "class", keywordAt 23 "name", symbolAt 29 "A"],
  .seq ⟨1, 32⟩ .round [symbolAt 33 "class", keywordAt 39 "name", symbolAt 45 "B"],
  .seq ⟨1, 48⟩ .round [symbolAt 49 "union", keywordAt 55 "name", symbolAt 61 "V", keywordAt 63 "members",
    .seq ⟨1, 72⟩ .square [symbolAt 73 "A", symbolAt 75 "B"]]]

def spareTop : Form := .seq ⟨1, 93⟩ .round [symbolAt 94 "top", keywordAt 98 "name", symbolAt 104 "t",
  keywordAt 106 "type", symbolAt 112 "A"]

def spareForm : Form := .seq ⟨1, 1⟩ .round [symbolAt 2 "graph", keywordAt 8 "types", .seq ⟨1, 15⟩ .square spareTypes,
  keywordAt 80 "top-levels", .seq ⟨1, 92⟩ .square [spareTop]]

set_option maxRecDepth 4000 in
theorem parse_spareSource : Edn.parse spareSource = .ok spareForm := by
  with_unfolding_all rfl

def spareUnion : TypeDecl := ⟨Bytes.ascii "V", .union [.declared (Bytes.ascii "A"), .declared (Bytes.ascii "B")]⟩

def spareDescription : Description where
  comments := []
  types := [⟨Bytes.ascii "A", .record []⟩, ⟨Bytes.ascii "B", .record []⟩, spareUnion]
  tops := [⟨Bytes.ascii "t", .declared (Bytes.ascii "A")⟩]

theorem spells_spare : Spells spareForm spareDescription := by
  have hA : Primitive.ofName? (Bytes.ascii "A") = none := by decide
  have hB : Primitive.ofName? (Bytes.ascii "B") = none := by decide
  have hclass (p q r s : Int32) (name : String) : SpellsDecl
      (.seq ⟨1, p⟩ .round [symbolAt q "class", keywordAt r "name", symbolAt s name]) ⟨Bytes.ascii name, .record []⟩ :=
    ⟨.record, _, ⟨_, ⟨_, _, rfl⟩, .cons .nil⟩, ⟨_, rfl, rfl⟩, .record rfl⟩
  refine ⟨_, ⟨_, ⟨_, _, rfl⟩, .cons (.cons .nil)⟩, rfl, ?types, ?tops⟩
  case types =>
    refine ⟨_, rfl, .cons (hclass 16 17 23 29 "A") (.cons (hclass 32 33 39 45 "B") (.cons ?_ .nil))⟩
    exact ⟨.union, _, ⟨_, ⟨_, _, rfl⟩, .cons (.cons .nil)⟩, ⟨_, rfl, rfl⟩,
      .union ⟨_, rfl, _, rfl, .cons (.declared rfl hA) (.cons (.declared rfl hB) .nil)⟩⟩
  case tops =>
    exact ⟨_, rfl, .cons ⟨_, ⟨_, ⟨_, _, rfl⟩, .cons (.cons .nil)⟩, ⟨_, rfl, rfl⟩, ⟨_, rfl, .declared rfl hA⟩⟩ .nil⟩

theorem Description.mem_of_unions {d : Description} {name : Bytes} {us : List TypeTerm} (h : d.unions name = some us) :
    ⟨name, .union us⟩ ∈ d.types := by
  unfold unions at h
  split at h
  · rename_i hfind
    obtain rfl := Option.some.inj h
    obtain rfl : _ = name := by simpa using List.find?_some hfind
    exact List.mem_of_find?_eq_some hfind
  · cases h

theorem valid_spare : spareDescription.Valid where
  nodup_names := by decide
  not_primitive := by decide
  nodup_properties t ht qs hqs := by
    simp only [spareDescription, List.mem_cons, List.not_mem_nil, or_false] at ht
    rcases ht with rfl | rfl | rfl <;> cases hqs <;> exact List.nodup_nil
  terms t ht u hu := by
    simp only [spareDescription, List.mem_cons, List.not_mem_nil, or_false] at ht
    rcases ht with rfl | rfl | rfl
    · cases hu
    · cases hu
    · simp only [spareUnion, TypeBody.terms, List.mem_cons, List.not_mem_nil, or_false] at hu
      rcases hu with rfl | rfl <;> exact .declared (by decide)
  members t ht us hus := by
    simp only [spareDescription, List.mem_cons, List.not_mem_nil, or_false] at ht
    rcases ht with rfl | rfl | rfl <;> cases hus
    refine ⟨_, _, List.Sublist.refl _, fun hsame => ?_⟩
    have hne : Bytes.ascii "A" ≠ Bytes.ascii "B" := by decide
    generalize Bytes.ascii "A" = a, Bytes.ascii "B" = b at hsame hne
    cases hsame
    exact hne rfl
  acyclic name hcycle := by
    -- the one union names no union
    obtain ⟨b, ⟨us, hus, ⟨t, ht, hm⟩, hb⟩, -⟩ := Relation.TransGen.head'_iff.mp hcycle
    obtain ⟨us', hus'⟩ := Option.isSome_iff_exists.mp hb
    obtain ⟨-, rfl⟩ : _ ∧ us = _ := by simpa [spareDescription, spareUnion] using Description.mem_of_unions hus
    obtain ⟨rfl, -⟩ : b = _ ∧ _ := by simpa [spareDescription, spareUnion] using Description.mem_of_unions hus'
    simp only [List.mem_cons, List.not_mem_nil, or_false] at ht
    generalize hn : Bytes.ascii "V" = n at hm
    rcases ht with rfl | rfl <;> cases hm <;> exact absurd hn (by decide)
  tops t ht := by
    obtain rfl := List.mem_singleton.mp ht
    exact .declared (by decide)

section

variable {g : Graph} {decl : Bytes → TypeId}

theorem Denotes.eq_decl {names : List Bytes} {name : Bytes} {id : TypeId}
    (h : Denotes g names decl (.declared name) id) : id = decl name := by
  cases h
  rfl

/-- Only the class that is a top-level can be reached. -/
theorem Realizes.eq_of_reached_spare (h : Realizes g spareDescription decl) {id : TypeId} (hid : g.Reached id) :
    id = decl (Bytes.ascii "A") := by
  obtain ⟨top, htop, hreaches⟩ := hid
  obtain ⟨t, ht, -, hdenotes⟩ := exists_of_forall₂_right h.tops htop
  obtain rfl := List.mem_singleton.mp ht
  rw [hdenotes.eq_decl] at hreaches
  rcases h.types _ (List.mem_cons_self) with ⟨hn, hps⟩ | _ | _
  obtain rfl := List.forall₂_nil_left_iff.mp hps
  rcases hreaches.cases_head with heq | ⟨c, hc, -⟩
  · exact heq.symm
  · simp [Leads, Graph.children, hn, Node.children] at hc

/-- The members of the union are classes. -/
theorem Realizes.not_allowsNull_spare (h : Realizes g spareDescription decl) (hg : g.WellFormed) :
    ¬ g.AllowsNull (decl (Bytes.ascii "V")) := by
  have hclass : ∀ name, (⟨name, .record []⟩ : TypeDecl) ∈ spareDescription.types → decl name ≠ Primitive.null.id := by
    intro name hname heq
    rcases h.types _ hname with ⟨hn, -⟩ | _ | _
    rw [heq, hg.primitives .null] at hn
    cases hn
  obtain ⟨hint, ids, hids, hn⟩ : ∃ hint ids, List.Forall₂ (Denotes g spareDescription.names decl)
      [.declared (Bytes.ascii "A"), .declared (Bytes.ascii "B")] ids ∧
      g.node? (decl (Bytes.ascii "V")) = some (.union hint (distinct ids)) := by
    rcases h.types spareUnion (by simp [spareDescription]) with _ | _ | ⟨hids, hn⟩
    exact ⟨_, _, hids, hn⟩
  rintro (heq | ⟨hint', a, b, hab, hor⟩)
  · rw [heq, hg.primitives .null] at hn
    cases hn
  · have hmembers : ∀ id ∈ [a, b], id ≠ Primitive.null.id := by
      intro id hid
      rw [hn] at hab
      rw [← (Node.union.inj (Option.some.inj hab)).2] at hid
      obtain ⟨t, ht, hdenotes⟩ := exists_of_forall₂_right hids (Graph.mem_of_mem_distinct hid)
      simp only [List.mem_cons, List.not_mem_nil, or_false] at ht
      rcases ht with rfl | rfl <;> rw [hdenotes.eq_decl] <;> exact hclass _ (by simp [spareDescription])
    rcases hor with heq | heq
    · exact hmembers a (by simp) heq
    · exact hmembers b (by simp) heq

end

/-- The class and the union that no top-level leads to are warned of. -/
theorem spare_is_warned_of :
    Edn.parse spareSource = .ok spareForm ∧ (readForm false Graph.empty spareForm).report.success = true ∧
      (∀ t ∈ spareDescription.types, t.name ≠ Bytes.ascii "A" →
        ∃ w ∈ (readForm false Graph.empty spareForm).report.warnings, w.TellsUnreachable t) ∧
      ∃ decl, Realizes (readForm false Graph.empty spareForm).graph spareDescription decl ∧
        (readForm false Graph.empty spareForm).WarnsExactly spareDescription decl := by
  have hs : (readForm false Graph.empty spareForm).report.success = true :=
    accepted_iff.mpr (readForm_passes (Edn.whole_of_parse parse_spareSource) false spells_spare valid_spare)
  obtain ⟨d, hd, decl, hrealizes, -, hwarns⟩ := readForm_warns_of_undeclared parse_spareSource hs
  obtain rfl := rightUnique_spells hd spells_spare
  have hg := (growsTo_readForm false Graph.wellFormed_empty spareForm).wellFormed Graph.wellFormed_empty
  refine ⟨parse_spareSource, hs, fun t ht hname => ?_, decl, hrealizes, hwarns⟩
  have hnot : decl t.name ∉ (readForm false Graph.empty spareForm).graph.declared true := by
    intro hmem
    have heq := hrealizes.eq_of_reached_spare (hg.mem_declared_iff.mp hmem).1
    exact hname (hrealizes.injOn (List.mem_map_of_mem ht) (show Bytes.ascii "A" ∈ _ from List.mem_cons_self) heq)
  by_cases hkind : t.body.kind = .union
  · obtain rfl : t = spareUnion := by
      simp only [spareDescription, List.mem_cons, List.not_mem_nil, or_false] at ht
      rcases ht with rfl | rfl | rfl
      · cases hkind
      · cases hkind
      · rfl
    exact (hwarns.unions _ ht hkind (hrealizes.not_allowsNull_spare hg)).mpr hnot
  · exact (hwarns.classesAndEnums t ht hkind true).mpr hnot

end Typewright
