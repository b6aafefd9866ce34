import Typewright.Proofs.Description.Attempt
import Typewright.Proofs.Description.Scope

/-!
# Which descriptions are accepted

* `Elaborates d sc ks r` : the reading `r` holds what the description `d` says;
* `exists_elaborates` : a reading without problems holds what the form spells, and this is valid;
* `withTops_passes` : a valid description is read without problems.
-/

namespace Typewright

open Edn (Form)

/-! ## The beginning -/

/-- Places outside the declared unions. -/
def outside (site : Site) : Prop := ∀ name, site.owner ≠ .union name

theorem tracks_opening (sc : UnionScope) (s : Sections) :
    Tracks sc (Primitive.all.map .primitive) (s.opening Graph.empty) where
  known := Sections.known_opening Graph.wellFormed_empty
  length := by rw [Sections.graph_opening]; rfl
  nodup := List.Nodup.map (fun _ _ h => TypeKey.primitive.inj h) (by decide)
  node id k n hk hn := by
    rw [Sections.graph_opening] at hn
    unfold Graph.node? Graph.empty at hn
    rw [List.getElem?_map, Option.map_eq_some_iff] at hk
    obtain ⟨p, hp, rfl⟩ := hk
    obtain rfl : Node.primitive p = n := by simpa [hp] using hn
    exact .primitive p
  built name id := by simp [Sections.built_opening]
  built_some name := by simp [Sections.built_opening]
  names name hmem := by simp at hmem

theorem ready_opening (sc : UnionScope) (s : Sections) :
    Ready sc [] outside (Primitive.all.map .primitive) (s.opening Graph.empty) where
  tracks := tracks_opening sc s
  settled k hk site hsite := by
    obtain ⟨p, -, rfl⟩ := List.mem_map.mp hk
    cases hsite
  unused k hk site hsite := by
    obtain ⟨p, -, rfl⟩ := List.mem_map.mp hk
    cases hsite
  owned site hsite name howner := absurd howner (hsite name)

/-- The classes and enums have their types, and nothing else was built. -/
structure Begins (sc : UnionScope) (ds : List Declaration) (ks : List TypeKey) (r : Reading) : Prop where
  ready : Ready sc [] outside ks r
  classes : ∀ d ∈ ofKind .record ds, HasNode ks r.graph d.name (.record d.name [])
  enums : ∀ d ∈ ofKind .enum ds, HasNode ks r.graph d.name (.enum d.name d.labels)
  tops : r.graph.tops = []

section

variable {suggests : Bool} {ds : List Declaration} {ks : List TypeKey} {r : Reading}

theorem opens_of_mem (hnodup : (ds.map Declaration.name).Nodup) {d : Declaration} (hd : d ∈ ds) (hkind : d.kind ≠ .union) :
    Opens (unionScope suggests ds) d.name (.record d.name []) ∧
      Opens (unionScope suggests ds) d.name (.enum d.name d.labels) :=
  ⟨.record (lookup_unions_eq_none hnodup hd hkind), .enum _ (lookup_unions_eq_none hnodup hd hkind)⟩

theorem begins (s : Sections) (suggests : Bool) (hnodup : (ds.map Declaration.name).Nodup)
    (hw : ∀ d ∈ ds, d.sections.Whole)
    (henums : ∀ d ∈ ofKind .enum ds, SpellsBody d.sections .enum (.enum d.labels)) :
    ∃ ks, Begins (unionScope suggests ds) ds ks
      ((ofKind .enum ds).foldl buildEnum (ds.foldl Reading.takeUp (s.opening Graph.empty))) := by
  rw [foldl_takeUp_eq, foldl_buildEnum_eq (fun d hd => hw d (mem_ofKind.mp hd).1) henums]
  have hname : ∀ kind, ∀ d ∈ ofKind kind ds, d.name ∈ (unionScope suggests ds).names :=
    fun kind d hd => List.mem_map_of_mem (mem_ofKind.mp hd).1
  have hopens : ∀ kind ≠ .union, ∀ d ∈ ofKind kind ds, Opens (unionScope suggests ds) d.name (.record d.name []) ∧
      Opens (unionScope suggests ds) d.name (.enum d.name d.labels) := fun kind hkind d hd =>
    opens_of_mem hnodup (mem_ofKind.mp hd).1 ((mem_ofKind.mp hd).2 ▸ hkind)
  obtain ⟨hready₁, hext₁, hnodes₁⟩ := (ready_opening (unionScope suggests ds) s).foldl_declareNode
    (fun d hd => (hopens .record (by simp) d hd).1) (nodup_ofKind hnodup .record) (by simp) (hname .record)
  -- a class and an enum have different names
  have hnew : ∀ d ∈ ofKind .enum ds, TypeKey.declared d.name ∉
      Primitive.all.map .primitive ++ (ofKind .record ds).map fun d => .declared d.name := by
    intro d hd hmem
    obtain ⟨d', hd', heq⟩ : ∃ d' ∈ ofKind .record ds, d'.name = d.name := by simpa using hmem
    obtain ⟨hd, hkind⟩ := mem_ofKind.mp hd
    obtain ⟨hd', hkind'⟩ := mem_ofKind.mp hd'
    rw [List.inj_on_of_nodup_map hnodup hd' hd heq, hkind] at hkind'
    cases hkind'
  obtain ⟨hready₂, hext₂, hnodes₂⟩ := hready₁.foldl_declareNode (fun d hd => (hopens .enum (by simp) d hd).2)
    (nodup_ofKind hnodup .enum) hnew (hname .enum)
  exact ⟨_, hready₂, fun d hd => (hnodes₁ d hd).mono (List.prefix_append _ _) hext₂.node?, hnodes₂,
    by rw [hext₂.tops, hext₁.tops, Sections.graph_opening]; rfl⟩

theorem problems_foldl_declareNode {l : List α} {f : α → Bytes} {k : α → Node} :
    (l.foldl (fun r a => r.declareNode (f a) (k a)) r).problems = r.problems :=
  List.foldlRecOn (motive := fun r' : Reading => r'.problems = r.problems) l _ rfl fun _ h _ _ => h

theorem Begins.begun (h : Begins (unionScope suggests ds) ds ks r) (hnodup : (ds.map Declaration.name).Nodup) :
    (unionScope suggests ds).Begun ks := by
  intro name hname hu
  obtain ⟨d, hd, rfl⟩ := List.mem_map.mp hname
  cases hkind : d.kind with
  | record => exact (h.classes d (mem_ofKind.mpr ⟨hd, hkind⟩)).mem
  | enum => exact (h.enums d (mem_ofKind.mpr ⟨hd, hkind⟩)).mem
  | union => simp [lookup_unions_of_mem hnodup hd hkind] at hu

/-- The unions are built, and every name has its type. -/
theorem Begins.buildUnions (h : Begins (unionScope suggests ds) ds ks r) (hadm : Admissible [] ds)
    (hw : ∀ d ∈ ds, d.sections.Whole)
    (hp : ((ofKind .union ds).foldl (buildUnion (unionScope suggests ds)) r).problems = []) :
    ∃ ks', ks <+: ks' ∧ (unionScope suggests ds).Complete ks' ∧
      Begins (unionScope suggests ds) ds ks' ((ofKind .union ds).foldl (buildUnion (unionScope suggests ds)) r) := by
  obtain ⟨ks', hks, hready, hext, hunions⟩ := h.ready.buildUnions (whole_unionScope suggests hw)
    (fun d hd => hadm.primitive d (mem_ofKind.mp hd).1) hp
  refine ⟨ks', hks, fun name hname => ?_, hready, fun d hd => (h.classes d hd).mono hks hext.node?,
    fun d hd => (h.enums d hd).mono hks hext.node?, hext.tops.trans h.tops⟩
  obtain ⟨d, hd, rfl⟩ := List.mem_map.mp hname
  by_cases hkind : d.kind = .union
  · exact hunions d (mem_ofKind.mpr ⟨hd, hkind⟩)
  · exact hks.subset (h.begun hadm.nodup _ hname (lookup_unions_eq_none hadm.nodup hd hkind))

/-- The places of properties and top-levels are free before the first class. -/
theorem Begins.bodies (h : Begins (unionScope suggests ds) ds ks r) (names : List Bytes) :
    Ready (unionScope suggests ds) [] (bodySites names) ks r := by
  refine h.ready.mono ?_
  rintro site (⟨c, -, i, -, hi⟩ | ⟨i, -, hi⟩) name howner <;> rw [hi] at howner <;> cases howner

end

/-! ## What is built -/

/-- The type of a declaration is what the declaration says. -/
inductive Builds (unions : Bytes → Option (List TypeTerm)) (ks : List TypeKey) (g : Graph) : TypeDecl → Prop where
  | record {name : Bytes} {qs : List PropertyTerm} {ps : List Property} :
    HasNode ks g name (.record name ps) → PropertiesOf unions ks name 0 qs ps → Builds unions ks g ⟨name, .record qs⟩
  | enum {name : Bytes} {cs : List Bytes} : HasNode ks g name (.enum name cs) → Builds unions ks g ⟨name, .enum cs⟩
  | union {name : Bytes} {ts : List TypeTerm} {ids : List TypeId} :
    HasKeys ks ids (TypeTerm.keys unions ⟨.union name, []⟩ 0 ts) →
    HasNode ks g name (.union (g.unionHint name (distinct ids)) (distinct ids)) → Builds unions ks g ⟨name, .union ts⟩

/-- A reading holds what a description says. -/
structure Elaborates (d : Description) (sc : UnionScope) (ks : List TypeKey) (r : Reading) : Prop where
  names : sc.names = d.names
  terms : sc.terms = d.unions
  whole : sc.Whole
  tracks : Tracks sc ks r
  types : ∀ t ∈ d.types, Builds d.unions ks r.graph t
  tops : TopsOf d.unions ks 0 d.tops r.graph.tops

theorem Builds.mem {unions : Bytes → Option (List TypeTerm)} {ks : List TypeKey} {g : Graph} {t : TypeDecl}
    (h : Builds unions ks g t) : .declared t.name ∈ ks := by
  cases h with
  | record h _ => exact h.mem
  | enum h => exact h.mem
  | union _ h => exact h.mem

/-- A declared union is built from its members. -/
theorem Tracks.builds_union {sc : UnionScope} {ks : List TypeKey} {r : Reading} (h : Tracks sc ks r) {name : Bytes}
    {ts : List TypeTerm} (hts : sc.terms name = some ts) (hmem : .declared name ∈ ks) :
    Builds sc.terms ks r.graph ⟨name, .union ts⟩ := by
  obtain ⟨id, hid⟩ := List.mem_iff_getElem?.mp hmem
  obtain ⟨n, hn, hof⟩ := h.exists_node hid
  cases hof with
  | record hnone => simp [UnionScope.terms_eq_none hnone] at hts
  | enum hnone => simp [UnionScope.terms_eq_none hnone] at hts
  | declared hts' hids _ =>
    obtain rfl := Option.some.inj (hts.symm.trans hts')
    exact .union hids ⟨id, hid, hn⟩

theorem Elaborates.valid {d : Description} {sc : UnionScope} {ks : List TypeKey} {r : Reading}
    (h : Elaborates d sc ks r) (hnodup : d.names.Nodup) (hprim : ∀ name ∈ d.names, Primitive.ofName? name = none)
    (hprops : ∀ t ∈ d.types, ∀ qs, t.body = .record qs → (qs.map PropertyTerm.name).Nodup) : d.Valid := by
  have hsc : sc.Valid := h.tracks.scope_valid fun name u hu => by
    have hname := h.whole.names name u hu
    rw [h.names] at hname
    obtain ⟨t, ht, rfl⟩ := List.mem_map.mp hname
    exact (h.types t ht).mem
  have hkey : ∀ (id : TypeId) (t : TypeTerm) site, ks[id]? = some (t.key d.unions site) → t.Valid d.names d.unions := by
    rw [← h.names, ← h.terms]
    exact fun id t site => h.tracks.valid_of_key
  -- a declared union has valid members, two of them different
  have hunion : ∀ t ∈ d.types, ∀ us, t.body = .union us →
      (∀ u ∈ us, u.Valid d.names d.unions) ∧ TwoTypes d.unions us := by
    intro t ht us hbody
    have hus : sc.terms t.name = some us := by
      rw [h.terms, Description.unions_of_mem hnodup ht, hbody]
    obtain ⟨u, hu, -⟩ := Option.bind_eq_some_iff.mp hus
    obtain ⟨u, hu, -⟩ := Option.bind_eq_some_iff.mp hu
    obtain ⟨us', hus', hvalid⟩ := hsc.terms t.name u hu
    obtain rfl := Option.some.inj (hus.symm.trans hus')
    rwa [← h.names, ← h.terms]
  refine ⟨hnodup, hprim, hprops, fun t ht u hu => ?_, fun t ht us hus => (hunion t ht us hus).2, ?_, fun t ht => ?_⟩
  · have hbuilds := h.types t ht
    obtain ⟨name, body⟩ := t
    cases hbuilds with
    | record _ hqs =>
      obtain ⟨q, hq, rfl⟩ := List.mem_map.mp hu
      obtain ⟨p, -, site, hp⟩ := exists_of_forall₂_left hqs.listed hq
      exact hkey p.type q.type site hp.type
    | enum _ => simp [TypeBody.terms] at hu
    | union _ _ => exact (hunion _ ht _ rfl).1 u hu
  · have hneeds : d.Needs = sc.Needs := by
      unfold Description.Needs UnionScope.Needs
      rw [h.terms]
    rw [hneeds]
    exact hsc.acyclic
  · obtain ⟨top, -, -, site, htop⟩ := exists_of_forall₂_left h.tops.listed ht
    exact hkey top.type t.type site htop

/-! ## Soundness -/

/-- All declarations are built. -/
structure Completes (sc : UnionScope) (ds : List Declaration) (ks : List TypeKey) (r : Reading) : Prop where
  tracks : Tracks sc ks r
  complete : sc.Complete ks
  classes : ∀ d ∈ ofKind .record ds, ∃ qs, SpellsBody d.sections .record (.record qs) ∧
    (qs.map PropertyTerm.name).Nodup ∧ HasClass sc ks r.graph d.name qs
  enums : ∀ d ∈ ofKind .enum ds, SpellsBody d.sections .enum (.enum d.labels) ∧
    HasNode ks r.graph d.name (.enum d.name d.labels)

section

variable {suggests : Bool} {ds : List Declaration} {ks ks' : List TypeKey} {r r' : Reading}

theorem Completes.mono {sc : UnionScope} (h : Completes sc ds ks r) (hks : ks <+: ks') (htracks : Tracks sc ks' r')
    (hg : ∀ id n, r.graph.node? id = some n → r'.graph.node? id = some n) : Completes sc ds ks' r' where
  tracks := htracks
  complete := h.complete.mono hks
  classes d hd := by
    obtain ⟨qs, hqs, hnodup, hclass⟩ := h.classes d hd
    exact ⟨qs, hqs, hnodup, hclass.mono hks fun n hn => hn.mono hks hg⟩
  enums d hd := ⟨(h.enums d hd).1, (h.enums d hd).2.mono hks hg⟩

theorem Begins.buildClasses (h : Begins (unionScope suggests ds) ds ks r) (hadm : Admissible [] ds)
    (hw : ∀ d ∈ ds, d.sections.Whole) (hcomplete : (unionScope suggests ds).Complete ks)
    (henums : ∀ d ∈ ofKind .enum ds, SpellsBody d.sections .enum (.enum d.labels))
    (hp : ((ofKind .record ds).foldl (buildClass (unionScope suggests ds)) r).problems = []) :
    ∃ ks', ks <+: ks' ∧
      Ready (unionScope suggests ds) [] (topSites 0) ks'
        ((ofKind .record ds).foldl (buildClass (unionScope suggests ds)) r) ∧
      Completes (unionScope suggests ds) ds ks' ((ofKind .record ds).foldl (buildClass (unionScope suggests ds)) r) ∧
      ((ofKind .record ds).foldl (buildClass (unionScope suggests ds)) r).graph.tops = [] := by
  obtain ⟨ks', hks, hready, hclasses, htops, hframe⟩ := (h.bodies _).buildClasses (whole_unionScope suggests hw)
    (nodup_ofKind hadm.nodup .record) (fun d hd => hw d (mem_ofKind.mp hd).1) h.classes hp
  refine ⟨ks', hks, hready, ⟨hready.tracks, hcomplete.mono hks, hclasses, fun d hd => ⟨henums d hd, ?_⟩⟩,
    htops.trans h.tops⟩
  refine hframe _ _ (fun hmem => ?_) (h.enums d hd)
  obtain ⟨d', hd', hname⟩ := List.mem_map.mp hmem
  obtain ⟨hd, hkind⟩ := mem_ofKind.mp hd
  obtain ⟨hd', hkind'⟩ := mem_ofKind.mp hd'
  rw [List.inj_on_of_nodup_map hadm.nodup hd' hd hname, hkind] at hkind'
  cases hkind'

theorem Completes.exists_decl (h : Completes (unionScope suggests ds) ds ks r) (hadm : Admissible [] ds)
    (hw : ∀ d ∈ ds, d.sections.Whole) {d : Declaration} (hd : d ∈ ds) :
    ∃ t, d.Declares t ∧ (∀ qs, t.body = .record qs → (qs.map PropertyTerm.name).Nodup) ∧
      Builds (unionScope suggests ds).terms ks r.graph t := by
  cases hkind : d.kind with
  | record =>
    obtain ⟨qs, hqs, hnodup, ps, hnode, hprops⟩ := h.classes d (mem_ofKind.mpr ⟨hd, hkind⟩)
    refine ⟨⟨d.name, .record qs⟩, ⟨rfl, hkind ▸ hqs⟩, ?_, .record hnode hprops⟩
    rintro _ ⟨⟩
    exact hnodup
  | enum =>
    obtain ⟨hcs, hnode⟩ := h.enums d (mem_ofKind.mpr ⟨hd, hkind⟩)
    exact ⟨⟨d.name, .enum d.labels⟩, ⟨rfl, hkind ▸ hcs⟩, by simp, .enum hnode⟩
  | union =>
    have hlookup : (unionScope suggests ds).unions.lookup d.name = some d.unionForm :=
      lookup_unions_of_mem hadm.nodup hd hkind
    have hvalid := h.tracks.scope_valid fun name u hu =>
      h.complete name ((whole_unionScope suggests hw).names name u hu)
    obtain ⟨us, hus, -⟩ := hvalid.terms d.name d.unionForm hlookup
    have hbody : SpellsBody d.sections .union (.union us) :=
      (spellsBody_union_iff (hw d hd)).mpr (by simpa [UnionScope.terms, hlookup] using hus)
    exact ⟨⟨d.name, .union us⟩, ⟨rfl, hkind ▸ hbody⟩, by simp,
      h.tracks.builds_union hus (h.complete _ (List.mem_map_of_mem hd))⟩

end

/-- Reading the top-levels without problems. -/
theorem Ready.readTopLevels {sc : UnionScope} (hsc : sc.Whole) {ks : List TypeKey} {r : Reading}
    (h : Ready sc [] (topSites 0) ks r) (htops : r.graph.tops = []) {s : Sections} (hs : s.Whole)
    (hp : (((s.get? "top-levels").map (readTopLevels sc r)).getD r).problems = []) :
    ∃ ts ks', s.GivesOr "top-levels" (VectorOf SpellsTop) [] ts ∧ ks <+: ks' ∧
      Tracks sc ks' (((s.get? "top-levels").map (readTopLevels sc r)).getD r) ∧
      TopsOf sc.terms ks' 0 ts (((s.get? "top-levels").map (readTopLevels sc r)).getD r).graph.tops ∧
      ∀ id n, r.graph.node? id = some n →
        (((s.get? "top-levels").map (readTopLevels sc r)).getD r).graph.node? id = some n := by
  unfold Sections.GivesOr
  rw [hs.get?_eq] at hp ⊢
  cases hf : s.lookup (Bytes.ascii "top-levels") with
  | none =>
    refine ⟨[], ks, rfl, List.prefix_refl ks, h.tracks, ?_, fun _ _ hn => hn⟩
    rw [Option.map_none, Option.getD_none, htops]
    exact .nil
  | some f =>
    simp only [hf, Option.map_some, Option.getD_some, Typewright.readTopLevels] at hp ⊢
    cases hitems : f.vector? with
    | none => simp [hitems, Reading.report] at hp
    | some items =>
      simp only [hitems] at hp ⊢
      obtain ⟨ts, tops, ks', hts, htopsOf, hks, htracks, heq, hframe⟩ :=
        h.addTopLevels hsc f.pos ((hs.of_lookup hf).of_vector? hitems) hp
      rw [htops, List.nil_append] at heq
      exact ⟨ts, ks', ⟨items, hitems.symm ▸ rfl, hts⟩, hks, htracks, heq ▸ htopsOf, hframe⟩

namespace Sections

variable {s : Sections}

/-- A reading without problems holds what the sections spell, and this is valid. -/
theorem exists_elaborates (hs : s.Whole) (suggests : Bool) (hp : (s.withTops suggests Graph.empty).problems = []) :
    ∃ d : Description, s.GivesOr "comments" (VectorOf SpellsText) [] d.comments ∧
      s.GivesOr "types" (VectorOf SpellsDecl) [] d.types ∧ s.GivesOr "top-levels" (VectorOf SpellsTop) [] d.tops ∧
      d.Valid ∧ ∃ sc ks, Elaborates d sc ks (s.withTops suggests Graph.empty) := by
  -- no problem came up at any step
  have hempty := Graph.wellFormed_empty
  have hp₄ := Reading.no_problems_before (proceeds_withTops hempty).problems hp
  have hp₃ := Reading.no_problems_before (proceeds_withClasses hempty).problems hp₄
  have hp₂ := Reading.no_problems_before (proceeds_withUnions hempty).problems hp₃
  have hp₁ := Reading.no_problems_before (proceeds_withEnums hempty).problems hp₂
  have hp₀ := Reading.no_problems_before (proceeds_declarations hempty).problems hp₁
  have hknown := (proceeds_declarations (s := s) hempty).known
  obtain ⟨ds, hds, hadm⟩ := exists_of_declarations hs hempty hp₁
  have hw := whole_of_heads hs hds
  have hsc := whole_unionScope suggests hw
  unfold withTops withClasses withUnions withEnums scope at *
  rw [declarations_eq hs hds hadm] at *
  have henums := spellsBody_of_foldl_buildEnum (fun d hd => hw d (mem_ofKind.mp hd).1) hknown hp₂
  obtain ⟨ks₂, hbegins⟩ := begins s suggests hadm.nodup hw henums
  obtain ⟨ks₃, -, hcomplete, hbegins₃⟩ := hbegins.buildUnions hadm hw hp₃
  obtain ⟨ks₄, hks₄, hready, hdone, htops⟩ := hbegins₃.buildClasses hadm hw hcomplete henums hp₄
  obtain ⟨tops, ks₅, hgives, hks₅, htracks, htopsOf, hframe⟩ := hready.readTopLevels hsc htops hs hp
  have hdone₅ := hdone.mono hks₅ htracks hframe
  obtain ⟨ts, hts⟩ := exists_forall₂ fun d hd => hdone₅.exists_decl hadm hw hd
  obtain ⟨cs, hcs⟩ : ∃ cs, ((s.get? "comments").map readComments).getD ([], []) = (cs, []) :=
    ⟨_, Prod.ext rfl (by rw [← problems_opening, hp₀])⟩
  have hdeclares : List.Forall₂ Declaration.Declares ds ts := hts.imp fun _ _ h => h.1
  have hnames : ds.map Declaration.name = Description.names ⟨cs, ts, tops⟩ := map_name_of_declares hdeclares
  have hterms : (unionScope suggests ds).terms = Description.unions ⟨cs, ts, tops⟩ :=
    terms_unionScope suggests hadm.nodup hw hdeclares
  have helab : Elaborates ⟨cs, ts, tops⟩ (unionScope suggests ds) ks₅ _ := {
    names := hnames
    terms := hterms
    whole := hsc
    tracks := htracks
    types := fun t ht => by
      obtain ⟨d, -, -, -, hbuilds⟩ := exists_of_forall₂_right hts ht
      exact hterms ▸ hbuilds
    tops := hterms ▸ htopsOf }
  refine ⟨⟨cs, ts, tops⟩, (comments_eq_iff hs).mp hcs, givesOr_types_iff.mpr ⟨ds, hds, hdeclares⟩, hgives,
    helab.valid ?_ ?_ fun t ht => ?_, _, ks₅, helab⟩
  · exact hnames ▸ hadm.nodup
  · intro name hname
    obtain ⟨d, hd, rfl⟩ := List.mem_map.mp (hnames ▸ hname : name ∈ ds.map Declaration.name)
    exact hadm.primitive d hd
  · obtain ⟨d, -, -, hprops, -⟩ := exists_of_forall₂_right hts ht
    exact hprops

end Sections

/-! ## Completeness -/

theorem readTopLevels_passes {sc : UnionScope} (hsc : sc.Whole) (hv : sc.Valid) {ks : List TypeKey} {r : Reading}
    (h : Ready sc [] (topSites 0) ks r) (hall : sc.Complete ks) {s : Sections} (hs : s.Whole) {ts : List TopTerm}
    (hts : s.GivesOr "top-levels" (VectorOf SpellsTop) [] ts) (hvalid : ∀ t ∈ ts, t.type.Valid sc.names sc.terms)
    (hp : r.problems = []) : (((s.get? "top-levels").map (readTopLevels sc r)).getD r).problems = [] := by
  unfold Sections.GivesOr at hts
  rw [hs.get?_eq]
  cases hf : s.lookup (Bytes.ascii "top-levels") with
  | none => exact hp
  | some f =>
    rw [hf] at hts
    obtain ⟨items, hitems, hts⟩ := hts
    simp only [Option.map_some, Option.getD_some, readTopLevels, hitems]
    exact addTopLevels_passes hsc hv h hall f.pos ((hs.of_lookup hf).of_vector? hitems) hts hvalid hp

namespace Sections

variable {s : Sections}

/-- A valid description is read without problems. -/
theorem withTops_passes (hs : s.Whole) (suggests : Bool) {d : Description}
    (hcomments : s.GivesOr "comments" (VectorOf SpellsText) [] d.comments)
    (htypes : s.GivesOr "types" (VectorOf SpellsDecl) [] d.types)
    (htops : s.GivesOr "top-levels" (VectorOf SpellsTop) [] d.tops) (hv : d.Valid) :
    (s.withTops suggests Graph.empty).problems = [] := by
  obtain ⟨ds, hds, hdeclares⟩ := givesOr_types_iff.mp htypes
  have hw := whole_of_heads hs hds
  have hnames : ds.map Declaration.name = d.names := map_name_of_declares hdeclares
  have hadm : Admissible [] ds := ⟨fun d hd => hv.not_primitive _ (hnames ▸ List.mem_map_of_mem hd),
    hnames ▸ hv.nodup_names, by simp⟩
  have hsc := whole_unionScope suggests hw
  have hscv := valid_unionScope suggests hw hdeclares hv
  have hterms : (unionScope suggests ds).terms = d.unions := terms_unionScope suggests hadm.nodup hw hdeclares
  -- enums have their labels, and classes their properties
  have henums : ∀ d ∈ ofKind .enum ds, SpellsBody d.sections .enum (.enum d.labels) := by
    intro d hd
    obtain ⟨body, -, hbody⟩ := exists_of_mem_ofKind hdeclares hd
    cases hbody with
    | enum hcs =>
      rw [(buildEnum_eq (hw d (mem_ofKind.mp hd).1) (.enum hcs) (s.opening Graph.empty)).1]
      exact .enum hcs
  have hclasses : ∀ d ∈ ofKind .record ds, ∃ qs, SpellsBody d.sections .record (.record qs) ∧
      (qs.map PropertyTerm.name).Nodup ∧
      ∀ q ∈ qs, q.type.Valid (unionScope suggests ds).names (unionScope suggests ds).terms := by
    intro d hd
    obtain ⟨body, ht, hbody⟩ := exists_of_mem_ofKind hdeclares hd
    cases hbody with
    | @record qs hqs =>
      refine ⟨qs, .record hqs, hv.nodup_properties _ ht qs rfl, fun q hq => ?_⟩
      rw [hterms, show (unionScope suggests ds).names = _ from hnames]
      exact hv.terms _ ht q.type (List.mem_map_of_mem hq)
  unfold withTops withClasses withUnions withEnums scope
  rw [declarations_eq hs hds hadm]
  obtain ⟨ks₂, hbegins⟩ := begins s suggests hadm.nodup hw henums
  have hp₂ : ((ofKind .enum ds).foldl buildEnum (ds.foldl Reading.takeUp (s.opening Graph.empty))).problems = [] := by
    rw [foldl_takeUp_eq, foldl_buildEnum_eq (fun d hd => hw d (mem_ofKind.mp hd).1) henums, problems_foldl_declareNode,
      problems_foldl_declareNode, problems_opening, (comments_eq_iff hs).mpr hcomments]
  have hunions : ∀ d ∈ ofKind .union ds, Primitive.ofName? d.name = none ∧ d.name ∈ (unionScope suggests ds).names :=
    fun d hd => ⟨hadm.primitive d (mem_ofKind.mp hd).1, List.mem_map_of_mem (mem_ofKind.mp hd).1⟩
  have hp₃ := buildUnions_passes hsc hscv hbegins.ready (hbegins.begun hadm.nodup) hunions hp₂
  obtain ⟨ks₃, -, hcomplete, hbegins₃⟩ := hbegins.buildUnions hadm hw hp₃
  have hp₄ := buildClasses_passes hsc hscv (hbegins₃.bodies _) hcomplete (nodup_ofKind hadm.nodup .record)
    (fun d hd => hw d (mem_ofKind.mp hd).1) hbegins₃.classes hclasses hp₃
  obtain ⟨ks₄, -, hready, hdone, -⟩ := hbegins₃.buildClasses hadm hw hcomplete henums hp₄
  refine readTopLevels_passes hsc hscv hready hdone.complete hs htops (fun t ht => ?_) hp₄
  rw [hterms, show (unionScope suggests ds).names = _ from hnames]
  exact hv.tops t ht

end Sections

/-! ## Forms -/

theorem readForm_of_entry {f : Form} {s : Sections} (h : Entry (Bytes.ascii "graph") f s) (suggests : Bool)
    (graph : Graph) : readForm suggests graph f = (Reader.new.readSections suggests graph f.pos s).1 := by
  obtain ⟨hhead, hs⟩ := entry_iff.mp h
  exact readForm_of_sections suggests graph hhead hs

theorem declaredType?_of_entry {f : Form} {s : Sections} (h : Entry (Bytes.ascii "graph") f s) (suggests : Bool)
    (graph : Graph) (name : Bytes) :
    declaredType? suggests graph f name = ((s.withTops suggests graph).built.lookup name).join := by
  obtain ⟨hhead, hs⟩ := entry_iff.mp h
  unfold declaredType?
  rw [if_pos hhead, hs]

/-- A form that is not a list of sections is read with one problem. -/
theorem readForm_of_not_entry {f : Form} (h : ¬ ∃ s, Entry (Bytes.ascii "graph") f s) (suggests : Bool) (graph : Graph) :
    ∃ p, readForm suggests graph f = ⟨graph, [p], false, [], [], none⟩ := by
  by_cases hhead : f.head? = some (Bytes.ascii "graph")
  · cases hs : f.sections with
    | error p => exact ⟨p, readForm_of_error suggests graph hhead hs⟩
    | ok s => exact absurd ⟨s, entry_iff.mpr ⟨hhead, hs⟩⟩ h
  · exact ⟨_, readForm_of_head? suggests graph hhead⟩

theorem exists_entry_of_readForm {f : Form} {suggests : Bool} {graph : Graph}
    (hp : (readForm suggests graph f).problems = []) : ∃ s, Entry (Bytes.ascii "graph") f s := by
  by_contra hnot
  obtain ⟨p, heq⟩ := readForm_of_not_entry hnot suggests graph
  simp [heq] at hp

/-- A form that is read without problems spells a valid description, and the graph holds what it says. -/
theorem exists_elaborates_of_readForm {f : Form} (hf : f.Whole) {suggests : Bool}
    (hp : (readForm suggests Graph.empty f).problems = []) :
    ∃ d, Spells f d ∧ d.Valid ∧
      ∃ sc ks r, r.graph = (readForm suggests Graph.empty f).graph ∧ Elaborates d sc ks r := by
  obtain ⟨s, hentry⟩ := exists_entry_of_readForm hp
  rw [readForm_of_entry hentry] at hp ⊢
  obtain ⟨d, hcomments, htypes, htops, hv, sc, ks, helab⟩ := Sections.exists_elaborates (hentry.whole hf) suggests hp
  exact ⟨d, ⟨s, hentry, hcomments, htypes, htops⟩, hv, sc, ks, _, rfl, helab⟩

theorem readForm_passes {f : Form} (hf : f.Whole) (suggests : Bool) {d : Description} (hd : Spells f d) (hv : d.Valid) :
    (readForm suggests Graph.empty f).problems = [] := by
  obtain ⟨s, hentry, hcomments, htypes, htops⟩ := hd
  rw [readForm_of_entry hentry, Sections.problems_readSections]
  exact Sections.withTops_passes (hentry.whole hf) suggests hcomments htypes htops hv

/-- Every form that a source spells is read without stopping at a check, and it is accepted just if it spells a valid
description. -/
theorem readForm_accepts_iff_valid {source : Bytes} {f : Form} (h : Edn.parse source = .ok f) (suggests : Bool) :
    tryReadForm suggests Graph.empty f = .ok (readForm suggests Graph.empty f) ∧
      Graph.empty.GrowsTo (readForm suggests Graph.empty f).graph ∧
      ((readForm suggests Graph.empty f).report.success = true ↔
        (readForm suggests Graph.empty f).report.errors = []) ∧
      ((readForm suggests Graph.empty f).report.success = true ↔ ∃ d, Spells f d ∧ d.Valid) := by
  have hf := Edn.whole_of_parse h
  refine ⟨tryReadForm_eq suggests Graph.wellFormed_empty f, growsTo_readForm suggests Graph.wellFormed_empty f, ?_, ?_⟩
  · rw [accepted_iff]
    exact List.map_eq_nil_iff.symm
  · rw [accepted_iff]
    constructor
    · intro hp
      obtain ⟨d, hd, hv, -⟩ := exists_elaborates_of_readForm hf hp
      exact ⟨d, hd, hv⟩
    · rintro ⟨d, hd, hv⟩
      exact readForm_passes hf suggests hd hv

/-! ### A type that contains itself -/

/-- A union of a class and `null`, and the class, which has a property of this union. -/
def chainSource : Bytes := Bytes.ascii ("(graph :types [(union :name U :members [A null]) " ++
  "(class :name A :properties [(prop :name x :type U)])] :top-levels [(top :name t :type U)])")

def symbolAt (column : Int32) (s : String) : Form := .atom ⟨1, column⟩ (.symbol (Bytes.ascii s))

def keywordAt (column : Int32) (s : String) : Form := .atom ⟨1, column⟩ (.keyword (Bytes.ascii s))

def chainUnion : Form := .seq ⟨1, 16⟩ .round [symbolAt 17 "union", keywordAt 23 "name", symbolAt 29 "U",
  keywordAt 31 "members", .seq ⟨1, 40⟩ .square [symbolAt 41 "A", symbolAt 43 "null"]]

def chainProperty : Form := .seq ⟨1, 78⟩ .round [symbolAt 79 "prop", keywordAt 84 "name", symbolAt 90 "x",
  keywordAt 92 "type", symbolAt 98 "U"]

def chainClass : Form := .seq ⟨1, 50⟩ .round [symbolAt 51 "class", keywordAt 57 "name", symbolAt 63 "A",
  keywordAt 65 "properties", .seq ⟨1, 77⟩ .square [chainProperty]]

def chainTop : Form := .seq ⟨1, 117⟩ .round [symbolAt 118 "top", keywordAt 122 "name", symbolAt 128 "t",
  keywordAt 130 "type", symbolAt 136 "U"]

def chainForm (types : List Form) : Form := .seq ⟨1, 1⟩ .round [symbolAt 2 "graph", keywordAt 8 "types",
  .seq ⟨1, 15⟩ .square types, keywordAt 104 "top-levels", .seq ⟨1, 116⟩ .square [chainTop]]

set_option maxRecDepth 4000 in
theorem parse_chainSource : Edn.parse chainSource = .ok (chainForm [chainUnion, chainClass]) := by
  with_unfolding_all rfl

def chainDescription : Description where
  comments := []
  types := [⟨Bytes.ascii "U", .union [.declared (Bytes.ascii "A"), .primitive .null]⟩,
    ⟨Bytes.ascii "A", .record [⟨Bytes.ascii "x", .declared (Bytes.ascii "U"), false⟩]⟩]
  tops := [⟨Bytes.ascii "t", .declared (Bytes.ascii "U")⟩]

theorem spells_chain : Spells (chainForm [chainUnion, chainClass]) chainDescription := by
  have hU : Primitive.ofName? (Bytes.ascii "U") = none := by decide
  have hA : Primitive.ofName? (Bytes.ascii "A") = none := by decide
  have hnull : Primitive.ofName? (Bytes.ascii "null") = some .null := by decide
  refine ⟨_, ⟨_, ⟨_, _, rfl⟩, .cons (.cons .nil)⟩, rfl, ?types, ?tops⟩
  case types =>
    refine ⟨_, rfl, .cons ⟨.union, _, ⟨_, ⟨_, _, rfl⟩, .cons (.cons .nil)⟩, ⟨_, rfl, rfl⟩, .union ⟨_, rfl, _, rfl, ?_⟩⟩
      (.cons ⟨.record, _, ⟨_, ⟨_, _, rfl⟩, .cons (.cons .nil)⟩, ⟨_, rfl, rfl⟩, .record ⟨_, rfl, ?_⟩⟩ .nil)⟩
    · exact .cons (.declared rfl hA) (.cons (.primitive rfl hnull) .nil)
    · exact .cons ⟨_, ⟨_, ⟨_, _, rfl⟩, .cons (.cons .nil)⟩, ⟨_, rfl, rfl⟩, ⟨_, rfl, .declared rfl hU⟩, rfl⟩ .nil
  case tops =>
    exact ⟨_, rfl, .cons ⟨_, ⟨_, ⟨_, _, rfl⟩, .cons (.cons .nil)⟩, ⟨_, rfl, rfl⟩, ⟨_, rfl, .declared rfl hU⟩⟩ .nil⟩

theorem unions_chain (name : Bytes) (us : List TypeTerm) (h : chainDescription.unions name = some us) :
    name = Bytes.ascii "U" ∧ us = [.declared (Bytes.ascii "A"), .primitive .null] := by
  have hnodup : chainDescription.names.Nodup := by decide
  by_cases hname : name ∈ chainDescription.names
  · obtain ⟨t, ht, rfl⟩ := List.mem_map.mp hname
    rw [Description.unions_of_mem hnodup ht] at h
    simp only [chainDescription, List.mem_cons, List.not_mem_nil, or_false] at ht
    rcases ht with rfl | rfl
    · exact ⟨rfl, (Option.some.inj h).symm⟩
    · cases h
  · rw [Description.unions_eq_none hname] at h
    cases h

theorem valid_chain : chainDescription.Valid where
  nodup_names := by decide
  not_primitive := by decide
  nodup_properties t ht qs hqs := by
    simp only [chainDescription, List.mem_cons, List.not_mem_nil, or_false] at ht
    rcases ht with rfl | rfl <;> cases hqs
    exact List.nodup_singleton _
  terms t ht u hu := by
    simp only [chainDescription, List.mem_cons, List.not_mem_nil, or_false] at ht
    rcases ht with rfl | rfl
    · simp only [TypeBody.terms, List.mem_cons, List.not_mem_nil, or_false] at hu
      rcases hu with rfl | rfl
      · exact .declared (by decide)
      · exact .primitive .null
    · obtain rfl := List.mem_singleton.mp hu
      exact .declared (by decide)
  members t ht us hus := by
    simp only [chainDescription, List.mem_cons, List.not_mem_nil, or_false] at ht
    rcases ht with rfl | rfl <;> cases hus
    refine ⟨_, _, List.Sublist.refl _, ?_⟩
    rintro ⟨⟩
  acyclic name hcycle := by
    -- the one union names no union
    obtain ⟨b, ⟨us, hus, ⟨t, ht, hm⟩, hb⟩, -⟩ := Relation.TransGen.head'_iff.mp hcycle
    obtain ⟨us', hus'⟩ := Option.isSome_iff_exists.mp hb
    obtain ⟨-, rfl⟩ := unions_chain name us hus
    obtain ⟨rfl, -⟩ := unions_chain b us' hus'
    simp only [List.mem_cons, List.not_mem_nil, or_false] at ht
    rcases ht with rfl | rfl
    · generalize hn : Bytes.ascii "U" = n at hm
      cases hm
      exact absurd hn (by decide)
    · cases hm
  tops t ht := by
    obtain rfl := List.mem_singleton.mp ht
    exact .declared (by decide)

/-- A class and a union that contain each other are accepted. -/
theorem chain_is_accepted :
    Edn.parse chainSource = .ok (chainForm [chainUnion, chainClass]) ∧
      (readForm false Graph.empty (chainForm [chainUnion, chainClass])).report.success = true :=
  ⟨parse_chainSource, (readForm_accepts_iff_valid parse_chainSource false).2.2.2.mpr
    ⟨chainDescription, spells_chain, valid_chain⟩⟩

end Typewright
