import Typewright.Proofs.Description.Declarations

/-!
# Reading classes and top-levels

* `PropertiesOf`, `TopsOf` : properties and top-levels of a graph are those that are written, by the keys of their types;
* `Ready.buildClasses`, `buildClasses_passes` : classes get their properties without problems just if these are
  spelled, have different names, and have valid types;
* `Ready.addTopLevels`, `addTopLevels_passes` : the same for the top-levels.
-/

namespace Typewright

open Edn (Form)

/-! ## Properties by their keys -/

/-- A property of a graph is the one that is written. -/
structure PropertyOf (unions : Bytes → Option (List TypeTerm)) (ks : List TypeKey) (site : Site) (q : PropertyTerm)
    (p : Property) : Prop where
  name : p.name = q.name
  optional : p.optional = q.optional
  type : ks[p.type]? = some (q.type.key unions site)

/-- The properties of a class are those that are written, from the number `i` on. -/
def PropertiesOf (unions : Bytes → Option (List TypeTerm)) (ks : List TypeKey) (record : Bytes) (i : Nat)
    (qs : List PropertyTerm) (ps : List Property) : Prop :=
  List.Forall₂ (fun q p => PropertyOf unions ks ⟨.property record q.2, []⟩ q.1 p) (qs.zipIdx i) ps

def TopsOf (unions : Bytes → Option (List TypeTerm)) (ks : List TypeKey) (i : Nat) (ts : List TopTerm)
    (tops : List TopLevel) : Prop :=
  List.Forall₂ (fun t top => top.name = t.1.name ∧ ks[top.type]? = some (t.1.type.key unions ⟨.top t.2, []⟩))
    (ts.zipIdx i) tops

section

variable {unions : Bytes → Option (List TypeTerm)} {ks ks' : List TypeKey}

theorem PropertiesOf.mono {record : Bytes} {i : Nat} {qs : List PropertyTerm} {ps : List Property}
    (h : PropertiesOf unions ks record i qs ps) (hks : ks <+: ks') : PropertiesOf unions ks' record i qs ps :=
  List.Forall₂.imp (fun _ _ hp => ⟨hp.name, hp.optional, getElem?_mono hks hp.type⟩) h

end

theorem forall₂_of_zipIdx {R : α → β → Prop} {l : List α} {l' : List β} {i : Nat}
    (h : List.Forall₂ (fun a b => R a.1 b) (l.zipIdx i) l') : List.Forall₂ R l l' := by
  rw [← List.zipIdx_map_fst i l, List.forall₂_map_left_iff]
  exact h

section

variable {unions : Bytes → Option (List TypeTerm)} {ks : List TypeKey}

theorem PropertiesOf.listed {record : Bytes} {i : Nat} {qs : List PropertyTerm} {ps : List Property}
    (h : PropertiesOf unions ks record i qs ps) :
    List.Forall₂ (fun q p => ∃ site, PropertyOf unions ks site q p) qs ps :=
  forall₂_of_zipIdx (List.Forall₂.imp (fun _ _ hp => ⟨_, hp⟩) h)

theorem TopsOf.listed {i : Nat} {ts : List TopTerm} {tops : List TopLevel} (h : TopsOf unions ks i ts tops) :
    List.Forall₂ (fun t top => top.name = t.name ∧ ∃ site, ks[top.type]? = some (t.type.key unions site)) ts tops :=
  forall₂_of_zipIdx (List.Forall₂.imp (fun _ _ ht => ⟨ht.1, _, ht.2⟩) h)

end

/-! ## Properties of one class -/

section

variable {s : UnionScope} {free : Site → Prop} {ks : List TypeKey} {r : Reading}

/-- Adding a property without problems. -/
theorem Ready.addProperty (hs : s.Whole) {record : Bytes} {i : Nat}
    (h : Ready s [] (fun site => site.owner = .property record i) ks r) (pos : Position) (body : ClassBody) {f : Form}
    (hf : f.Whole) (hp : (addProperty s pos (body, r) f).2.problems = []) :
    ∃ q p ks', SpellsProperty f q ∧ q.name ∉ body.seen ∧
      (addProperty s pos (body, r) f).1 = ⟨body.properties ++ [p], q.name :: body.seen⟩ ∧
      Tracks s ks' (addProperty s pos (body, r) f).2 ∧
      KeysGrow [] (fun site => site.owner = .property record i) ks ks' ∧
      PropertyOf s.terms ks' ⟨.property record i, []⟩ q p := by
  rcases Reading.addProperty_cases s pos body r f with ⟨p, body', -, heq⟩ | ⟨p, b, hread, hseen, hopt, hcases⟩
  · rw [heq] at hp
    simp [Reading.report] at hp
  · have htraced := resolve_traced hs [] r p.type ks ⟨.property record i, []⟩ _ h (fun _ site' hc => hc.1.symm)
      (whole_of_readProperty hf hread)
    rcases hcases with ⟨r', hres, heq⟩ | ⟨id, r', hres, heq⟩ <;> rw [hres] at htraced <;> rw [heq] at hp ⊢
    · obtain ⟨_, _, _, hid, -⟩ := htraced hp
      cases hid
    · obtain ⟨_, term, ks', ⟨⟩, hterm, htracks, hgrow, hk⟩ := htraced hp
      refine ⟨⟨p.name, term, b⟩, ⟨p.name, id, b⟩, ks', ?_, hseen, rfl, htracks, hgrow, rfl, rfl, hk⟩
      exact (spellsProperty_iff hf pos).mpr ⟨p, hread, rfl, hterm, hopt⟩

/-- Places of the properties of a class, from the number `i` on. -/
def propertySites (record : Bytes) : Nat → Site → Prop := PlacesFrom fun j site => site.owner = .property record j

theorem Ready.behind_property {ks' : List TypeKey} {r' : Reading} {record : Bytes} {i : Nat}
    (h : Ready s [] (propertySites record i) ks r)
    (hgrow : KeysGrow [] (fun site => site.owner = .property record i) ks ks') (htracks : Tracks s ks' r') :
    Ready s [] (propertySites record (i + 1)) ks' r' := by
  refine h.behind (fun _ hsite => hsite) (fun j site hi hj => ?_) hgrow htracks
  rw [hi] at hj
  exact (Owner.property.inj hj).2

theorem Ready.addProperties (hs : s.Whole) {record : Bytes} {i : Nat} (h : Ready s [] (propertySites record i) ks r)
    (pos : Position) (body : ClassBody) {items : List Form} (hw : ∀ f ∈ items, f.Whole)
    (hp : (items.foldl (Typewright.addProperty s pos) (body, r)).2.problems = []) :
    ∃ qs ps ks', List.Forall₂ SpellsProperty items qs ∧ (qs.map PropertyTerm.name).Nodup ∧
      (∀ q ∈ qs, q.name ∉ body.seen) ∧
      (items.foldl (Typewright.addProperty s pos) (body, r)).1.properties = body.properties ++ ps ∧
      Tracks s ks' (items.foldl (Typewright.addProperty s pos) (body, r)).2 ∧
      KeysGrow [] (propertySites record i) ks ks' ∧ PropertiesOf s.terms ks' record i qs ps := by
  induction items generalizing i ks r body with
  | nil => exact ⟨[], [], ks, .nil, by simp, by simp, by simp, h.tracks, .refl _ _ _, .nil⟩
  | cons f items ih =>
    simp only [List.mem_cons, forall_eq_or_imp, List.foldl_cons] at hw hp ⊢
    have hhere : ∀ site : Site, site.owner = .property record i → propertySites record i site :=
      fun site hsite => .here hsite
    have hgrows := h.tracks.known.grows_addProperty s pos body f
    have hp₁ := Reading.no_problems_before (hgrows.2.grows_addProperties s pos _ items).1.problems hp
    obtain ⟨q, p, ks₁, hq, hseen, hbody, htracks, hgrow, hprop⟩ := (h.mono hhere).addProperty hs pos body hw.1 hp₁
    have hready := h.behind_property hgrow htracks
    obtain ⟨qs, ps, ks₂, hqs, hnodup, hseen₂, hbody₂, htracks₂, hgrow₂, hprops⟩ :=
      ih hready (Typewright.addProperty s pos (body, r) f).1 hw.2 hp
    rw [hbody] at hseen₂
    simp only [List.mem_cons, not_or] at hseen₂
    refine ⟨q :: qs, p :: ps, ks₂, .cons hq hqs, ?_, ?_, hbody₂.trans (by rw [hbody]; simp), htracks₂,
      (hgrow.mono hhere).trans (hgrow₂.mono fun _ => PlacesFrom.of_succ), ?_⟩
    · rw [List.map_cons, List.nodup_cons]
      refine ⟨fun hmem => ?_, hnodup⟩
      obtain ⟨q', hq', heq⟩ := List.mem_map.mp hmem
      exact (hseen₂ q' hq').1 heq
    · simpa using ⟨hseen, fun q' hq' => (hseen₂ q' hq').2⟩
    · unfold PropertiesOf
      rw [List.zipIdx_cons]
      exact .cons ⟨hprop.name, hprop.optional, getElem?_mono hgrow₂.kept hprop.type⟩ hprops

/-- Every declared name has its type. -/
def UnionScope.Complete (s : UnionScope) (ks : List TypeKey) : Prop := ∀ name ∈ s.names, .declared name ∈ ks

theorem UnionScope.Complete.mono {ks' : List TypeKey} (h : s.Complete ks) (hks : ks <+: ks') : s.Complete ks' :=
  fun name hname => hks.subset (h name hname)

/-- When all declared names have their types, valid types are resolved without problems. -/
theorem Ready.resolve_passes (hs : s.Whole) (hv : s.Valid) (h : Ready s [] free ks r) (hall : s.Complete ks) {site : Site}
    (hfree : ∀ site', site.Covers site' → free site') {t : TypeForm} (ht : t.Whole) {term : TypeTerm}
    (hterm : t.term? = some term) (hvalid : term.Valid s.names s.terms) (hp : r.problems = []) :
    (resolve s [] r t).2.problems = [] :=
  Typewright.resolve_passes hs hv [] r t ks site free h (fun _ => hfree) ht (fun name hname _ => hall name hname) term hterm
    hvalid (fun _ _ _ other ho => by simp at ho) hp

theorem addProperty_passes (hs : s.Whole) (hv : s.Valid) {record : Bytes} {i : Nat}
    (h : Ready s [] (fun site => site.owner = .property record i) ks r) (hall : s.Complete ks) (pos : Position)
    {body : ClassBody} {f : Form} (hf : f.Whole) {q : PropertyTerm} (hq : SpellsProperty f q) (hseen : q.name ∉ body.seen)
    (hvalid : q.type.Valid s.names s.terms) (hp : r.problems = []) :
    (addProperty s pos (body, r) f).2.problems = [] ∧ (addProperty s pos (body, r) f).1.seen = q.name :: body.seen := by
  obtain ⟨p, hread, hname, hterm, hopt⟩ := (spellsProperty_iff hf pos).mp hq
  have hcovers : ∀ site', Site.Covers ⟨.property record i, []⟩ site' → site'.owner = .property record i :=
    fun site' hc => hc.1.symm
  have hres := h.resolve_passes hs hv hall hcovers (whole_of_readProperty hf hread) hterm hvalid hp
  unfold addProperty
  simp only [hread, hname, hseen, if_false, hopt]
  split <;> rename_i hr <;> rw [hr] at hres <;> exact ⟨hres, rfl⟩

theorem addProperties_passes (hs : s.Whole) (hv : s.Valid) {record : Bytes} {i : Nat}
    (h : Ready s [] (propertySites record i) ks r) (hall : s.Complete ks) (pos : Position) (body : ClassBody)
    {items : List Form} (hw : ∀ f ∈ items, f.Whole) {qs : List PropertyTerm} (hqs : List.Forall₂ SpellsProperty items qs)
    (hnodup : (qs.map PropertyTerm.name).Nodup) (hseen : ∀ q ∈ qs, q.name ∉ body.seen)
    (hvalid : ∀ q ∈ qs, q.type.Valid s.names s.terms) (hp : r.problems = []) :
    (items.foldl (addProperty s pos) (body, r)).2.problems = [] := by
  induction hqs generalizing i ks r body with
  | nil => exact hp
  | @cons f q items qs hq _ ih =>
    simp only [List.mem_cons, forall_eq_or_imp, List.foldl_cons, List.map_cons, List.nodup_cons] at hw hseen hvalid hnodup ⊢
    have hhere : ∀ site : Site, site.owner = .property record i → propertySites record i site :=
      fun site hsite => .here hsite
    obtain ⟨hp₁, hseen₁⟩ := addProperty_passes hs hv (h.mono hhere) hall pos hw.1 hq hseen.1 hvalid.1 hp
    obtain ⟨-, -, ks₁, -, -, -, htracks, hgrow, -⟩ := (h.mono hhere).addProperty hs pos body hw.1 hp₁
    have hready := h.behind_property hgrow htracks
    refine ih hready (hall.mono hgrow.kept) (addProperty s pos (body, r) f).1 hw.2 hnodup.2 ?_ hvalid.2 hp₁
    intro q' hq'
    rw [hseen₁, List.mem_cons, not_or]
    exact ⟨fun heq => hnodup.1 (heq ▸ List.mem_map_of_mem hq'), hseen.2 q' hq'⟩

/-! ## Classes -/

/-- Giving a class its properties changes no other type. -/
theorem Tracks.putProperties (h : Tracks s ks r) {id : TypeId} {name : Bytes} {old ps : List Property}
    (hk : ks[id]? = some (.declared name)) (hn : r.graph.node? id = some (.record name old))
    (hps : ∀ p ∈ ps, p.type < r.graph.size) : Tracks s ks { r with graph := r.graph.putProperties id ps } where
  known := ⟨h.known.wellFormed.putProperties hps, by simpa only [Graph.size_putProperties] using h.known.built⟩
  length := by rw [h.length, Graph.size_putProperties]
  nodup := h.nodup
  node i k n hik hin := by
    rw [Graph.node?_putProperties hn] at hin
    by_cases hi : i = id
    · subst hi
      obtain rfl := Option.some.inj (hk.symm.trans hik)
      rw [if_pos rfl] at hin
      obtain rfl := Option.some.inj hin
      cases h.node i _ _ hk hn with
      | record hu => exact .record hu
    · rw [if_neg hi] at hin
      exact (h.node i k n hik hin).mono (fun _ _ => Graph.memberHint_congr fun l _ => r.graph.bare_putProperties id _ l)
        (List.prefix_refl ks)
  built := h.built
  built_some := h.built_some
  names := h.names

def HasClass (s : UnionScope) (ks : List TypeKey) (g : Graph) (name : Bytes) (qs : List PropertyTerm) : Prop :=
  ∃ ps, HasNode ks g name (.record name ps) ∧ PropertiesOf s.terms ks name 0 qs ps

/-- The reading behind the properties of a class. -/
def Reading.putClass (r : Reading) (name : Bytes) (ps : List Property) : Reading :=
  match r.built.lookup name with
  | some (some id) => { r with graph := r.graph.putProperties id ps }
  | _ => r

theorem Reading.problems_putClass (r : Reading) (name : Bytes) (ps : List Property) :
    (r.putClass name ps).problems = r.problems := by
  unfold putClass
  split <;> rfl

theorem buildClass_eq (s : UnionScope) (r : Reading) (d : Declaration) : buildClass s r d =
    match d.sections.get? "properties" with
    | none => r
    | some f =>
      match f.vector? with
      | none => r.report ⟨.propertiesNotVector, f.pos⟩
      | some items => (items.foldl (addProperty s f.pos) (⟨[], []⟩, r)).2.putClass d.name
          (items.foldl (addProperty s f.pos) (⟨[], []⟩, r)).1.properties := rfl

theorem Tracks.putClass (h : Tracks s ks r) {name : Bytes} {old ps : List Property}
    (hnode : HasNode ks r.graph name (.record name old)) (hps : ∀ p ∈ ps, p.type < r.graph.size) :
    Tracks s ks (r.putClass name ps) ∧ HasNode ks (r.putClass name ps).graph name (.record name ps) ∧
      (r.putClass name ps).graph.tops = r.graph.tops ∧
      ∀ other n, other ≠ name → HasNode ks r.graph other n → HasNode ks (r.putClass name ps).graph other n := by
  obtain ⟨id, hid, hn⟩ := hnode
  unfold Reading.putClass
  simp only [(h.built name id).mpr hid]
  refine ⟨h.putProperties hid hn hps, ⟨id, hid, ?_⟩, Graph.tops_putProperties _ _ _, ?_⟩
  · rw [Graph.node?_putProperties hn, if_pos rfl]
  · rintro other n hne ⟨id', hid', hn'⟩
    refine ⟨id', hid', ?_⟩
    rw [Graph.node?_putProperties hn, if_neg]
    · exact hn'
    · rintro rfl
      exact hne (by simpa using hid'.symm.trans hid)

/-- Building a class without problems. -/
theorem Ready.buildClass (hs : s.Whole) {d : Declaration} (h : Ready s [] (propertySites d.name 0) ks r)
    (hd : d.sections.Whole) (hnode : HasNode ks r.graph d.name (.record d.name []))
    (hp : (buildClass s r d).problems = []) :
    ∃ qs ks', SpellsBody d.sections .record (.record qs) ∧ (qs.map PropertyTerm.name).Nodup ∧
      Tracks s ks' (buildClass s r d) ∧ KeysGrow [] (propertySites d.name 0) ks ks' ∧
      HasClass s ks' (buildClass s r d).graph d.name qs ∧ (buildClass s r d).graph.tops = r.graph.tops ∧
      ∀ name n, name ≠ d.name → HasNode ks r.graph name n → HasNode ks' (buildClass s r d).graph name n := by
  have hbody : ∀ qs, d.sections.GivesOr "properties" (VectorOf SpellsProperty) [] qs →
      SpellsBody d.sections .record (.record qs) := fun qs => .record
  unfold Sections.GivesOr at hbody
  rw [buildClass_eq, hd.get?_eq] at hp ⊢
  cases hf : d.sections.lookup (Bytes.ascii "properties") with
  | none =>
    rw [hf] at hbody
    exact ⟨[], ks, hbody [] rfl, List.nodup_nil, h.tracks, .refl _ _ _, ⟨[], hnode, .nil⟩, rfl, fun _ _ _ hn => hn⟩
  | some f =>
    simp only [hf] at hp hbody ⊢
    cases hitems : f.vector? with
    | none => simp [hitems, Reading.report] at hp
    | some items =>
      simp only [hitems, Reading.problems_putClass] at hp ⊢
      have hw : ∀ f ∈ items, f.Whole := (hd.of_lookup hf).of_vector? hitems
      obtain ⟨hgrows, hknown⟩ := h.tracks.known.grows_addProperties s f.pos ⟨[], []⟩ items
      have hlt := h.tracks.known.addProperties_lt_size s f.pos items
      obtain ⟨qs, ps, ks', hqs, hnodup, -, hps, htracks, hgrow, hprops⟩ := h.addProperties hs f.pos ⟨[], []⟩ hw hp
      rw [List.nil_append] at hps
      obtain ⟨htracks', hclass, htops, hframe⟩ := htracks.putClass (hnode.mono hgrow.kept hgrows.graph.node?) hlt
      refine ⟨qs, ks', hbody qs ⟨items, hitems, hqs⟩, hnodup, htracks', hgrow, ⟨ps, hps ▸ hclass, hprops⟩,
        htops.trans hgrows.graph.tops, fun name n hne hn => hframe name n hne (hn.mono hgrow.kept hgrows.graph.node?)⟩

theorem HasClass.mono {ks' : List TypeKey} {g g' : Graph} {name : Bytes} {qs : List PropertyTerm}
    (h : HasClass s ks g name qs) (hks : ks <+: ks') (hg : ∀ n, HasNode ks g name n → HasNode ks' g' name n) :
    HasClass s ks' g' name qs := by
  obtain ⟨ps, hnode, hprops⟩ := h
  exact ⟨ps, hg _ hnode, hprops.mono hks⟩

/-- Places of the top-levels, from the number `i` on. -/
def topSites : Nat → Site → Prop := PlacesFrom fun j site => site.owner = .top j

/-- Places of the properties of some classes, and of all top-levels. -/
def bodySites (names : List Bytes) (site : Site) : Prop := (∃ c ∈ names, propertySites c 0 site) ∨ topSites 0 site

/-- What is still free when the first of some classes is built. -/
theorem Ready.behind_class {ks' : List TypeKey} {r' : Reading} {name : Bytes} {names : List Bytes}
    (h : Ready s [] (bodySites (name :: names)) ks r) (hname : name ∉ names)
    (hgrow : KeysGrow [] (propertySites name 0) ks ks') (htracks : Tracks s ks' r') :
    Ready s [] (bodySites names) ks' r' := by
  refine h.next hgrow htracks (fun site hsite => .inl ⟨name, by simp, hsite⟩) (fun site hsite => ?_) ?_
  · exact hsite.imp_left fun ⟨c, hc, hsite⟩ => ⟨c, by simp [hc], hsite⟩
  · rintro site ⟨i, -, hi⟩ (⟨c, hc, j, -, hj⟩ | ⟨j, -, hj⟩) <;> rw [hi] at hj
    · exact hname ((Owner.property.inj hj).1 ▸ hc)
    · cases hj

theorem Ready.buildClasses (hs : s.Whole) {l : List Declaration}
    (h : Ready s [] (bodySites (l.map Declaration.name)) ks r) (hnodup : (l.map Declaration.name).Nodup)
    (hw : ∀ d ∈ l, d.sections.Whole) (hnode : ∀ d ∈ l, HasNode ks r.graph d.name (.record d.name []))
    (hp : (l.foldl (Typewright.buildClass s) r).problems = []) :
    ∃ ks', ks <+: ks' ∧ Ready s [] (topSites 0) ks' (l.foldl (Typewright.buildClass s) r) ∧
      (∀ d ∈ l, ∃ qs, SpellsBody d.sections .record (.record qs) ∧ (qs.map PropertyTerm.name).Nodup ∧
        HasClass s ks' (l.foldl (Typewright.buildClass s) r).graph d.name qs) ∧
      (l.foldl (Typewright.buildClass s) r).graph.tops = r.graph.tops ∧
      ∀ name n, name ∉ l.map Declaration.name → HasNode ks r.graph name n →
        HasNode ks' (l.foldl (Typewright.buildClass s) r).graph name n := by
  induction l generalizing ks r with
  | nil => exact ⟨ks, List.prefix_refl ks, h.mono fun _ => .inr, by simp, rfl, fun _ _ _ hn => hn⟩
  | cons d l ih =>
    simp only [List.mem_cons, forall_eq_or_imp, List.foldl_cons, List.map_cons, List.nodup_cons, not_or] at *
    have hknown := (h.tracks.known.proceeds_buildClass s d).known
    have hp₁ := Reading.no_problems_before
      (hknown.proceeds_foldl (fun _ d hr => hr.proceeds_buildClass s d) l).problems hp
    have hready : Ready s [] (propertySites d.name 0) ks r := h.mono fun site hsite => .inl ⟨d.name, by simp, hsite⟩
    obtain ⟨qs, ks₁, hqs, hqsn, htracks, hgrow, hclass, htops, hframe⟩ := hready.buildClass hs hw.1 hnode.1 hp₁
    have hother : ∀ d' ∈ l, d'.name ≠ d.name := fun d' hd' heq => hnodup.1 (heq ▸ List.mem_map_of_mem hd')
    obtain ⟨ks₂, hks₂, hready₂, hclasses, htops₂, hframe₂⟩ := ih (h.behind_class hnodup.1 hgrow htracks) hnodup.2 hw.2
      (fun d' hd' => hframe _ _ (hother d' hd') (hnode.2 d' hd')) hp
    refine ⟨ks₂, hgrow.kept.trans hks₂, hready₂, ⟨⟨qs, hqs, hqsn, ?_⟩, hclasses⟩, htops₂.trans htops, ?_⟩
    · exact hclass.mono hks₂ fun n => hframe₂ _ n hnodup.1
    · exact fun name n hname hn => hframe₂ name n hname.2 (hframe name n hname.1 hn)

theorem buildClass_passes (hs : s.Whole) (hv : s.Valid) {d : Declaration} (h : Ready s [] (propertySites d.name 0) ks r)
    (hall : s.Complete ks) (hd : d.sections.Whole) {qs : List PropertyTerm}
    (hqs : SpellsBody d.sections .record (.record qs)) (hnodup : (qs.map PropertyTerm.name).Nodup)
    (hvalid : ∀ q ∈ qs, q.type.Valid s.names s.terms) (hp : r.problems = []) : (buildClass s r d).problems = [] := by
  cases hqs with
  | record hqs =>
    unfold Sections.GivesOr at hqs
    rw [buildClass_eq, hd.get?_eq]
    cases hf : d.sections.lookup (Bytes.ascii "properties") with
    | none => exact hp
    | some f =>
      simp only [hf] at hqs ⊢
      obtain ⟨items, hitems, hqs⟩ := hqs
      simp only [hitems, Reading.problems_putClass]
      exact addProperties_passes hs hv h hall f.pos ⟨[], []⟩ ((hd.of_lookup hf).of_vector? hitems) hqs hnodup (by simp)
        hvalid hp

theorem buildClasses_passes (hs : s.Whole) (hv : s.Valid) {l : List Declaration}
    (h : Ready s [] (bodySites (l.map Declaration.name)) ks r) (hall : s.Complete ks)
    (hnodup : (l.map Declaration.name).Nodup) (hw : ∀ d ∈ l, d.sections.Whole)
    (hnode : ∀ d ∈ l, HasNode ks r.graph d.name (.record d.name []))
    (hbody : ∀ d ∈ l, ∃ qs, SpellsBody d.sections .record (.record qs) ∧ (qs.map PropertyTerm.name).Nodup ∧
      ∀ q ∈ qs, q.type.Valid s.names s.terms) (hp : r.problems = []) : (l.foldl (buildClass s) r).problems = [] := by
  induction l generalizing ks r with
  | nil => exact hp
  | cons d l ih =>
    simp only [List.mem_cons, forall_eq_or_imp, List.foldl_cons, List.map_cons, List.nodup_cons] at *
    obtain ⟨qs, hqs, hqsn, hvalid⟩ := hbody.1
    have hready : Ready s [] (propertySites d.name 0) ks r := h.mono fun site hsite => .inl ⟨d.name, by simp, hsite⟩
    have hp₁ := buildClass_passes hs hv hready hall hw.1 hqs hqsn hvalid hp
    obtain ⟨-, ks₁, -, -, htracks, hgrow, -, -, hframe⟩ := hready.buildClass hs hw.1 hnode.1 hp₁
    have hother : ∀ d' ∈ l, d'.name ≠ d.name := fun d' hd' heq => hnodup.1 (heq ▸ List.mem_map_of_mem hd')
    exact ih (h.behind_class hnodup.1 hgrow htracks) (hall.mono hgrow.kept) hnodup.2 hw.2
      (fun d' hd' => hframe _ _ (hother d' hd') (hnode.2 d' hd')) hbody.2 hp₁

/-! ## Top-levels -/

theorem Tracks.putTop (h : Tracks s ks r) (name : Bytes) {id : TypeId} (hid : id < r.graph.size) :
    Tracks s ks { r with graph := r.graph.putTop name id } where
  known := ⟨h.known.wellFormed.putTop hid, h.known.built⟩
  length := h.length
  nodup := h.nodup
  node i k n hk hn := (h.node i k n hk hn).mono (fun _ _ => Graph.memberHint_congr fun _ _ => rfl) (List.prefix_refl ks)
  built := h.built
  built_some := h.built_some
  names := h.names

/-- Adding a top-level without problems. -/
theorem Ready.addTopLevel (hs : s.Whole) {i : Nat} (h : Ready s [] (fun site => site.owner = .top i) ks r)
    (pos : Position) {f : Form} (hf : f.Whole) (hp : (addTopLevel s pos r f).problems = []) :
    ∃ (t : TopTerm) (id : TypeId) (ks' : List TypeKey), SpellsTop f t ∧ Tracks s ks' (addTopLevel s pos r f) ∧
      KeysGrow [] (fun site => site.owner = .top i) ks ks' ∧ ks'[id]? = some (t.type.key s.terms ⟨.top i, []⟩) ∧
      (addTopLevel s pos r f).graph.tops = r.graph.tops ++ [⟨t.name, id⟩] ∧
      ∀ j n, r.graph.node? j = some n → (addTopLevel s pos r f).graph.node? j = some n := by
  unfold Typewright.addTopLevel at hp ⊢
  cases hread : readTopLevel pos f with
  | error p => simp [hread, Reading.report] at hp
  | ok x =>
    obtain ⟨name, t⟩ := x
    simp only [hread] at hp ⊢
    have hcovers : ∀ site', Site.Covers ⟨.top i, []⟩ site' → site'.owner = .top i := fun site' hc => hc.1.symm
    have htraced := resolve_traced hs [] r t ks ⟨.top i, []⟩ _ h (fun _ => hcovers) (whole_of_readTopLevel hf hread)
    have hresolves := h.tracks.known.resolves s [] t
    rcases hres : resolve s [] r t with ⟨_ | id, r'⟩ <;> rw [hres] at htraced hresolves <;> simp only [hres] at hp ⊢
    · obtain ⟨_, _, _, hid, -⟩ := htraced hp
      cases hid
    · obtain ⟨_, term, ks', ⟨⟩, hterm, htracks, hgrow, hk⟩ := htraced hp
      refine ⟨⟨name, term⟩, id, ks', (spellsTop_iff hf pos).mpr ⟨t, hread, hterm⟩,
        htracks.putTop name (hresolves.lt_size id (by simp)), hgrow, hk, ?_, hresolves.grows.graph.node?⟩
      rw [← hresolves.grows.graph.tops]
      rfl

theorem Ready.behind_top {ks' : List TypeKey} {r' : Reading} {i : Nat} (h : Ready s [] (topSites i) ks r)
    (hgrow : KeysGrow [] (fun site => site.owner = .top i) ks ks') (htracks : Tracks s ks' r') :
    Ready s [] (topSites (i + 1)) ks' r' := by
  refine h.behind (fun _ hsite => hsite) (fun j site hi hj => ?_) hgrow htracks
  rw [hi] at hj
  exact Owner.top.inj hj

theorem Ready.addTopLevels (hs : s.Whole) {i : Nat} (h : Ready s [] (topSites i) ks r) (pos : Position)
    {items : List Form} (hw : ∀ f ∈ items, f.Whole) (hp : (items.foldl (Typewright.addTopLevel s pos) r).problems = []) :
    ∃ ts tops ks', List.Forall₂ SpellsTop items ts ∧ TopsOf s.terms ks' i ts tops ∧ ks <+: ks' ∧
      Tracks s ks' (items.foldl (Typewright.addTopLevel s pos) r) ∧
      (items.foldl (Typewright.addTopLevel s pos) r).graph.tops = r.graph.tops ++ tops ∧
      ∀ j n, r.graph.node? j = some n → (items.foldl (Typewright.addTopLevel s pos) r).graph.node? j = some n := by
  induction items generalizing i ks r with
  | nil => exact ⟨[], [], ks, .nil, .nil, List.prefix_refl ks, h.tracks, by simp, fun _ _ hn => hn⟩
  | cons f items ih =>
    simp only [List.mem_cons, forall_eq_or_imp, List.foldl_cons] at hw hp ⊢
    have hknown := (h.tracks.known.proceeds_addTopLevel s pos f).known
    have hp₁ := Reading.no_problems_before
      (hknown.proceeds_foldl (fun _ f hr => hr.proceeds_addTopLevel s pos f) items).problems hp
    have hready : Ready s [] (fun site => site.owner = .top i) ks r := h.mono fun site hsite => .here hsite
    obtain ⟨t, id, ks₁, ht, htracks, hgrow, hk, htops, hframe⟩ := hready.addTopLevel hs pos hw.1 hp₁
    obtain ⟨ts, tops, ks₂, hts, htopsOf, hks, htracks₂, htops₂, hframe₂⟩ := ih (h.behind_top hgrow htracks) hw.2 hp
    refine ⟨t :: ts, ⟨t.name, id⟩ :: tops, ks₂, .cons ht hts, ?_, hgrow.kept.trans hks, htracks₂, ?_,
      fun j n hn => hframe₂ j n (hframe j n hn)⟩
    · unfold TopsOf
      rw [List.zipIdx_cons]
      exact .cons ⟨rfl, getElem?_mono hks hk⟩ htopsOf
    · rw [htops₂, htops, List.append_assoc]
      rfl

theorem addTopLevel_passes (hs : s.Whole) (hv : s.Valid) {i : Nat} (h : Ready s [] (fun site => site.owner = .top i) ks r)
    (hall : s.Complete ks) (pos : Position) {f : Form} (hf : f.Whole) {t : TopTerm} (ht : SpellsTop f t)
    (hvalid : t.type.Valid s.names s.terms) (hp : r.problems = []) : (addTopLevel s pos r f).problems = [] := by
  obtain ⟨form, hread, hterm⟩ := (spellsTop_iff hf pos).mp ht
  have hcovers : ∀ site', Site.Covers ⟨.top i, []⟩ site' → site'.owner = .top i := fun site' hc => hc.1.symm
  have hres := h.resolve_passes hs hv hall hcovers (whole_of_readTopLevel hf hread) hterm hvalid hp
  unfold addTopLevel
  simp only [hread]
  split <;> rename_i hr <;> rw [hr] at hres <;> exact hres

theorem addTopLevels_passes (hs : s.Whole) (hv : s.Valid) {i : Nat} (h : Ready s [] (topSites i) ks r)
    (hall : s.Complete ks) (pos : Position) {items : List Form} (hw : ∀ f ∈ items, f.Whole) {ts : List TopTerm}
    (hts : List.Forall₂ SpellsTop items ts) (hvalid : ∀ t ∈ ts, t.type.Valid s.names s.terms) (hp : r.problems = []) :
    (items.foldl (addTopLevel s pos) r).problems = [] := by
  induction hts generalizing i ks r with
  | nil => exact hp
  | @cons f t items ts ht _ ih =>
    simp only [List.mem_cons, forall_eq_or_imp, List.foldl_cons] at hw hvalid ⊢
    have hready : Ready s [] (fun site => site.owner = .top i) ks r := h.mono fun site hsite => .here hsite
    have hp₁ := addTopLevel_passes hs hv hready hall pos hw.1 ht hvalid.1 hp
    obtain ⟨-, -, ks₁, -, htracks, hgrow, -⟩ := hready.addTopLevel hs pos hw.1 hp₁
    exact ih (h.behind_top hgrow htracks) (hall.mono hgrow.kept) hw.2 hvalid.2 hp₁

end

end Typewright
