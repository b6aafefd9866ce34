import Typewright.Proofs.Description.Tracking

/-!
# Resolving a type without problems

* `Ready` : a reading that has keys, and places where no type is built so far;
* `KeysGrow` : which keys resolving adds. Types that are written in place stand at free places, and what is built on
  the way belongs to unions that were not open;
* `resolve_traced` : resolving without problems gives a type with the key of the written type;
* `resolve_passes` : resolving a valid type is without problems.
-/

namespace Typewright

open Relation

/-! ## Free places -/

/-- The keys that resolving adds while the unions `opened` are open: their places are free ones, or belong to unions
that are built on the way. -/
structure KeysGrow (opened : List Bytes) (free : Site → Prop) (ks ks' : List TypeKey) : Prop where
  kept : ks <+: ks'
  unbuilt : ∀ name ∈ opened, .declared name ∈ ks' → .declared name ∈ ks
  site : ∀ k ∈ ks', ∀ site, k.site? = some site → k ∈ ks ∨ free site ∨
    ∃ name, site.owner = .union name ∧ name ∉ opened ∧ .declared name ∉ ks ∧ .declared name ∈ ks'

/-- A reading with keys. No type that is written in place stands at a free place, or belongs to a union that is neither
built nor open. -/
structure Ready (s : UnionScope) (opened : List Bytes) (free : Site → Prop) (ks : List TypeKey) (r : Reading) : Prop where
  tracks : Tracks s ks r
  settled : ∀ k ∈ ks, ∀ site, k.site? = some site → ∀ name, site.owner = .union name →
    .declared name ∈ ks ∨ name ∈ opened
  unused : ∀ k ∈ ks, ∀ site, k.site? = some site → ¬ free site
  owned : ∀ site, free site → ∀ name, site.owner = .union name → name ∈ opened

section

variable {s : UnionScope} {opened : List Bytes} {free free₁ free₂ : Site → Prop} {ks ks₁ ks₂ : List TypeKey}
  {r r₁ : Reading}

theorem KeysGrow.refl (opened : List Bytes) (free : Site → Prop) (ks : List TypeKey) : KeysGrow opened free ks ks :=
  ⟨List.prefix_refl ks, fun _ _ h => h, fun _ hk _ _ => .inl hk⟩

theorem KeysGrow.mono (h : KeysGrow opened free₁ ks ks₁) (hfree : ∀ site, free₁ site → free site) :
    KeysGrow opened free ks ks₁ :=
  ⟨h.kept, h.unbuilt, fun k hk site hsite => (h.site k hk site hsite).imp_right (Or.imp_left (hfree site))⟩

theorem KeysGrow.trans (h : KeysGrow opened free ks ks₁) (h' : KeysGrow opened free ks₁ ks₂) :
    KeysGrow opened free ks ks₂ where
  kept := h.kept.trans h'.kept
  unbuilt name hname hmem := h.unbuilt name hname (h'.unbuilt name hname hmem)
  site k hk site hsite := by
    rcases h'.site k hk site hsite with hk | hfree | ⟨name, howner, hname, hnew, hmem⟩
    · rcases h.site k hk site hsite with hk | hfree | ⟨name, howner, hname, hnew, hmem⟩
      · exact .inl hk
      · exact .inr (.inl hfree)
      · exact .inr (.inr ⟨name, howner, hname, hnew, h'.kept.subset hmem⟩)
    · exact .inr (.inl hfree)
    · exact .inr (.inr ⟨name, howner, hname, fun hold => hnew (h.kept.subset hold), hmem⟩)

theorem KeysGrow.snoc (h : KeysGrow opened free ks ks₁) {k : TypeKey} (hsite : ∀ site, k.site? = some site → free site)
    (hname : ∀ name, k = .declared name → name ∉ opened) : KeysGrow opened free ks (ks₁ ++ [k]) where
  kept := h.kept.trans (List.prefix_append _ _)
  unbuilt name hopen hmem := by
    rcases List.mem_append.mp hmem with hmem | hmem
    · exact h.unbuilt name hopen hmem
    · exact absurd hopen (hname name (List.mem_singleton.mp hmem).symm)
  site k' hk' site hsite' := by
    rcases List.mem_append.mp hk' with hk' | hk'
    · rcases h.site k' hk' site hsite' with hk | hfree | ⟨name, howner, hname, hnew, hmem⟩
      · exact .inl hk
      · exact .inr (.inl hfree)
      · exact .inr (.inr ⟨name, howner, hname, hnew, List.mem_append_left _ hmem⟩)
    · rw [List.mem_singleton.mp hk'] at hsite'
      exact .inr (.inl (hsite site hsite'))

theorem Ready.mono (h : Ready s opened free ks r) (hfree : ∀ site, free₁ site → free site) :
    Ready s opened free₁ ks r :=
  ⟨h.tracks, h.settled, fun k hk site hsite hf => h.unused k hk site hsite (hfree site hf),
    fun site hf => h.owned site (hfree site hf)⟩

/-- What is still free behind a step. -/
theorem Ready.next (h : Ready s opened free ks r) (hgrow : KeysGrow opened free₁ ks ks₁) (htracks : Tracks s ks₁ r₁)
    (h₁ : ∀ site, free₁ site → free site) (h₂ : ∀ site, free₂ site → free site)
    (hdisjoint : ∀ site, free₁ site → ¬ free₂ site) : Ready s opened free₂ ks₁ r₁ where
  tracks := htracks
  settled k hk site hsite name howner := by
    rcases hgrow.site k hk site hsite with hk | hfree | ⟨name', howner', -, -, hmem⟩
    · exact (h.settled k hk site hsite name howner).imp_left fun hmem => hgrow.kept.subset hmem
    · exact .inr (h.owned site (h₁ site hfree) name howner)
    · obtain rfl : name' = name := by simpa [howner'] using howner
      exact .inl hmem
  unused k hk site hsite hfree₂ := by
    rcases hgrow.site k hk site hsite with hk | hfree | ⟨name, howner, hname, -, -⟩
    · exact h.unused k hk site hsite (h₂ site hfree₂)
    · exact hdisjoint site hfree hfree₂
    · exact hname (h.owned site (h₂ site hfree₂) name howner)
  owned site hfree := h.owned site (h₂ site hfree)

/-- A free place stays free while other places are used. -/
theorem Ready.fresh (h : Ready s opened free ks r) (hgrow : KeysGrow opened free₁ ks ks₁) {site : Site} (hfree : free site)
    (hfree₁ : ¬ free₁ site) {k : TypeKey} (hk : k ∈ ks₁) : k.site? ≠ some site := by
  intro hsite
  rcases hgrow.site k hk site hsite with hk | hf | ⟨name, howner, hname, -, -⟩
  · exact h.unused k hk site hsite hfree
  · exact hfree₁ hf
  · exact hname (h.owned site hfree name howner)

/-- The places of a union that is neither built nor open are free when it is opened. -/
theorem Ready.opening (h : Ready s opened free ks r) {name : Bytes} (hbuilt : .declared name ∉ ks)
    (hopen : name ∉ opened) : Ready s (name :: opened) (fun site => site.owner = .union name) ks r where
  tracks := h.tracks
  settled k hk site hsite other howner := (h.settled k hk site hsite other howner).imp_right (List.mem_cons_of_mem name)
  unused k hk site hsite howner := (h.settled k hk site hsite name howner).elim hbuilt hopen
  owned site hsite other howner := by
    obtain rfl : name = other := by simpa [hsite] using howner
    exact List.mem_cons_self

/-- When an opened union is built, it is closed again. -/
theorem KeysGrow.close {name : Bytes} (h : KeysGrow (name :: opened) (fun site => site.owner = .union name) ks ks₁)
    (hbuilt : .declared name ∉ ks) (hopen : name ∉ opened) (free : Site → Prop) :
    KeysGrow opened free ks (ks₁ ++ [.declared name]) where
  kept := h.kept.trans (List.prefix_append _ _)
  unbuilt other hother hmem := by
    rcases List.mem_append.mp hmem with hmem | hmem
    · exact h.unbuilt other (List.mem_cons_of_mem name hother) hmem
    · obtain rfl : other = name := by simpa using hmem
      exact absurd hother hopen
  site k hk site hsite := by
    rcases List.mem_append.mp hk with hk | hk
    · rcases h.site k hk site hsite with hk | howner | ⟨other, howner, hother, hnew, hmem⟩
      · exact .inl hk
      · exact .inr (.inr ⟨name, howner, hopen, hbuilt, by simp⟩)
      · exact .inr (.inr ⟨other, howner, fun ho => hother (List.mem_cons_of_mem name ho), hnew,
          List.mem_append_left _ hmem⟩)
    · rw [List.mem_singleton.mp hk] at hsite
      cases hsite

end

/-! ### Places that are numbered -/

/-- Numbered places, from the number `i` on. -/
def PlacesFrom (place : Nat → Site → Prop) (i : Nat) (site : Site) : Prop := ∃ j ≥ i, place j site

section

variable {place : Nat → Site → Prop} {i : Nat} {site : Site}

theorem PlacesFrom.here (h : place i site) : PlacesFrom place i site := ⟨i, Nat.le_refl i, h⟩

theorem PlacesFrom.of_succ (h : PlacesFrom place (i + 1) site) : PlacesFrom place i site := by
  obtain ⟨j, hj, hsite⟩ := h
  exact ⟨j, by omega, hsite⟩

/-- The later places are still free when the first one is used. -/
theorem Ready.behind {s : UnionScope} {opened : List Bytes} {free : Site → Prop} {ks ks₁ : List TypeKey} {r r₁ : Reading}
    (h : Ready s opened free ks r) (hfree : ∀ site, PlacesFrom place i site → free site)
    (hplace : ∀ j site, place i site → place j site → i = j) (hgrow : KeysGrow opened (place i) ks ks₁)
    (htracks : Tracks s ks₁ r₁) : Ready s opened (PlacesFrom place (i + 1)) ks₁ r₁ := by
  refine h.next hgrow htracks (fun site hsite => hfree site (.here hsite)) (fun site hsite => hfree site hsite.of_succ) ?_
  rintro site hi ⟨j, hj, hsite⟩
  have := hplace j site hi hsite
  omega

end

/-- The places in the parts of a place, from the number `i` on. -/
def Site.PartsFrom (site : Site) (i : Nat) : Site → Prop := PlacesFrom (fun j => (site.child j).Covers) i

theorem Site.PartsFrom.covers {site site' : Site} {i : Nat} (h : site.PartsFrom i site') : site.Covers site' := by
  obtain ⟨j, -, hc⟩ := h
  exact (site.covers_child j).trans hc

/-! ## Soundness -/

/-- Whether a written type is just a name. -/
def TypeForm.isName : TypeForm → Bool
  | .named _ _ => true
  | _ => false

/-- The unions of a scope are among its names, and no place in their members was left empty. -/
structure UnionScope.Whole (s : UnionScope) : Prop where
  names : ∀ name u, s.unions.lookup name = some u → name ∈ s.names
  members : ∀ name u ts, s.unions.lookup name = some u → u.members = some ts → ∀ t ∈ ts, t.Whole

/-- If it goes without problems, resolving gives a type with the key of the written type. -/
def Traced (s : UnionScope) (opened : List Bytes) (r : Reading) (t : TypeForm) (x : Option TypeId × Reading) : Prop :=
  ∀ ks site free, Ready s opened free ks r → (t.isName = false → ∀ site', site.Covers site' → free site') → t.Whole →
    x.2.problems = [] → ∃ id term ks', x.1 = some id ∧ t.term? = some term ∧ Tracks s ks' x.2 ∧
      KeysGrow opened free ks ks' ∧ ks'[id]? = some (term.key s.terms site)

/-- If it goes without problems, resolving gives types with the keys of the written types, which are the parts of a
place from `i` on. -/
def TracedAll (s : UnionScope) (opened : List Bytes) (r : Reading) (ts : List TypeForm)
    (x : List (Option TypeId) × Reading) : Prop :=
  ∀ ks site i free, Ready s opened free ks r → (∀ site', Site.PartsFrom site i site' → free site') →
    (∀ t ∈ ts, t.Whole) → x.2.problems = [] → ∃ ids terms ks', x.1 = ids.map some ∧ TypeForm.terms? ts = some terms ∧
      Tracks s ks' x.2 ∧ KeysGrow opened free ks ks' ∧ HasKeys ks' ids (TypeTerm.keys s.terms site i terms)

theorem Reading.makeUnion_map_some (r : Reading) (pos : Position) (hint : Bytes) (ids : List TypeId) :
    r.makeUnion pos hint (ids.map some) = if (distinct ids).length < 2 then (none, r.report ⟨.tooFewMembers, pos⟩)
      else (some r.graph.size,
        { r with graph := (r.graph.push (.union (r.graph.unionHint hint (distinct ids)) (distinct ids))).2 }) := by
  rcases r.makeUnion_cases pos hint (ids.map some) with ⟨hnone, -⟩ | ⟨ids', hids, h⟩
  · simp at hnone
  · obtain rfl : ids = ids' := List.map_injective_iff.mpr (Option.some_injective _) hids
    rcases h with ⟨h₂, h⟩ | ⟨h₂, h⟩
    · rw [h, if_pos h₂]
    · rw [h, if_neg h₂]

theorem Reading.no_problems_before {r r' : Reading} (h : r.problems <+: r'.problems) (h' : r'.problems = []) :
    r.problems = [] :=
  List.prefix_nil.mp (h' ▸ h)

section

variable {s : UnionScope} {opened : List Bytes} {free free₁ : Site → Prop} {ks ks₁ : List TypeKey} {r r₁ : Reading}
  {ids : List TypeId}

/-- Making a union of members without problems. -/
theorem Tracks.makeUnion_of_no_problems (h : Tracks s ks r) {l : List TypeKey} (hids : HasKeys ks ids l) (pos : Position)
    (hint : Bytes) (hp : (r.makeUnion pos hint (ids.map some)).2.problems = []) :
    ¬ (distinct ids).length < 2 ∧
      r.graph.Extends (r.graph.push (.union (r.graph.unionHint hint (distinct ids)) (distinct ids))).2 ∧
      r.makeUnion pos hint (ids.map some) = (some r.graph.size,
        { r with graph := (r.graph.push (.union (r.graph.unionHint hint (distinct ids)) (distinct ids))).2 }) := by
  have h₂ : ¬ (distinct ids).length < 2 := by
    intro h₂
    rw [Reading.makeUnion_map_some, if_pos h₂] at hp
    simp [Reading.report] at hp
  refine ⟨h₂, Graph.extends_push (Graph.growsTo_union _ (fun id hid => ?_) h₂), ?_⟩
  · rw [← h.length]
    exact hids.lt_length hid
  · rw [Reading.makeUnion_map_some, if_neg h₂]

theorem Wraps.isName {wrap : TypeForm → TypeForm} {make : Graph → TypeId → TypeId × Graph} (h : Wraps wrap make)
    (t : TypeForm) : (wrap t).isName = false := by
  cases h <;> rfl

theorem Wraps.whole {wrap : TypeForm → TypeForm} {make : Graph → TypeId → TypeId × Graph} (h : Wraps wrap make)
    {t : TypeForm} (ht : (wrap t).Whole) : t.Whole := by
  cases h <;> cases ht <;> assumption

/-- Making a type nullable at a free place. -/
theorem Ready.internNullable (h : Ready s opened free ks r) {site : Site} (hfree : ∀ site', site.Covers site' → free site')
    (hgrow : KeysGrow opened (site.child 0).Covers ks ks₁) (htracks : Tracks s ks₁ r₁) {term : TypeTerm} {id : TypeId}
    (hk : ks₁[id]? = some (term.key s.terms (site.child 0))) :
    ∃ ks₂, Tracks s ks₂ { r₁ with graph := (r₁.graph.internNullable id).2 } ∧ KeysGrow opened free ks ks₂ ∧
      ks₂[(r₁.graph.internNullable id).1]? = some ((TypeTerm.nullable term).key s.terms site) := by
  have hid : id < r₁.graph.size := htracks.length ▸ (List.getElem?_eq_some_iff.mp hk).1
  have hext := (Wraps.nullable.extends hid).1
  have hgrow' : KeysGrow opened free ks ks₁ :=
    hgrow.mono fun site' hc => hfree site' ((site.covers_child 0).trans hc)
  have hnull := htracks.allowsNull_iff hk
  rcases r₁.graph.internNullable_cases id with ⟨htest, heq⟩ | ⟨htest, heq⟩ <;> rw [heq] at hext ⊢
  · refine ⟨ks₁, htracks, hgrow', ?_⟩
    rw [TypeTerm.key_nullable_of_allowsNull (hnull.mp htest)]
    exact hk
  · have hnot : ¬ AllowsNull s.terms term := fun ha => by simp [hnull.mpr ha] at htest
    rw [TypeTerm.key_nullable_of_not_allowsNull hnot]
    have hfresh : .nullable site (term.key s.terms (site.child 0)) ∉ ks₁ := fun hmem =>
      h.fresh hgrow (hfree site site.covers_refl) (site.not_child_covers 0) hmem rfl
    refine ⟨_, htracks.push_anonymous hext hfresh (by simp) (.nullable hk), hgrow'.snoc ?_ (by simp), ?_⟩
    · rintro _ ⟨⟩
      exact hfree site site.covers_refl
    · exact getElem?_concat_eq_some.mpr (.inr ⟨htracks.length.symm, rfl⟩)

/-- Making a union at a free place. -/
theorem Ready.pushUnion (h : Ready s opened free ks r) {site : Site} (hfree : ∀ site', site.Covers site' → free site')
    (hgrow : KeysGrow opened (site.PartsFrom 0) ks ks₁) (htracks : Tracks s ks₁ r₁)
    {terms : List TypeTerm} (hkeys : HasKeys ks₁ ids (TypeTerm.keys s.terms site 0 terms))
    (h₂ : ¬ (distinct ids).length < 2)
    (hext : r₁.graph.Extends (r₁.graph.push (.union (r₁.graph.unionHint [] (distinct ids)) (distinct ids))).2) :
    ∃ ks₂, Tracks s ks₂
        { r₁ with graph := (r₁.graph.push (.union (r₁.graph.unionHint [] (distinct ids)) (distinct ids))).2 } ∧
      KeysGrow opened free ks ks₂ ∧ ks₂[r₁.graph.size]? = some ((TypeTerm.union terms).key s.terms site) := by
  have hgrow' : KeysGrow opened free ks ks₁ :=
    hgrow.mono fun site' hc => hfree site' hc.covers
  have hfresh : .union site (TypeTerm.keys s.terms site 0 terms) ∉ ks₁ := fun hmem =>
    h.fresh hgrow (hfree site site.covers_refl) (fun ⟨j, _, hc⟩ => site.not_child_covers j hc) hmem rfl
  rw [TypeTerm.key]
  refine ⟨_, htracks.push_anonymous hext hfresh (by simp) (.union hkeys h₂), hgrow'.snoc ?_ (by simp), ?_⟩
  · rintro _ ⟨⟩
    exact hfree site site.covers_refl
  · exact getElem?_concat_eq_some.mpr (.inr ⟨htracks.length.symm, rfl⟩)

end

theorem resolveRules_traced {s : UnionScope} (hs : s.Whole) : ResolveRules s (Traced s) (TracedAll s) where
  absent opened r ks site free h _ hwhole := by cases hwhole
  invalid opened r p ks site free h _ _ hp := by simp [Reading.report] at hp
  primitive opened r pos name p hname ks site free h _ _ _ := by
    refine ⟨p.id, .primitive p, ks, rfl, ?_, h.tracks, .refl _ _ _, ?_⟩
    · simp [TypeForm.term?, TypeTerm.ofName, hname]
    · rw [TypeTerm.key]
      exact h.tracks.key_primitive p
  built opened r pos name id hname hid ks site free h _ _ _ := by
    cases id with
    | none => exact absurd hid (h.tracks.built_some name)
    | some id =>
      refine ⟨id, .declared name, ks, rfl, ?_, h.tracks, .refl _ _ _, ?_⟩
      · simp [TypeForm.term?, TypeTerm.ofName, hname]
      · rw [TypeTerm.key]
        exact (h.tracks.built name id).mp hid
  unknown opened r pos name _ _ _ ks site free h _ _ hp := by simp [Reading.report] at hp
  recursive opened r pos name u _ _ _ _ ks site free h _ _ hp := by simp [Reading.report] at hp
  missing opened r pos name u _ _ _ _ _ ks site free h _ _ hp := by simp [Reading.report, Reading.define] at hp
  declared opened r pos name u ts ids r₁ id r₂ hname hid hu hopen hm hall ih hmake ks site free h _ _ hp := by
    have hnew : .declared name ∉ ks := by
      rw [h.tracks.declared_mem_iff, hid]
      simp
    have hres := (Reading.resolveRules_known s).holds_all (name :: opened) r ts h.tracks.known
    rw [hall] at hres
    have hunion := hres.known.makeUnion u.pos name hres.lt_size
    rw [hmake] at hunion
    obtain ⟨ids, terms, ks₁, rfl, hterms, htracks, hgrow, hkeys⟩ := ih ks ⟨.union name, []⟩ 0 _ (h.opening hnew hopen)
      (fun site' hc => hc.covers.1.symm) (hs.members name u ts hu hm) (Reading.no_problems_before hunion.grows.problems hp)
    obtain ⟨h₂, hext, heq⟩ := htracks.makeUnion_of_no_problems hkeys u.pos name (by rw [hmake]; exact hp)
    obtain ⟨rfl, rfl⟩ := Prod.mk.inj (hmake.symm.trans heq)
    have hnew₁ : .declared name ∉ ks₁ := fun hmem => hnew (hgrow.unbuilt name (by simp) hmem)
    have hts : s.terms name = some terms := by simp [UnionScope.terms, hu, hm, hterms]
    refine ⟨r₁.graph.size, .declared name, ks₁ ++ [.declared name], rfl, ?_,
      htracks.push_declared hext hnew₁ (hs.names name u hu) (.declared hts hkeys h₂), hgrow.close hnew hopen free, ?_⟩
    · simp [TypeForm.term?, TypeTerm.ofName, hname]
    · rw [TypeTerm.key]
      exact getElem?_concat_eq_some.mpr (.inr ⟨htracks.length.symm, rfl⟩)
  wrap_none opened r t r₁ wrap make hwrap ih ks site free h hfree hwhole hp := by
    obtain ⟨id, _, _, hid, -⟩ := ih ks site free h (fun _ => hfree (hwrap.isName t)) (hwrap.whole hwhole) hp
    cases hid
  wrap opened r t id r₁ wrap make hwrap hres ih ks site free h hfree hwhole hp := by
    have hall := hfree (hwrap.isName t)
    have ht := hwrap.whole hwhole
    clear hfree hwhole
    cases hwrap with
    | array =>
      obtain ⟨_, term, ks₁, ⟨⟩, hterm, htracks, hgrow, hk⟩ := ih ks site free h (fun _ => hall) ht hp
      obtain ⟨ks₂, htracks₂, hk₂, hks⟩ := htracks.intern_array hk
      refine ⟨_, .array term, ks₂, rfl, by simp [TypeForm.term?, hterm], htracks₂, ?_, by rw [TypeTerm.key]; exact hk₂⟩
      rcases hks with rfl | rfl
      · exact hgrow
      · exact hgrow.snoc (by simp [TypeKey.site?]) (by simp)
    | map =>
      obtain ⟨_, term, ks₁, ⟨⟩, hterm, htracks, hgrow, hk⟩ := ih ks site free h (fun _ => hall) ht hp
      obtain ⟨ks₂, htracks₂, hk₂, hks⟩ := htracks.intern_map hk
      refine ⟨_, .map term, ks₂, rfl, by simp [TypeForm.term?, hterm], htracks₂, ?_, by rw [TypeTerm.key]; exact hk₂⟩
      rcases hks with rfl | rfl
      · exact hgrow
      · exact hgrow.snoc (by simp [TypeKey.site?]) (by simp)
    | nullable =>
      have hready : Ready s opened (site.child 0).Covers ks r :=
        h.mono fun site' hc => hall site' ((site.covers_child 0).trans hc)
      obtain ⟨_, term, ks₁, ⟨⟩, hterm, htracks, hgrow, hk⟩ := ih ks (site.child 0) _ hready (fun _ _ hc => hc) ht hp
      obtain ⟨ks₂, htracks₂, hgrow₂, hk₂⟩ := h.internNullable hall hgrow htracks hk
      exact ⟨_, .nullable term, ks₂, rfl, by simp [TypeForm.term?, hterm], htracks₂, hgrow₂, hk₂⟩
  union opened r pos ts ids r₁ hall ih ks site free h hfree hwhole hp := by
    have hcover := hfree rfl
    have hres := (Reading.resolveRules_known s).holds_all opened r ts h.tracks.known
    rw [hall] at hres
    have hunion := hres.known.makeUnion pos [] hres.lt_size
    have hready : Ready s opened (site.PartsFrom 0) ks r := h.mono fun site' hc => hcover site' hc.covers
    have hts : ∀ t ∈ ts, t.Whole := by
      cases hwhole
      assumption
    obtain ⟨ids, terms, ks₁, rfl, hterms, htracks, hgrow, hkeys⟩ := ih ks site 0 _ hready (fun _ hc => hc) hts
      (Reading.no_problems_before hunion.grows.problems hp)
    obtain ⟨h₂, hext, heq⟩ := htracks.makeUnion_of_no_problems hkeys pos [] hp
    obtain ⟨ks₂, htracks₂, hgrow₂, hk₂⟩ := h.pushUnion hcover hgrow htracks hkeys h₂ hext
    rw [heq]
    exact ⟨_, .union terms, ks₂, rfl, by simp [TypeForm.term?, hterms], htracks₂, hgrow₂, hk₂⟩
  nil opened r ks site i free h _ _ _ := ⟨[], [], ks, rfl, rfl, h.tracks, .refl _ _ _, .nil⟩
  cons opened r t ts id r₁ ids r₂ hres hall ih ihs ks site i free h hfree hwhole hp := by
    have hknown := (Reading.resolveRules_known s).holds opened r t h.tracks.known
    rw [hres] at hknown
    have hrest := (Reading.resolveRules_known s).holds_all opened r₁ ts hknown.known
    rw [hall] at hrest
    -- the first type stands at the part `i`, the others at later ones
    have hfirst : ∀ site', (site.child i).Covers site' → free site' :=
      fun site' hc => hfree site' (.here hc)
    obtain ⟨id, term, ks₁, rfl, hterm, htracks, hgrow, hk⟩ := ih ks (site.child i) _ (h.mono hfirst) (fun _ _ hc => hc)
      (hwhole t (by simp)) (Reading.no_problems_before hrest.grows.problems hp)
    have hready := h.behind hfree (fun _ _ => Site.eq_of_child_covers) hgrow htracks
    obtain ⟨ids, terms, ks₂, rfl, hterms, htracks₂, hgrow₂, hkeys⟩ := ihs ks₁ site (i + 1) _ hready
      (fun _ hc => hc) (fun t ht => hwhole t (by simp [ht])) hp
    refine ⟨id :: ids, term :: terms, ks₂, rfl, by simp [TypeForm.terms?, hterm, hterms], htracks₂,
      (hgrow.mono hfirst).trans (hgrow₂.mono fun site' hc => hfree site' (PlacesFrom.of_succ hc)), ?_⟩
    rw [TypeTerm.keys]
    exact .cons (getElem?_mono hgrow₂.kept hk) hkeys

theorem resolve_traced {s : UnionScope} (hs : s.Whole) (opened : List Bytes) (r : Reading) (t : TypeForm) :
    Traced s opened r t (resolve s opened r t) :=
  (resolveRules_traced hs).holds opened r t

theorem resolveAll_traced {s : UnionScope} (hs : s.Whole) (opened : List Bytes) (r : Reading) (ts : List TypeForm) :
    TracedAll s opened r ts (resolveAll s opened r ts) :=
  (resolveRules_traced hs).holds_all opened r ts

/-! ## Completeness -/

def UnionScope.Needs (s : UnionScope) (a b : Bytes) : Prop :=
  ∃ ts, s.terms a = some ts ∧ (∃ t ∈ ts, t.Mentions b) ∧ (s.terms b).isSome = true

/-- The declared unions are valid. -/
structure UnionScope.Valid (s : UnionScope) : Prop where
  terms : ∀ name u, s.unions.lookup name = some u →
    ∃ ts, s.terms name = some ts ∧ (∀ t ∈ ts, t.Valid s.names s.terms) ∧ TwoTypes s.terms ts
  acyclic : ∀ name, ¬ TransGen s.Needs name name

/-- What has to be built for a type: no union that is being built. -/
def UnionScope.Clear (s : UnionScope) (opened : List Bytes) (t : TypeTerm) : Prop :=
  ∀ name, t.Mentions name → (s.terms name).isSome = true → ∀ other ∈ opened, ¬ ReflTransGen s.Needs name other

/-- The declarations that are no unions are built. -/
def UnionScope.Begun (s : UnionScope) (ks : List TypeKey) : Prop :=
  ∀ name ∈ s.names, s.unions.lookup name = none → .declared name ∈ ks

/-- Resolving a valid type makes no problems. -/
def Passes (s : UnionScope) (opened : List Bytes) (r : Reading) (t : TypeForm) (x : Option TypeId × Reading) : Prop :=
  ∀ ks (site : Site) free, Ready s opened free ks r → (t.isName = false → ∀ site', site.Covers site' → free site') →
    t.Whole → s.Begun ks → ∀ term, t.term? = some term → term.Valid s.names s.terms → s.Clear opened term → r.problems = [] →
    x.2.problems = []

def PassesAll (s : UnionScope) (opened : List Bytes) (r : Reading) (ts : List TypeForm)
    (x : List (Option TypeId) × Reading) : Prop :=
  ∀ ks site i free, Ready s opened free ks r → (∀ site', Site.PartsFrom site i site' → free site') →
    (∀ t ∈ ts, t.Whole) → s.Begun ks → ∀ terms, TypeForm.terms? ts = some terms →
    (∀ t ∈ terms, t.Valid s.names s.terms ∧ s.Clear opened t) → r.problems = [] → x.2.problems = []

theorem UnionScope.Begun.mono {s : UnionScope} {ks ks' : List TypeKey} (h : s.Begun ks) (hks : ks <+: ks') : s.Begun ks' :=
  fun name hname hu => hks.subset (h name hname hu)

/-- What a member of a union needs while the union is open. -/
theorem UnionScope.Valid.clear {s : UnionScope} (hs : s.Valid) {opened : List Bytes} {name : Bytes} {ts : List TypeTerm}
    (hts : s.terms name = some ts) (h : s.Clear opened (.declared name)) {t : TypeTerm} (ht : t ∈ ts) :
    s.Clear (name :: opened) t := by
  intro other hother hsome x hx hpath
  have hneeds : s.Needs name other := ⟨ts, hts, ⟨t, ht, hother⟩, hsome⟩
  rcases List.mem_cons.mp hx with rfl | hx
  · exact hs.acyclic x (TransGen.head' hneeds hpath)
  · exact h name (.declared name) (by simp [hts]) x hx (ReflTransGen.head hneeds hpath)

theorem Wraps.term {wrap : TypeForm → TypeForm} {make : Graph → TypeId → TypeId × Graph} (h : Wraps wrap make)
    {t : TypeForm} {term : TypeTerm} (hterm : (wrap t).term? = some term) {s : UnionScope} {opened : List Bytes}
    (hvalid : term.Valid s.names s.terms) (hclear : s.Clear opened term) :
    ∃ u, t.term? = some u ∧ u.Valid s.names s.terms ∧ s.Clear opened u := by
  cases h with
  | array =>
    obtain ⟨u, hu, rfl⟩ := Option.map_eq_some_iff.mp (by simpa only [TypeForm.term?] using hterm)
    cases hvalid with
    | array hvalid => exact ⟨u, hu, hvalid, fun name hname => hclear name (.array hname)⟩
  | map =>
    obtain ⟨u, hu, rfl⟩ := Option.map_eq_some_iff.mp (by simpa only [TypeForm.term?] using hterm)
    cases hvalid with
    | map hvalid => exact ⟨u, hu, hvalid, fun name hname => hclear name (.map hname)⟩
  | nullable =>
    obtain ⟨u, hu, rfl⟩ := Option.map_eq_some_iff.mp (by simpa only [TypeForm.term?] using hterm)
    cases hvalid with
    | nullable hvalid => exact ⟨u, hu, hvalid, fun name hname => hclear name (.nullable hname)⟩

theorem TypeForm.term?_named {pos : Position} {name : Bytes} (h : Primitive.ofName? name = none) {term : TypeTerm}
    (hterm : (TypeForm.named pos name).term? = some term) : term = .declared name := by
  simpa [TypeForm.term?, TypeTerm.ofName, h, eq_comm] using hterm

theorem Tracks.makeUnion_problems {s : UnionScope} {ks : List TypeKey} {r : Reading} (h : Tracks s ks r) {site : Site}
    {i : Nat} {ids : List TypeId} {terms : List TypeTerm} (hids : HasKeys ks ids (TypeTerm.keys s.terms site i terms))
    (h₂ : TwoTypes s.terms terms) (pos : Position) (hint : Bytes) :
    (r.makeUnion pos hint (ids.map some)).2.problems = r.problems := by
  rw [Reading.makeUnion_map_some, if_neg ((h.twoTypes_iff hids).mpr h₂)]

theorem resolveRules_passes {s : UnionScope} (hs : s.Whole) (hvalid : s.Valid) :
    ResolveRules s (Passes s) (PassesAll s) where
  absent opened r ks site free _ _ hwhole := by cases hwhole
  invalid opened r p ks site free _ _ _ _ term hterm := by simp [TypeForm.term?] at hterm
  primitive opened r pos name p _ ks site free _ _ _ _ term _ _ _ hp := hp
  built opened r pos name id _ _ ks site free _ _ _ _ term _ _ _ hp := hp
  unknown opened r pos name hname hid hu ks site free h _ _ hbegun term hterm hv _ _ := by
    obtain rfl := TypeForm.term?_named hname hterm
    cases hv with
    | declared hmem => exact absurd hid (h.tracks.declared_mem_iff.mp (hbegun name hmem hu))
  recursive opened r pos name u hname _ hu hopen ks site free _ _ _ _ term hterm _ hclear _ := by
    obtain rfl := TypeForm.term?_named hname hterm
    obtain ⟨ts, hts, -⟩ := hvalid.terms name u hu
    exact absurd .refl (hclear name (.declared name) (by simp [hts]) name hopen)
  missing opened r pos name u _ _ hu _ hm ks site free _ _ _ _ term _ _ _ _ := by
    obtain ⟨ts, hts, -⟩ := hvalid.terms name u hu
    simp [UnionScope.terms, hu, hm] at hts
  declared opened r pos name u ts ids r₁ id r₂ hname hid hu hopen hm hall ih hmake ks site free h _ _ hbegun term hterm _
      hclear hp := by
    obtain rfl := TypeForm.term?_named hname hterm
    obtain ⟨terms, hts, hmembers, h₂⟩ := hvalid.terms name u hu
    have hterms : TypeForm.terms? ts = some terms := by simpa [UnionScope.terms, hu, hm] using hts
    have hnew : .declared name ∉ ks := by
      rw [h.tracks.declared_mem_iff, hid]
      simp
    have hcover : ∀ site', Site.PartsFrom ⟨.union name, []⟩ 0 site' → site'.owner = .union name :=
      fun site' hc => hc.covers.1.symm
    have hp₁ := ih ks ⟨.union name, []⟩ 0 _ (h.opening hnew hopen) hcover (hs.members name u ts hu hm) hbegun terms hterms
      (fun t ht => ⟨hmembers t ht, hvalid.clear hts hclear ht⟩) hp
    have htraced := resolveAll_traced hs (name :: opened) r ts
    rw [hall] at htraced
    obtain ⟨ids, _, ks₁, rfl, hterms', htracks, -, hkeys⟩ := htraced ks ⟨.union name, []⟩ 0 _ (h.opening hnew hopen) hcover
      (hs.members name u ts hu hm) hp₁
    obtain rfl := Option.some.inj (hterms.symm.trans hterms')
    have hp₂ := htracks.makeUnion_problems hkeys h₂ u.pos name
    rw [hmake] at hp₂
    exact hp₂.trans hp₁
  wrap_none opened r t r₁ wrap make hwrap ih ks site free h hfree hwhole hbegun term hterm hv hclear hp := by
    obtain ⟨u, hu, hv, hclear⟩ := hwrap.term hterm hv hclear
    exact ih ks site free h (fun _ => hfree (hwrap.isName t)) (hwrap.whole hwhole) hbegun u hu hv hclear hp
  wrap opened r t id r₁ wrap make hwrap _ ih ks site free h hfree hwhole hbegun term hterm hv hclear hp := by
    obtain ⟨u, hu, hv, hclear⟩ := hwrap.term hterm hv hclear
    exact ih ks site free h (fun _ => hfree (hwrap.isName t)) (hwrap.whole hwhole) hbegun u hu hv hclear hp
  union opened r pos ts ids r₁ hall ih ks site free h hfree hwhole hbegun term hterm hv hclear hp := by
    obtain ⟨terms, hterms, rfl⟩ := Option.map_eq_some_iff.mp (by simpa only [TypeForm.term?] using hterm)
    have hcover : ∀ site', site.PartsFrom 0 site' → free site' := fun site' hc => hfree rfl site' hc.covers
    cases hwhole with
    | union _ hts =>
      cases hv with
      | union hv h₂ =>
        have hp₁ := ih ks site 0 free h hcover hts hbegun terms hterms
          (fun t ht => ⟨hv t ht, fun name hname => hclear name (.union ht hname)⟩) hp
        have htraced := resolveAll_traced hs opened r ts
        rw [hall] at htraced
        obtain ⟨ids, _, ks₁, rfl, hterms', htracks, -, hkeys⟩ := htraced ks site 0 free h hcover hts hp₁
        obtain rfl := Option.some.inj (hterms.symm.trans hterms')
        exact (htracks.makeUnion_problems hkeys h₂ pos []).trans hp₁
  nil opened r ks site i free _ _ _ _ terms _ _ hp := hp
  cons opened r t ts id r₁ ids r₂ hres hall ih ihs ks site i free h hfree hwhole hbegun terms hterms hv hp := by
    have hfirst : ∀ site', (site.child i).Covers site' → free site' :=
      fun site' hc => hfree site' (.here hc)
    obtain ⟨term, hterm, rest, hrest, rfl⟩ :
        ∃ term, t.term? = some term ∧ ∃ rest, TypeForm.terms? ts = some rest ∧ term :: rest = terms := by
      simpa [TypeForm.terms?, Option.bind_eq_some_iff] using hterms
    simp only [List.mem_cons, forall_eq_or_imp] at hv hwhole
    have hp₁ := ih ks (site.child i) _ (h.mono hfirst) (fun _ _ hc => hc) hwhole.1 hbegun term hterm hv.1.1 hv.1.2 hp
    have htraced := resolve_traced hs opened r t
    rw [hres] at htraced
    obtain ⟨-, -, ks₁, -, -, htracks, hgrow, -⟩ := htraced ks (site.child i) _ (h.mono hfirst) (fun _ _ hc => hc) hwhole.1 hp₁
    have hready := h.behind hfree (fun _ _ => Site.eq_of_child_covers) hgrow htracks
    exact ihs ks₁ site (i + 1) _ hready (fun _ hc => hc) hwhole.2 (hbegun.mono hgrow.kept) rest hrest hv.2 hp₁

theorem resolve_passes {s : UnionScope} (hs : s.Whole) (hvalid : s.Valid) (opened : List Bytes) (r : Reading)
    (t : TypeForm) : Passes s opened r t (resolve s opened r t) :=
  (resolveRules_passes hs hvalid).holds opened r t

end Typewright
