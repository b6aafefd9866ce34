import Typewright.Proofs.Graph.Renaming
import Typewright.Proofs.Module.Render

/-!
# Rendering renamed types

* `Graph.Renames.type`, `Graph.Renames.propertiesOf`, `Graph.Renames.casesOf`, `Graph.Renames.topLevel` : renamed types
  get the same names;
* `ExprContext.Renamed` : contexts in which renamed types are written alike; `ExprContext.Renamed.typeExpr` says that
  they are;
* `Graph.Renames.module` : the parts of the module agree one by one;
* `Graph.Built.render_depends_on_reached` : two graphs with the same types up to their numbers are rendered alike.
-/

namespace Typewright

open Relation

variable {u : CharacterData} {f : TypeId → TypeId} {g g' : Graph} {o : Options} {b : Bool} {id : TypeId}

theorem any_congr_mem {α : Type} {l : List α} {p q : α → Bool} (h : ∀ a ∈ l, p a = q a) : l.any p = l.any q := by
  induction l with
  | nil => rfl
  | cons a l ih =>
    rw [List.any_cons, List.any_cons, h a List.mem_cons_self, ih fun a' ha' => h a' (List.mem_cons_of_mem a ha')]

/-! ## Names -/

theorem lookup_map_fst {α : Type} {l : List (TypeId × α)} {a : TypeId} (hinj : ∀ p ∈ l, f p.1 = f a → p.1 = a) :
    (l.map (Prod.map f fun n => n)).lookup (f a) = l.lookup a := by
  induction l with
  | nil => rfl
  | cons p l ih =>
    obtain ⟨k, v⟩ := p
    have hrest := ih fun p hp => hinj p (List.mem_cons_of_mem _ hp)
    by_cases hk : k = a
    · rw [hk, List.map_cons]
      simp
    · have hfk : f k ≠ f a := fun h => hk (hinj _ List.mem_cons_self h)
      rw [List.map_cons, List.lookup_cons, List.lookup_cons, beq_false_of_ne (Ne.symm hk)]
      simp only [Prod.map]
      rw [beq_false_of_ne (Ne.symm hfk)]
      exact hrest

theorem filterMap_zip_map (cs : List (Option TypeId)) (names : List Bytes) :
    ((cs.map (Option.map f)).zip names).filterMap (fun (c, n) => c.map (·, n)) =
      ((cs.zip names).filterMap fun (c, n) => c.map (·, n)).map (Prod.map f fun n => n) := by
  induction cs generalizing names with
  | nil => rfl
  | cons c cs ih =>
    cases names with
    | nil => rfl
    | cons n names =>
      cases c with
      | none => exact ih names
      | some a => exact congrArg ((f a, n) :: ·) (ih names)

namespace Graph.Renames

theorem claimsFrom (h : Renames f g g') (claimed : List TypeId) (hclaimed : ∀ a ∈ claimed, g.Reached a)
    (tops : List TopLevel) (htops : ∀ t ∈ tops, g.Reached t.type) :
    claimsFrom g' b (claimed.map f) (tops.map fun t => ⟨t.name, f t.type⟩) =
      (claimsFrom g b claimed tops).map (Option.map f) := by
  induction tops generalizing claimed with
  | nil => rfl
  | cons t ts ih =>
    have ht : g.Reached t.type := htops t List.mem_cons_self
    have hts : ∀ t ∈ ts, g.Reached t.type := fun t' ht' => htops t' (List.mem_cons_of_mem t ht')
    have hmem : f t.type ∈ claimed.map f ↔ t.type ∈ claimed :=
      mem_map_iff_of_inj (fun a c => h.inj) hclaimed ht
    have hclaimed' : ∀ a ∈ t.type :: claimed, g.Reached a := by
      rintro a (_ | ⟨_, ha⟩)
      · exact ht
      · exact hclaimed a ha
    have hnext := ih _ hclaimed' hts
    rw [List.map_cons] at hnext
    simp only [List.map_cons, Typewright.claimsFrom, h.isDeclared ht, hmem]
    split
    · rw [hnext]
      rfl
    · rw [ih _ hclaimed hts]
      rfl

theorem claims (h : Renames f g g') : g'.claims b = (g.claims b).map (Option.map f) := by
  have hclaims := h.claimsFrom (b := b) [] (fun a ha => by cases ha) g.tops fun t => reached_of_mem_tops
  unfold Graph.claims
  rw [h.tops]
  exact hclaims

theorem reached_of_mem_claims (h : some id ∈ g.claims b) : g.Reached id := by
  obtain ⟨t, ht, hspec⟩ := exists_of_forall₂_right (claimsFrom_spec g b [] g.tops) h
  obtain ⟨rfl, -⟩ := hspec id rfl
  exact reached_of_mem_tops ht

theorem reached_of_mem_types (hg : g.WellFormed) {p : TypeId × Bytes} (hp : p ∈ (NameTable.ofGraph u o g).types) :
    g.Reached p.1 := by
  rcases List.mem_append.mp hp with hp | hp
  · obtain ⟨⟨claim, n⟩, hmem, heq⟩ := List.mem_filterMap.mp hp
    obtain ⟨a, rfl, rfl⟩ := Option.map_eq_some_iff.mp heq
    exact reached_of_mem_claims (List.of_mem_zip hmem).1
  · have hmem : p.1 ∈ g.unclaimed o.declareUnions := (List.of_mem_zip hp).1
    exact (hg.mem_declared_iff.mp (List.mem_filter.mp hmem).1).1

section Names

variable (hg : g.WellFormed) (hg' : g'.WellFormed)

include hg hg'

theorem unclaimed (h : Renames f g g') : g'.unclaimed b = (g.unclaimed b).map f := by
  unfold Graph.unclaimed
  rw [h.declared hg hg', h.claims, List.filter_map]
  refine congrArg (List.map f) (List.filter_congr fun a ha => ?_)
  have hmem : some (f a) ∈ (g.claims b).map (Option.map f) ↔ some a ∈ g.claims b := by
    constructor
    · intro hmem
      obtain ⟨claim, hclaim, heq⟩ := List.mem_map.mp hmem
      obtain ⟨c, rfl, hca⟩ := Option.map_eq_some_iff.mp heq
      have hc := reached_of_mem_claims hclaim
      rwa [← h.inj hc (hg.mem_declared_iff.mp ha).1 hca]
    · exact fun hmem => List.mem_map.mpr ⟨some a, hmem, rfl⟩
  simp [hmem]

theorem globalNames (h : Renames f g g') : NameTable.globalNames u o g' = NameTable.globalNames u o g := by
  have hhints : (g.unclaimed o.declareUnions).map (fun a => Identifier.typeName u o (g'.hint (f a))) =
      (g.unclaimed o.declareUnions).map fun a => Identifier.typeName u o (g.hint a) := by
    refine List.map_congr_left fun a ha => congrArg (Identifier.typeName u o) ?_
    exact h.hint_eq (hg.mem_declared_iff.mp (List.mem_filter.mp ha).1).1
  unfold NameTable.globalNames
  rw [h.tops, h.unclaimed hg hg', List.map_map, List.map_map]
  exact congrArg (fun names => assignNames (_ ++ names) _) hhints

/-- A renamed type has the name of the type. -/
theorem type (h : Renames f g g') (hid : g.Reached id) :
    (NameTable.ofGraph u o g').types.lookup (f id) = (NameTable.ofGraph u o g).types.lookup id := by
  have htypes : (NameTable.ofGraph u o g').types = (NameTable.ofGraph u o g).types.map (Prod.map f fun n => n) := by
    have hnames : NameTable.globalNames u o g' = NameTable.globalNames u o g := h.globalNames hg hg'
    change (((g'.claims o.declareUnions).zip ((NameTable.globalNames u o g').take g'.tops.length)).filterMap fun (c, n) =>
      c.map (·, n)) ++ (g'.unclaimed o.declareUnions).zip ((NameTable.globalNames u o g').drop g'.tops.length) = _
    rw [hnames, h.claims, h.unclaimed hg hg', h.tops, List.length_map, filterMap_zip_map, List.zip_map_left]
    exact List.map_append.symm
  rw [htypes]
  refine lookup_map_fst fun p hp => fun heq => h.inj (reached_of_mem_types hg hp) hid heq

theorem propertiesOf (h : Renames f g g') (hid : id ∈ g.declared o.declareUnions) {hint : Bytes} {ps : List Property}
    (hn : g.node? id = some (.record hint ps)) :
    (NameTable.ofGraph u o g').propertiesOf (f id) = (NameTable.ofGraph u o g).propertiesOf id := by
  have hid' : f id ∈ g'.declared o.declareUnions := h.declared hg hg' ▸ List.mem_map_of_mem hid
  have hn' : g'.node? (f id) = some (.record hint (ps.map fun p => { p with type := f p.type })) := by
    rw [h.node? id (hg.mem_declared_iff.mp hid).1, hn]
    rfl
  rw [NameTable.propertiesOf_record hid hn, NameTable.propertiesOf_record hid' hn', propertyNames, List.map_map]
  rfl

theorem casesOf (h : Renames f g g') (hid : id ∈ g.declared o.declareUnions) {hint : Bytes} {cs : List Bytes}
    (hn : g.node? id = some (.enum hint cs)) :
    (NameTable.ofGraph u o g').casesOf (f id) = (NameTable.ofGraph u o g).casesOf id := by
  have hid' : f id ∈ g'.declared o.declareUnions := h.declared hg hg' ▸ List.mem_map_of_mem hid
  have hn' : g'.node? (f id) = some (.enum hint cs) := by
    rw [h.node? id (hg.mem_declared_iff.mp hid).1, hn]
    rfl
  rw [NameTable.casesOf_enum hid hn, NameTable.casesOf_enum hid' hn']

theorem topLevels (h : Renames f g g') : (NameTable.ofGraph u o g').topLevels = (NameTable.ofGraph u o g).topLevels := by
  change (NameTable.globalNames u o g').take g'.tops.length = (NameTable.globalNames u o g).take g.tops.length
  rw [h.globalNames hg hg', h.tops, List.length_map]

end Names

end Graph.Renames

/-! ## Expressions -/

/-- Contexts in which renamed types are written alike. -/
structure ExprContext.Renamed (f : TypeId → TypeId) (g : Graph) (c c' : ExprContext) : Prop where
  names : ∀ d ∈ g.declared c.declareUnions, c'.names.type (f d) = c.names.type d
  declareUnions : c'.declareUnions = c.declareUnions
  eager : c'.eager = c.eager
  bound : ∀ d, g.Reached d → (f d ∈ c'.bound ↔ d ∈ c.bound)
  place : c'.place = c.place

namespace ExprContext.Renamed

variable {c c' : ExprContext}

theorem atPlace (hc : c.Renamed f g c') (p : Place) : (c.atPlace p).Renamed f g (c'.atPlace p) :=
  ⟨hc.names, hc.declareUnions, hc.eager, hc.bound, rfl⟩

theorem typeName (hc : c.Renamed f g c') (hid : id ∈ g.declared c.declareUnions) :
    c'.typeName (f id) = c.typeName id := by
  unfold ExprContext.typeName
  rw [hc.names id hid]

variable (hg : g.WellFormed) (hg' : g'.WellFormed) (h : Graph.Renames f g g')

include hg hg' h

/-- The part of a renamed type is written as the part of the type. -/
theorem part (hc : c.Renamed f g c') (hid : g.Reached id) (hd : g.isDeclared c.declareUnions id = false) {t : TypeId}
    (ht : t ∈ g.children id) (hpart : typeExpr c' g' (f t) = typeExpr c g t) :
    (if f t < f id then typeExpr c' g' (f t) else .error (.unknownType (f t))) =
      if t < id then typeExpr c g t else .error (.unknownType t) := by
  have hd' : g'.isDeclared c'.declareUnions (f id) = false := by
    rw [hc.declareUnions, h.isDeclared hid]
    exact hd
  have ht' : f t ∈ g'.children (f id) := h.children hid ▸ List.mem_map_of_mem ht
  rw [if_pos (part_lt hg' hd' ht'), if_pos (part_lt hg hd ht), hpart]

/-- **A renamed type is written as the type is.** -/
theorem typeExpr (hc : c.Renamed f g c') (hid : g.Reached id) :
    typeExpr c' g' (f id) = typeExpr c g id := by
  induction id using Nat.strongRecOn with
  | ind id ih =>
  obtain ⟨n, hn⟩ := Graph.exists_node? (hg.reached_lt hid)
  have hn' : g'.node? (f id) = some (n.rename f) := by
    rw [h.node? id hid, hn]
    rfl
  have hpart : g.isDeclared c.declareUnions id = false → ∀ t ∈ g.children id, _ := fun hd t ht =>
    hc.part hg hg' h hid hd ht (ih t (part_lt hg hd ht) (hid.child ht))
  have hname : g.isDeclared c.declareUnions id = true → c'.typeName (f id) = c.typeName id := fun hd =>
    hc.typeName (hg.mem_declared_iff.mpr ⟨hid, hd⟩)
  rw [Typewright.typeExpr, Typewright.typeExpr]
  cases n with
  | primitive p => simp only [hn, hn', Node.rename, hc.place]
  | array items =>
    have hd : g.isDeclared c.declareUnions id = false := by rw [Graph.isDeclared, hn]
    simp only [hn, hn', Node.rename]
    rw [hpart hd items (Graph.children_of_node? hn ▸ List.mem_cons_self)]
  | map values =>
    have hd : g.isDeclared c.declareUnions id = false := by rw [Graph.isDeclared, hn]
    simp only [hn, hn', Node.rename]
    rw [hpart hd values (Graph.children_of_node? hn ▸ List.mem_cons_self)]
  | record hint ps =>
    simp only [hn, hn', Node.rename]
    rw [hname (Graph.isDeclared_iff.mpr (Or.inl ⟨hint, ps, hn⟩))]
  | enum hint cs =>
    simp only [hn, hn', Node.rename]
    rw [hname (Graph.isDeclared_iff.mpr (Or.inr (Or.inl ⟨hint, cs, hn⟩)))]
  | union hint ms =>
    have hchildren : g.children id = ms := Graph.children_of_node? hn
    simp only [hn, hn', Node.rename, h.nullableInner? hid]
    cases hinner : g.nullableInner? id with
    | some inner =>
      have hd : g.isDeclared c.declareUnions id = false := by simp [Graph.isDeclared, hn, hinner]
      simp only [Option.map_some]
      rw [hpart hd inner (nullableInner?_eq_some hinner).1]
    | none =>
      simp only [Option.map_none, hc.declareUnions]
      by_cases hb : c.declareUnions = true
      · have hd : g.isDeclared c.declareUnions id = true := by simp [Graph.isDeclared, hn, hinner, hb]
        rw [if_pos hb, if_pos hb, hname hd, hc.eager]
        simp only [hc.bound id hid]
      · have hd : g.isDeclared c.declareUnions id = false := by simp [Graph.isDeclared, hn, hb]
        rw [if_neg hb, if_neg hb]
        have hmembers : (ms.map f).mapM (fun t => if t < f id then Typewright.typeExpr c' g' t
            else .error (.unknownType t)) = ms.mapM fun t => if t < id then Typewright.typeExpr c g t
            else .error (.unknownType t) := by
          rw [List.mapM_map]
          exact mapM_congr fun t ht => hpart hd t (hchildren ▸ ht)
        rw [hmembers]

end ExprContext.Renamed

/-! ## The parts of a module -/

def Stopped.SameError (s s' : Stopped) : Prop := s.error = s'.error

theorem ExprContext.alike_tryIn {α : Type} {c c' : ExprContext} {x y : Except RenderError α} (h : x = y) :
    Alike Stopped.SameError Eq (c.tryIn x) (c'.tryIn y) := by
  subst h
  cases x with
  | error e => exact rfl
  | ok a => exact rfl

section Parts

variable (hg : g.WellFormed) (hg' : g'.WellFormed) (h : Graph.Renames f g g')

include hg hg' h

/-- The contexts of a rendering are renamed with the types. -/
theorem Graph.Renames.context (eager : Bool) {bound : List TypeId} (hbound : ∀ d ∈ bound, g.Reached d) :
    (g.context u o eager bound).Renamed f g (g'.context u o eager (bound.map f)) where
  names d hd := by
    change (NameTable.ofGraph u o g').type (f d) = (NameTable.ofGraph u o g).type d
    obtain ⟨n, hn⟩ := NameTable.exists_type hd
    rw [hn, NameTable.type_eq_ok_iff, h.type hg hg' (hg.mem_declared_iff.mp hd).1]
    exact NameTable.type_eq_ok_iff.mp hn
  declareUnions := rfl
  eager := rfl
  bound d hd := mem_map_iff_of_inj (fun a c => h.inj) hbound hd
  place := rfl

theorem Graph.Renames.startContext : (g.context u o false []).Renamed f g (g'.context u o false []) :=
  h.context hg hg' false fun d hd => by cases hd

theorem propertyExpr_rename {c c' : ExprContext} (hc : c.Renamed f g c') {p : Property} (hp : g.Reached p.type) :
    propertyExpr c' g' { p with type := f p.type } = propertyExpr c g p := by
  unfold propertyExpr
  simp only [hc.typeExpr hg hg' h hp, h.nullableInner? hp, h.isPrimitive _ hp, Option.isNone_map]

theorem recordBlock_rename (hid : id ∈ g.declared o.declareUnions) {hint : Bytes} {ps : List Property}
    (hn : g.node? id = some (.record hint ps)) :
    Alike Stopped.SameError Eq (recordBlock (g.context u o false []) g id ps)
      (recordBlock (g'.context u o false []) g' (f id) (ps.map fun p => { p with type := f p.type })) := by
  have hc := h.startContext (u := u) (o := o) hg hg'
  have hreached : ∀ p ∈ ps, g.Reached p.type := by
    intro p hp
    refine (hg.mem_declared_iff.mp hid).1.child ?_
    rw [Graph.children_of_node? hn]
    exact List.mem_map_of_mem hp
  unfold recordBlock
  refine (ExprContext.alike_tryIn (hc.typeName hid).symm).bind fun name name' hname => ?_
  subst hname
  refine (ExprContext.alike_tryIn (congrArg _ (h.propertiesOf hg hg' hid hn).symm)).bind fun names names' hnames => ?_
  subst hnames
  refine (Alike.mapM_map fun p hp => ?_).bind fun types types' htypes => ?_
  · exact ExprContext.alike_tryIn (propertyExpr_rename hg hg' h (hc.atPlace _) (hreached p hp)).symm
  · subst htypes
    exact rfl

theorem enumBlock_rename (hid : id ∈ g.declared o.declareUnions) {hint : Bytes} {cs : List Bytes}
    (hn : g.node? id = some (.enum hint cs)) :
    Alike Stopped.SameError Eq (enumBlock (g.context u o false []) id) (enumBlock (g'.context u o false []) (f id)) := by
  have hc := h.startContext (u := u) (o := o) hg hg'
  unfold enumBlock
  refine (ExprContext.alike_tryIn (hc.typeName hid).symm).bind fun name name' hname => ?_
  subst hname
  refine (ExprContext.alike_tryIn (congrArg _ (h.casesOf hg hg' hid hn).symm)).bind fun cases cases' hcases => ?_
  subst hcases
  exact rfl

theorem block?_rename (hid : id ∈ g.declared o.declareUnions) :
    Alike Stopped.SameError Eq (block? (g.context u o false []) g id) (block? (g'.context u o false []) g' (f id)) := by
  obtain ⟨hreached, hdecl⟩ := hg.mem_declared_iff.mp hid
  unfold block?
  rw [h.node? id hreached]
  rcases Graph.isDeclared_iff.mp hdecl with ⟨hint, ps, hn⟩ | ⟨hint, cs, hn⟩ | ⟨-, ⟨hint, ms, hn⟩, -⟩
  · simp only [hn, Option.map_some, Node.rename]
    exact (recordBlock_rename hg hg' h hid hn).map fun a b hab => congrArg some hab
  · simp only [hn, Option.map_some, Node.rename]
    exact (enumBlock_rename hg hg' h hid hn).map fun a b hab => congrArg some hab
  · simp only [hn, Option.map_some, Node.rename]
    exact rfl

theorem unionBlock_rename {bound : List TypeId} (hbound : ∀ d ∈ bound, g.Reached d)
    (hid : id ∈ g.declared o.declareUnions) :
    Alike Stopped.SameError Eq (unionBlock (g.context u o true bound) g id)
      (unionBlock (g'.context u o true (bound.map f)) g' (f id)) := by
  have hc := h.context (u := u) (o := o) hg hg' true hbound
  have hreached := (hg.mem_declared_iff.mp hid).1
  unfold unionBlock
  rw [h.children hreached]
  refine (ExprContext.alike_tryIn (hc.typeName hid).symm).bind fun name name' hname => ?_
  subst hname
  refine (Alike.mapM_map fun t ht => ?_).bind fun members members' hmembers => ?_
  · exact ExprContext.alike_tryIn ((hc.atPlace _).typeExpr hg hg' h (hreached.child ht)).symm
  · subst hmembers
    exact rfl

/-- The same unions are written, and what is bound behind them is renamed. -/
theorem unionBlocks_rename {ids : List TypeId} (hids : ∀ id ∈ ids, id ∈ g.declared o.declareUnions)
    (bound : List TypeId) (hbound : ∀ d ∈ bound, g.Reached d) :
    Alike Stopped.SameError (fun r r' => r'.1 = r.1 ∧ r.2 = g.context u o true (ids.reverse ++ bound) ∧
        r'.2 = g'.context u o true ((ids.reverse ++ bound).map f))
      (unionBlocks g (g.context u o true bound) ids)
      (unionBlocks g' (g'.context u o true (bound.map f)) (ids.map f)) := by
  induction ids generalizing bound with
  | nil => exact ⟨rfl, rfl, rfl⟩
  | cons id ids ih =>
    have hid := hids id List.mem_cons_self
    have hbound' : ∀ d ∈ id :: bound, g.Reached d := by
      rintro d (_ | ⟨_, hd⟩)
      · exact (hg.mem_declared_iff.mp hid).1
      · exact hbound d hd
    have hrest := ih (fun id hid => hids id (List.mem_cons_of_mem _ hid)) (id :: bound) hbound'
    rw [List.map_cons, unionBlocks, unionBlocks]
    refine (unionBlock_rename hg hg' h hbound hid).bind fun u u' hu => ?_
    subst hu
    refine hrest.bind fun r r' hr => ?_
    obtain ⟨us, c⟩ := r
    obtain ⟨us', c'⟩ := r'
    obtain ⟨rfl, rfl, rfl⟩ := hr
    rw [List.reverse_cons, List.append_assoc, List.singleton_append]
    exact ⟨rfl, rfl, rfl⟩

theorem aliasFor_rename {bound : List TypeId} (hbound : ∀ d ∈ bound, g.Reached d) {t : TopLevel}
    (ht : g.Reached t.type) (i : Nat) :
    Alike Stopped.SameError Eq (aliasFor (g.context u o true bound) g t i)
      (aliasFor (g'.context u o true (bound.map f)) g' ⟨t.name, f t.type⟩ i) := by
  have hc := (h.context (u := u) (o := o) hg hg' true hbound).atPlace (.topLevel t.name)
  have hname : (NameTable.ofGraph u o g).topLevel i = (NameTable.ofGraph u o g').topLevel i := by
    unfold NameTable.topLevel
    rw [h.topLevels hg hg']
  unfold aliasFor
  refine (ExprContext.alike_tryIn (congrArg _ hname)).bind fun name name' hname => ?_
  subst hname
  refine (ExprContext.alike_tryIn (hc.typeExpr hg hg' h ht).symm).bind fun type type' htype => ?_
  subst htype
  exact rfl

/-! ## The whole module -/

omit hg hg' in
theorem Graph.Renames.aliasTops :
    g'.aliasTops b = (g.aliasTops b).map fun (t, i) => (⟨t.name, f t.type⟩, i) := by
  have hzip : g'.tops.zipIdx.zip (g'.claims b) =
      (g.tops.zipIdx.zip (g.claims b)).map
        (Prod.map (Prod.map (fun t : TopLevel => ⟨t.name, f t.type⟩) fun i => i) (Option.map f)) := by
    rw [h.tops, h.claims, List.zipIdx_map, List.zip_map]
    rfl
  unfold Graph.aliasTops
  rw [hzip, List.filter_map, List.map_map, List.map_map]
  refine congrArg₂ List.map rfl (List.filter_congr fun x _ => ?_)
  exact Option.isNone_map

theorem Graph.Renames.orderedFor :
    (g'.orderedFor o).order = (g.orderedFor o).order.map f ∧ (g'.orderedFor o).hasCycles = (g.orderedFor o).hasCycles := by
  obtain ⟨horder, hback⟩ := h.order (b := o.declareUnions) hg hg'
  refine ⟨horder, ?_⟩
  unfold OrderedTypes.hasCycles Graph.orderedFor
  rw [hback, List.isEmpty_map]

theorem Graph.Renames.needsPostponed :
    needsPostponed g' (g'.orderedFor o) o.declareUnions = needsPostponed g (g.orderedFor o) o.declareUnions := by
  obtain ⟨horder, hcycles⟩ := h.orderedFor (o := o) hg hg'
  have hkind : ∀ (p : Node → Bool), (∀ n : Node, p (n.rename f) = p n) → ∀ a, g.Reached a →
      ((g'.node? (f a)).map p).getD false = ((g.node? a).map p).getD false := by
    intro p hp a ha
    rw [h.node? a ha, Option.map_map]
    exact congrArg (fun k => ((g.node? a).map k).getD false) (funext hp)
  have hdeps : ∀ a ∈ g.declared o.declareUnions,
      (g'.orderedFor o).dependencies.getD (f a) [] = ((g.orderedFor o).dependencies.getD a []).map f :=
    fun a ha => h.getD_dependencyLists hg hg' ha
  have hmem : ∀ a ∈ g.declared o.declareUnions, ∀ d ∈ (g.orderedFor o).dependencies.getD a [], g.Reached d := by
    intro a ha d hd
    have hlist : (g.orderedFor o).dependencies.getD a [] = g.dependencies o.declareUnions a :=
      Graph.getD_dependencyLists ha (hg.lt_size_of_mem_declared ha)
    rw [hlist] at hd
    exact (hg.mem_declared_iff.mp (hg.mem_declared_of_depends ha hd)).1
  unfold Typewright.needsPostponed
  simp only [hcycles, horder, List.any_map]
  congr 2
  refine any_congr_mem fun a ha => ?_
  have ha := hg.mem_order_iff.mp ha
  simp only [Function.comp_apply, hdeps a ha, List.any_map]
  rw [hkind _ (Node.isRecord_rename f) a (hg.mem_declared_iff.mp ha).1]
  refine congrArg _ (any_congr_mem fun d hd => ?_)
  exact hkind _ (Node.isUnion_rename f) d (hmem a ha d hd)

theorem Graph.Renames.module :
    Alike Stopped.SameError (fun r r' => r'.1 = r.1) (g.module u o) (g'.module u o) := by
  obtain ⟨horder, hcycles⟩ := h.orderedFor (o := o) hg hg'
  have hdeclared : ∀ a ∈ (g.orderedFor o).order, a ∈ g.declared o.declareUnions := fun a => hg.mem_order_iff.mp
  have hunions : (g'.unionOrder o) = (g.unionOrder o).map f := by
    unfold Graph.unionOrder
    rw [horder, List.filter_map]
    exact congrArg (List.map f) (List.filter_congr fun a ha => h.isUnionAt (hg.mem_declared_iff.mp (hdeclared a ha)).1)
  have hunionsDeclared : ∀ a ∈ g.unionOrder o, a ∈ g.declared o.declareUnions :=
    fun a ha => hdeclared a (List.mem_filter.mp ha).1
  have hblocks : Alike Stopped.SameError Eq ((g.orderedFor o).order.mapM (block? (g.context u o false []) g))
      ((g'.orderedFor o).order.mapM (block? (g'.context u o false []) g')) := by
    rw [horder]
    exact Alike.mapM_map fun a ha => block?_rename hg hg' h (hdeclared a ha)
  unfold Graph.module
  refine hblocks.bind fun blocks blocks' hblocks => ?_
  subst hblocks
  have hus := unionBlocks_rename (u := u) hg hg' h hunionsDeclared [] fun d hd => by cases hd
  rw [← hunions] at hus
  refine hus.bind fun r r' hr => ?_
  obtain ⟨us, c⟩ := r
  obtain ⟨us', c'⟩ := r'
  obtain ⟨rfl, rfl, rfl⟩ := hr
  have haliases : Alike Stopped.SameError Eq
      ((g.aliasTops o.declareUnions).mapM fun (t, i) =>
        aliasFor (g.context u o true ((g.unionOrder o).reverse ++ [])) g t i)
      ((g'.aliasTops o.declareUnions).mapM fun (t, i) =>
        aliasFor (g'.context u o true (((g.unionOrder o).reverse ++ []).map f)) g' t i) := by
    rw [h.aliasTops]
    refine Alike.mapM_map fun x hx => ?_
    obtain ⟨t, i⟩ := x
    refine aliasFor_rename hg hg' h (fun d hd => ?_) ?_ i
    · rw [List.append_nil, List.mem_reverse] at hd
      exact (hg.mem_declared_iff.mp (hunionsDeclared d hd)).1
    · exact Graph.Renames.reached_of_mem_tops (List.mem_of_getElem? (Graph.getElem?_of_mem_aliasTops hx))
  refine haliases.bind fun as as' has => ?_
  subst has
  rw [h.needsPostponed hg hg']
  exact rfl

end Parts

namespace Graph

theorem WellFormed.render_eq_of_renames (hg : g.WellFormed) (hg' : g'.WellFormed) (h : Renames f g g')
    (u : CharacterData) (o : Options) : (g'.render u o).result = (g.render u o).result := by
  have hmodule := h.module (u := u) (o := o) hg hg'
  unfold Graph.render Renderer.render
  simp only [Renderer.new]
  cases hm : g.module u o with
  | error s =>
    cases hm' : g'.module u o with
    | error s' =>
      rw [hm, hm'] at hmodule
      exact congrArg Except.error (Eq.symm hmodule)
    | ok r' =>
      rw [hm, hm'] at hmodule
      exact hmodule.elim
  | ok r =>
    cases hm' : g'.module u o with
    | error s' =>
      rw [hm, hm'] at hmodule
      exact hmodule.elim
    | ok r' =>
      rw [hm, hm'] at hmodule
      exact congrArg (fun m : Module => Except.ok m.lines) hmodule

/-- **What is rendered depends only on the types that can be reached, up to their numbers.** Renaming these types
leaves the lines, or the error, as they are; so does any change to types that cannot be reached. -/
theorem Built.render_depends_on_reached (hg : g.Built) (hg' : g'.Built) (u : CharacterData) (o : Options) :
    (∀ f, Renames f g g' → (g'.render u o).result = (g.render u o).result) ∧
      (g'.tops = g.tops → (∀ id, g.Reached id → g'.node? id = g.node? id) →
        (g'.render u o).result = (g.render u o).result) := by
  refine ⟨fun f h => ?_, fun htops hnode => ?_⟩
  · exact hg.wellFormed.render_eq_of_renames hg'.wellFormed h u o
  · exact hg.wellFormed.render_eq_of_renames hg'.wellFormed (Renames.of_agree htops hnode) u o

/-- The knot again, behind an enum and a list that nothing leads to. -/
def shiftedKnotCalls : List Call := [
  .enum (Bytes.ascii "Z") [],
  .array Primitive.integer.id,
  .record (Bytes.ascii "A") [],
  .union (Bytes.ascii "Y") [12, Primitive.integer.id],
  .union (Bytes.ascii "X") [13, Primitive.string.id],
  .setProperties 12 [⟨Bytes.ascii "x", 14, false⟩],
  .topLevel (Bytes.ascii "Y") 13]

def shiftedKnot : Graph := shiftedKnotCalls.foldl after empty

/-- The types of the knot have numbers that are larger by two; the primitive types keep theirs. -/
def knotShift (id : Nat) : Nat := if id < 10 then id else id + 2

theorem knotShift_injective : Function.Injective knotShift := by
  intro a c hac
  unfold knotShift at hac
  split_ifs at hac <;> omega

theorem renames_knot : Renames knotShift knot shiftedKnot := by
  refine Renames.of_injOn knotShift_injective.injOn (by cbv) fun id hid => ?_
  have hmem := built_knot.wellFormed.mem_reachable_iff.mpr hid
  have hlist : knot.reachable = [11, 10, 12, 6, 4] := by cbv
  have hall : ∀ id ∈ [11, 10, 12, 6, 4],
      shiftedKnot.node? (knotShift id) = (knot.node? id).map (Node.rename knotShift) := by
    decide +kernel
  exact hall id (hlist ▸ hmem)

theorem shiftedKnot_renders_as_knot :
    knot.Built ∧ shiftedKnot.Built ∧ Renames knotShift knot shiftedKnot ∧
      (shiftedKnot.render .ascii ⟨true, false, []⟩).result = (knot.render .ascii ⟨true, false, []⟩).result :=
  ⟨built_knot, ⟨shiftedKnotCalls, rfl⟩, renames_knot,
    (built_knot.render_depends_on_reached ⟨shiftedKnotCalls, rfl⟩ .ascii ⟨true, false, []⟩).1 knotShift renames_knot⟩

end Graph

end Typewright
