import Typewright.Proofs.Module.Naming
import Typewright.Proofs.Module.TypeExpr

/-!
# The module of a graph

* `Graph.context` : the contexts in which the parts of a module are written;
* `Block.Declares`, `UnionBlock.Declares`, `Alias.NamesTop` : what a part of the module says about its type;
* `Module.Assembled`, `Graph.WellFormed.module_assembled` : what holds of each part holds of all parts in their order;
* `Module.Renders m u g o` : `m` declares the types of `g` in their order;
* `Graph.WellFormed.module_ends` : such a module is written, or the sentinel can be reached;
* `Module.Renders.not_noneReachable` : if it is written, then the sentinel cannot be reached;
* `Graph.Built.render_fails_iff` : when exactly a rendering fails.
-/

namespace Typewright

open Relation

theorem forall₂_filterMap {P : TypeId → Bool} {R : TypeId → Block → Prop} {ids : List TypeId}
    {found : List (Option Block)}
    (h : List.Forall₂ (fun id block => if P id then block = none else ∃ b, block = some b ∧ R id b) ids found) :
    List.Forall₂ R (ids.filter fun id => !P id) (found.filterMap id) := by
  induction h with
  | nil => exact .nil
  | cons hblock _ ih =>
    split at hblock
    · next hP =>
      rw [hblock, List.filter_cons_of_neg (by simp [hP])]
      exact ih
    · next hP =>
      obtain ⟨b, rfl, hb⟩ := hblock
      rw [List.filter_cons_of_pos (by simp [hP])]
      exact .cons hb ih

theorem forall₂_of_getElem? {α β : Type} {R : α → β → Prop} {l : List α} {l' : List β} (hlength : l'.length = l.length)
    (h : ∀ (i : Nat) a b, l[i]? = some a → l'[i]? = some b → R a b) : List.Forall₂ R l l' :=
  List.forall₂_iff_get.mpr ⟨hlength.symm, fun i hi hi' =>
    h i _ _ (List.getElem?_eq_getElem hi) (List.getElem?_eq_getElem hi')⟩

variable {u : CharacterData} {g : Graph} {o : Options} {id : TypeId}

def Graph.context (u : CharacterData) (g : Graph) (o : Options) (eager : Bool) (bound : List TypeId) : ExprContext :=
  ⟨.ofGraph u o g, o.declareUnions, eager, bound, none⟩

/-- A rendering that stopped at the sentinel, which can indeed be reached. -/
def Stopped.AtNone (g : Graph) (s : Stopped) : Prop := (∃ place, s.error = .noneReached place) ∧ g.NoneReachable

/-! ## Expressions and names of a rendering -/

section Context

variable (eager : Bool) (bound : List TypeId) (p : Place)

theorem ExprContext.Writes.of_atPlace {c : ExprContext} {p : Place} {e : TypeExpr} (h : (c.atPlace p).Writes g id e) :
    c.Writes g id e := ⟨h.none, h.sound, h.complete⟩

/-- The declared types that are met behind a type that can be reached have names. -/
theorem exists_type_of_shows (h : g.WellFormed) (hid : g.Reached id) {d : TypeId} (hd : g.Shows o.declareUnions id d)
    (hdecl : g.isDeclared o.declareUnions d = true) : ∃ name, (NameTable.ofGraph u o g).type d = .ok name := by
  obtain ⟨top, htop, hreach⟩ := hid
  exact NameTable.exists_type (h.mem_declared_iff.mpr ⟨⟨top, htop, hreach.trans hd.reaches⟩, hdecl⟩)

theorem noneReachable_of_shows (hid : g.Reached id) (hnone : g.Shows o.declareUnions id Primitive.none.id) :
    g.NoneReachable := by
  obtain ⟨top, htop, hreach⟩ := hid
  exact ⟨top, htop, hreach.trans hnone.reaches⟩

theorem typeExpr_context (h : g.WellFormed) (hid : g.Reached id) :
    Ends (((g.context u o eager bound).atPlace p).tryIn (typeExpr ((g.context u o eager bound).atPlace p) g id))
      (Stopped.AtNone g) ((g.context u o eager bound).Writes g id) := by
  refine Ends.mapError ((typeExpr_ends h (h.reached_lt hid) fun d => exists_type_of_shows h hid).mono ?_ ?_)
  · rintro e ⟨rfl, hnone⟩
    exact ⟨⟨_, rfl⟩, noneReachable_of_shows hid hnone⟩
  · exact fun e he => he.of_atPlace

theorem propertyExpr_context {q : Property} (h : g.WellFormed) (hid : g.Reached q.type) :
    Ends (((g.context u o eager bound).atPlace p).tryIn (propertyExpr ((g.context u o eager bound).atPlace p) g q))
      (Stopped.AtNone g) ((g.context u o eager bound).Writes g q.type) := by
  refine Ends.mapError ((propertyExpr_ends h (h.reached_lt hid) fun d => exists_type_of_shows h hid).mono ?_ ?_)
  · rintro e ⟨rfl, hnone⟩
    exact ⟨⟨_, rfl⟩, noneReachable_of_shows hid hnone⟩
  · exact fun e he => he.of_atPlace

theorem typeName_context (hid : id ∈ g.declared o.declareUnions) {E : Stopped → Prop} :
    Ends ((g.context u o eager bound).tryIn ((g.context u o eager bound).typeName id)) E
      (fun name => (NameTable.ofGraph u o g).type id = .ok name) := by
  obtain ⟨name, hname⟩ := NameTable.exists_type hid
  change Ends ((((NameTable.ofGraph u o g).type id).mapError RenderError.unnamed).mapError _) E _
  rw [hname]
  rfl

end Context

/-! ## The parts of a module -/

/-- What the declaration of a class or of an enum says. -/
def Block.Declares (u : CharacterData) (g : Graph) (o : Options) (id : TypeId) : Block → Prop
  | .record name fields =>
    (NameTable.ofGraph u o g).type id = .ok name ∧ ∃ hint ps, g.node? id = some (.record hint ps) ∧
      fields.map Field.name = propertyNames u o ps ∧
      List.Forall₂ (fun p (f : Field) => (g.context u o false []).Writes g p.type f.type) ps fields
  | .enum name cases =>
    (NameTable.ofGraph u o g).type id = .ok name ∧ ∃ hint cs, g.node? id = some (.enum hint cs) ∧ cases = caseNames u o cs

/-- What the declaration of a union says if the unions `bound` are declared before it. -/
structure UnionBlock.Declares (u : CharacterData) (g : Graph) (o : Options) (bound : List TypeId) (id : TypeId)
    (union : UnionBlock) : Prop where
  name : (NameTable.ofGraph u o g).type id = .ok union.name
  members : List.Forall₂ ((g.context u o true bound).Writes g) (g.children id) union.members

/-- What the alias for a top-level says if the unions `bound` are declared before it. -/
structure Alias.NamesTop (u : CharacterData) (g : Graph) (o : Options) (bound : List TypeId) (top : TopLevel × Nat)
    (a : Alias) : Prop where
  name : (NameTable.ofGraph u o g).topLevel top.2 = .ok a.name
  type : (g.context u o true bound).Writes g top.1.type a.type

theorem forall₂_zipWith_field {R : Property → TypeExpr → Prop} {ps : List Property} {names : List Bytes}
    {types : List TypeExpr} (hlength : names.length = ps.length) (h : List.Forall₂ R ps types) :
    (List.zipWith Field.mk names types).map Field.name = names ∧
      List.Forall₂ (fun p (f : Field) => R p f.type) ps (List.zipWith Field.mk names types) := by
  induction h generalizing names with
  | nil =>
    rw [List.eq_nil_of_length_eq_zero hlength]
    exact ⟨rfl, .nil⟩
  | cons hp _ ih =>
    obtain ⟨name, names, rfl⟩ := List.exists_cons_of_length_eq_add_one hlength
    obtain ⟨hnames, hfields⟩ := ih (Nat.succ.inj hlength)
    exact ⟨congrArg (name :: ·) hnames, .cons hp hfields⟩

theorem recordBlock_ends (h : g.WellFormed) (hid : id ∈ g.declared o.declareUnions) {hint : Bytes} {ps : List Property}
    (hn : g.node? id = some (.record hint ps)) :
    Ends (recordBlock (g.context u o false []) g id ps) (Stopped.AtNone g) (Block.Declares u g o id) := by
  have hreached : g.Reached id := (h.mem_declared_iff.mp hid).1
  have hchildren : g.children id = ps.map Property.type := Graph.children_of_node? hn
  have hnames : ((g.context u o false []).names.propertiesOf id) = .ok (propertyNames u o ps) :=
    NameTable.propertiesOf_record hid hn
  unfold recordBlock
  refine (typeName_context false [] hid).bind fun name _ hname => ?_
  rw [hnames]
  have htypes : ∀ p ∈ ps, Ends _ (Stopped.AtNone g) ((g.context u o false []).Writes g p.type) := fun p hp =>
    propertyExpr_context false [] (.property p.name name) h (hreached.child (hchildren ▸ List.mem_map_of_mem hp))
  refine (Ends.mapM htypes).bind fun types _ htypes => ?_
  obtain ⟨hzip, hfields⟩ := forall₂_zipWith_field (length_propertyNames u o ps) htypes
  exact ⟨hname, hint, ps, hn, hzip, hfields⟩

theorem enumBlock_ends (hid : id ∈ g.declared o.declareUnions) {hint : Bytes} {cs : List Bytes}
    (hn : g.node? id = some (.enum hint cs)) :
    Ends (enumBlock (g.context u o false []) id) (Stopped.AtNone g) (Block.Declares u g o id) := by
  have hnames : ((g.context u o false []).names.casesOf id) = .ok (caseNames u o cs) := NameTable.casesOf_enum hid hn
  unfold enumBlock
  refine (typeName_context false [] hid).bind fun name _ hname => ?_
  rw [hnames]
  exact ⟨hname, hint, cs, hn, rfl⟩

theorem unionBlock_ends (h : g.WellFormed) (bound : List TypeId) (hid : id ∈ g.declared o.declareUnions) :
    Ends (unionBlock (g.context u o true bound) g id) (Stopped.AtNone g) (UnionBlock.Declares u g o bound id) := by
  have hreached : g.Reached id := (h.mem_declared_iff.mp hid).1
  unfold unionBlock
  refine (typeName_context true bound hid).bind fun name _ hname => ?_
  have hmembers : ∀ t ∈ g.children id, Ends _ (Stopped.AtNone g) ((g.context u o true bound).Writes g t) := fun t ht =>
    typeExpr_context true bound (.union name) h (hreached.child ht)
  refine (Ends.mapM hmembers).bind fun members _ hmembers => ?_
  exact ⟨hname, hmembers⟩

theorem aliasFor_ends (h : g.WellFormed) (bound : List TypeId) {t : TopLevel} {i : Nat}
    (ht : (t, i) ∈ g.aliasTops o.declareUnions) :
    Ends (aliasFor (g.context u o true bound) g t i) (Stopped.AtNone g) (Alias.NamesTop u g o bound (t, i)) := by
  have htop : g.tops[i]? = some t := Graph.getElem?_of_mem_aliasTops ht
  have hi : i < g.tops.length := (List.getElem?_eq_some_iff.mp htop).1
  have hreached : g.Reached t.type := ⟨t, List.mem_of_getElem? htop, .refl⟩
  obtain ⟨name, hname⟩ := NameTable.exists_topLevel (u := u) (o := o) hi
  have hlookup : ((g.context u o true bound).atPlace (.topLevel t.name)).names.topLevel i = .ok name := hname
  simp only [aliasFor, hlookup]
  refine (typeExpr_context true bound (.topLevel t.name) h hreached).bind fun type _ htype => ?_
  exact ⟨hname, htype⟩

/-! ## The whole module -/

/-- The classes and enums of a graph in the order in which they are declared. -/
def Graph.blockOrder (g : Graph) (o : Options) : List TypeId := (g.orderedFor o).order.filter fun id => !g.isUnionAt id

/-- The unions of a graph in the order in which they are declared. -/
def Graph.unionOrder (g : Graph) (o : Options) : List TypeId := (g.orderedFor o).order.filter g.isUnionAt

/-- The parts of a module, each in a relation to what it is written for. Blocks, unions and aliases are in the order of
the graph, and for a union the ones before it are bound. -/
structure Module.Assembled (m : Module) (g : Graph) (o : Options) (B : TypeId → Block → Prop)
    (U : List TypeId → TypeId → UnionBlock → Prop) (A : TopLevel × Nat → Alias → Prop) : Prop where
  comments : m.comments = o.comments
  postponed : m.postponed = needsPostponed g (g.orderedFor o) o.declareUnions
  blocks : List.Forall₂ B (g.blockOrder o) m.blocks
  length_unions : m.unions.length = (g.unionOrder o).length
  unions : ∀ i id (u : UnionBlock), (g.unionOrder o)[i]? = some id → m.unions[i]? = some u →
    U ((g.unionOrder o).take i).reverse id u
  aliases : List.Forall₂ A (g.aliasTops o.declareUnions) m.aliases

/-- A module declares the types of a graph in their order: classes and enums, then unions, each bound for those
after it, then aliases, for which all unions are bound. -/
structure Module.Renders (m : Module) (u : CharacterData) (g : Graph) (o : Options) : Prop where
  comments : m.comments = o.comments
  postponed : m.postponed = needsPostponed g (g.orderedFor o) o.declareUnions
  blocks : List.Forall₂ (Block.Declares u g o) (g.blockOrder o) m.blocks
  length_unions : m.unions.length = (g.unionOrder o).length
  unions : ∀ i id (union : UnionBlock), (g.unionOrder o)[i]? = some id → m.unions[i]? = some union →
    union.Declares u g o ((g.unionOrder o).take i).reverse id
  aliases : List.Forall₂ (Alias.NamesTop u g o (g.unionOrder o).reverse) (g.aliasTops o.declareUnions) m.aliases

namespace Graph

theorem WellFormed.mem_order_iff (h : g.WellFormed) : id ∈ (g.orderedFor o).order ↔ id ∈ g.declared o.declareUnions :=
  h.sorted_order.mem_iff id

theorem WellFormed.mem_blockOrder_iff (h : g.WellFormed) :
    id ∈ g.blockOrder o ↔ id ∈ g.declared o.declareUnions ∧ g.isUnionAt id = false := by
  rw [blockOrder, List.mem_filter, h.mem_order_iff, Bool.not_eq_true']

theorem WellFormed.mem_unionOrder_iff (h : g.WellFormed) :
    id ∈ g.unionOrder o ↔ id ∈ g.declared o.declareUnions ∧ g.isUnionAt id = true := by
  rw [unionOrder, List.mem_filter, h.mem_order_iff]

section Assembling

variable {E : Stopped → Prop} {B : TypeId → Block → Prop} {U : List TypeId → TypeId → UnionBlock → Prop}
  {A : List TypeId → TopLevel × Nat → Alias → Prop}

/-- Classes and enums are declared, unions are left for later. -/
theorem WellFormed.block?_assembled (h : g.WellFormed) (hid : id ∈ g.declared o.declareUnions)
    (hrecord : ∀ hint ps, g.node? id = some (.record hint ps) →
      Ends (recordBlock (g.context u o false []) g id ps) E (B id))
    (henum : ∀ hint cs, g.node? id = some (.enum hint cs) → Ends (enumBlock (g.context u o false []) id) E (B id)) :
    Ends (block? (g.context u o false []) g id) E (fun block =>
      if g.isUnionAt id then block = none else ∃ b, block = some b ∧ B id b) := by
  unfold block?
  rcases isDeclared_iff.mp (h.mem_declared_iff.mp hid).2 with ⟨hint, ps, hn⟩ | ⟨hint, cs, hn⟩ | ⟨-, ⟨hint, ms, hn⟩, -⟩
  · have hunion : g.isUnionAt id = false := isUnionAt_of_node? hn
    simp only [hn, hunion]
    exact Ends.map ((hrecord hint ps hn).mono (fun _ he => he) fun b hb => ⟨b, rfl, hb⟩)
  · have hunion : g.isUnionAt id = false := isUnionAt_of_node? hn
    simp only [hn, hunion]
    exact Ends.map ((henum hint cs hn).mono (fun _ he => he) fun b hb => ⟨b, rfl, hb⟩)
  · have hunion : g.isUnionAt id = true := isUnionAt_of_node? hn
    simp only [hn, hunion]
    rfl

/-- Unions are declared one after the other, and each is bound for those after it. -/
theorem unionBlocks_assembled {ids : List TypeId}
    (hunion : ∀ id ∈ ids, ∀ bound, Ends (unionBlock (g.context u o true bound) g id) E (U bound id))
    (bound : List TypeId) :
    Ends (unionBlocks g (g.context u o true bound) ids) E (fun r =>
      r.2 = g.context u o true (ids.reverse ++ bound) ∧ r.1.length = ids.length ∧
        ∀ i id (u : UnionBlock), ids[i]? = some id → r.1[i]? = some u → U ((ids.take i).reverse ++ bound) id u) := by
  induction ids generalizing bound with
  | nil => exact ⟨rfl, rfl, fun i id u hid => by simp at hid⟩
  | cons id ids ih =>
    obtain ⟨hfirst, hrest⟩ := List.forall_mem_cons.mp hunion
    rw [unionBlocks]
    refine (hfirst bound).bind fun u _ hu => ?_
    refine (ih hrest (id :: bound)).bind fun r _ hr => ?_
    obtain ⟨hcontext, hlength, hunions⟩ := hr
    refine ⟨?_, congrArg Nat.succ hlength, fun i id' u' hid' hu' => ?_⟩
    · rw [hcontext, List.reverse_cons, List.append_assoc, List.singleton_append]
    · cases i with
      | zero =>
        cases hid'
        cases hu'
        exact hu
      | succ i =>
        rw [List.take_succ_cons, List.reverse_cons, List.append_assoc, List.singleton_append]
        exact hunions i id' u' hid' hu'

/-- **How a module is assembled**: what holds of each of its parts, holds of all of them in their order. -/
theorem WellFormed.module_assembled (h : g.WellFormed)
    (hrecord : ∀ id ∈ g.declared o.declareUnions, ∀ hint ps, g.node? id = some (.record hint ps) →
      Ends (recordBlock (g.context u o false []) g id ps) E (B id))
    (henum : ∀ id ∈ g.declared o.declareUnions, ∀ hint cs, g.node? id = some (.enum hint cs) →
      Ends (enumBlock (g.context u o false []) id) E (B id))
    (hunion : ∀ id ∈ g.declared o.declareUnions, g.isUnionAt id = true → ∀ bound,
      Ends (unionBlock (g.context u o true bound) g id) E (U bound id))
    (halias : ∀ top ∈ g.aliasTops o.declareUnions, ∀ bound,
      Ends (aliasFor (g.context u o true bound) g top.1 top.2) E (A bound top)) :
    Ends (g.module u o) E (fun r => r.2 = g.context u o false (g.unionOrder o).reverse ∧
      r.1.Assembled g o B U (A (g.unionOrder o).reverse)) := by
  have hblocks : ∀ id ∈ (g.orderedFor o).order, Ends (block? (g.context u o false []) g id) E (fun block =>
      if g.isUnionAt id then block = none else ∃ b, block = some b ∧ B id b) := by
    intro id hid
    have hdeclared := h.mem_order_iff.mp hid
    exact h.block?_assembled hdeclared (hrecord id hdeclared) (henum id hdeclared)
  have hunions : ∀ id ∈ g.unionOrder o, ∀ bound, Ends (unionBlock (g.context u o true bound) g id) E (U bound id) :=
    fun id hid => hunion id (h.mem_unionOrder_iff.mp hid).1 (h.mem_unionOrder_iff.mp hid).2
  unfold Graph.module
  refine (Ends.mapM hblocks).bind fun blocks _ hblocks => ?_
  refine (unionBlocks_assembled hunions []).bind fun r _ hr => ?_
  obtain ⟨unions, c⟩ := r
  obtain ⟨hcontext, hlength, hunions⟩ := hr
  simp only [List.append_nil] at hcontext hunions
  subst hcontext
  refine (Ends.mapM fun top htop => halias top htop (g.unionOrder o).reverse).bind fun aliases _ haliases => ?_
  exact ⟨rfl, rfl, rfl, forall₂_filterMap hblocks, hlength, hunions, haliases⟩

end Assembling

/-- **The module of a graph is written, or the sentinel can be reached.** -/
theorem WellFormed.module_ends (h : g.WellFormed) (u : CharacterData) (o : Options) :
    Ends (g.module u o) (Stopped.AtNone g) (fun r => r.1.Renders u g o) := by
  refine (h.module_assembled (fun id hid hint ps => recordBlock_ends h hid) (fun id hid hint cs => enumBlock_ends hid)
    (fun id hid _ bound => unionBlock_ends h bound hid) fun top htop bound => aliasFor_ends h bound htop).mono
    (fun _ he => he) fun r hr => ?_
  obtain ⟨-, hm⟩ := hr
  exact ⟨hm.comments, hm.postponed, hm.blocks, hm.length_unions, hm.unions, hm.aliases⟩

end Graph

/-! ## When a rendering fails -/

/-- Every part of a declared type is written somewhere in the module. -/
theorem Module.Renders.not_shows_none {m : Module} (h : g.WellFormed) (hm : m.Renders u g o)
    (hid : id ∈ g.declared o.declareUnions) {t : TypeId} (ht : t ∈ g.children id) :
    ¬ g.Shows o.declareUnions t Primitive.none.id := by
  cases hunion : g.isUnionAt id with
  | true =>
    obtain ⟨i, hi, hget⟩ := List.getElem_of_mem (h.mem_unionOrder_iff.mpr ⟨hid, hunion⟩)
    have hi' : i < m.unions.length := hm.length_unions ▸ hi
    have hu := hm.unions i id m.unions[i] (hget ▸ List.getElem?_eq_getElem hi) (List.getElem?_eq_getElem hi')
    obtain ⟨e, -, he⟩ := exists_of_forall₂_left hu.members ht
    exact he.none
  | false =>
    obtain ⟨b, -, hb⟩ := exists_of_forall₂_left hm.blocks (h.mem_blockOrder_iff.mpr ⟨hid, hunion⟩)
    cases b with
    | record name fields =>
      obtain ⟨-, hint, ps, hn, -, hfields⟩ := hb
      rw [Graph.children_of_node? hn] at ht
      obtain ⟨p, hp, rfl⟩ := List.mem_map.mp ht
      obtain ⟨f, -, hf⟩ := exists_of_forall₂_left hfields hp
      exact hf.none
    | enum name cases =>
      obtain ⟨-, hint, cs, hn, -⟩ := hb
      rw [Graph.children_of_node? hn] at ht
      cases ht

/-- **A module is only written if the sentinel cannot be reached.** On a path from a top-level, each type is written
together with what is met behind it. -/
theorem Module.Renders.not_noneReachable {m : Module} (h : g.WellFormed) (hm : m.Renders u g o) : ¬ g.NoneReachable := by
  have hnot : ∀ id, g.isDeclared o.declareUnions id = true → ¬ g.Shows o.declareUnions id Primitive.none.id := by
    intro id hdecl hshows
    rw [← hshows.eq_of_isDeclared hdecl, Graph.isDeclared, h.primitives] at hdecl
    cases hdecl
  have hpath : ∀ top ∈ g.tops, ∀ id, g.Reaches top.type id → ¬ g.Shows o.declareUnions id Primitive.none.id := by
    intro top htop id hreach
    induction hreach with
    | refl =>
      rcases Graph.isDeclared_or_aliasTop (b := o.declareUnions) htop with hdecl | ⟨i, hi⟩
      · exact hnot _ hdecl
      · obtain ⟨a, -, ha⟩ := exists_of_forall₂_left hm.aliases hi
        exact ha.type.none
    | tail hreach ht ih =>
      rename_i y t
      cases hdecl : g.isDeclared o.declareUnions y with
      | true => exact hm.not_shows_none h (h.mem_declared_iff.mpr ⟨⟨top, htop, hreach⟩, hdecl⟩) ht
      | false =>
        exact fun hshows => ih ((ExprContext.shows_iff_of_not_isDeclared hdecl).mpr (Or.inr ⟨t, ht, hshows⟩))
  rintro ⟨top, htop, hreach⟩
  exact hpath top htop _ hreach .refl

theorem Graph.WellFormed.render_ends (h : g.WellFormed) (u : CharacterData) (o : Options) :
    Ends (g.render u o).result (fun e => (∃ place, e = .noneReached place) ∧ g.NoneReachable)
      (fun lines => ∃ m : Module, m.Renders u g o ∧ lines = m.lines) := by
  have hmodule := h.module_ends u o
  unfold Graph.render Renderer.render
  simp only [Renderer.new]
  cases hm : g.module u o with
  | error s => exact hmodule.of_error hm
  | ok r => exact ⟨r.1, hmodule.of_ok hm, rfl⟩

/-- If the sentinel cannot be reached then the lines of a module are returned. -/
theorem Graph.WellFormed.exists_module (h : g.WellFormed) (u : CharacterData) (o : Options)
    (hnone : ¬ g.NoneReachable) :
    ∃ m : Module, m.Renders u g o ∧ (g.render u o).result = .ok m.lines := by
  obtain ⟨lines, hlines, m, hm, rfl⟩ := (h.render_ends u o).exists_ok fun e he => hnone he.2
  exact ⟨m, hm, hlines⟩

theorem getElem?_dependencies (h : g.WellFormed) (hid : id ∈ g.declared o.declareUnions) :
    (g.orderedFor o).dependencies[id]? = some (g.dependencies o.declareUnions id) := by
  have hlt : id < g.size := h.lt_size_of_mem_declared hid
  have hsize : id < (g.orderedFor o).dependencies.size := by
    change id < (g.dependencyLists o.declareUnions (g.declared o.declareUnions)).size
    rwa [Graph.size_dependencyLists]
  have hget : (g.orderedFor o).dependencies.getD id [] = g.dependencies o.declareUnions id :=
    Graph.getD_dependencyLists hid hlt
  rw [← hget, Array.getD_eq_getD_getElem?, Array.getElem?_eq_getElem hsize, Option.getD_some]

namespace Graph

/-- **A rendering fails just if the sentinel can be reached**, and then it says so; otherwise it returns lines. Every
declared type that can be reached has its name and its dependencies, every property, case and top-level has its name,
and the expression for a type that can be reached is written unless the sentinel is met in it. -/
theorem Built.render_fails_iff (hg : g.Built) (u : CharacterData) (o : Options) :
    let names := NameTable.ofGraph u o g
    ((∃ place, (g.render u o).result = .error (.noneReached place)) ↔ g.NoneReachable) ∧
      ((∃ lines, (g.render u o).result = .ok lines) ↔ ¬ g.NoneReachable) ∧
      (∀ e, (g.render u o).result = .error e → ∃ place, e = .noneReached place) ∧
      (∀ id, g.Reached id → g.isDeclared o.declareUnions id = true →
        (∃ name, names.type id = .ok name) ∧
        (∀ hint ps, g.node? id = some (.record hint ps) →
          ∃ ns, names.propertiesOf id = .ok ns ∧ ns.length = ps.length) ∧
        (∀ hint cs, g.node? id = some (.enum hint cs) → ∃ ns, names.casesOf id = .ok ns ∧ ns.length = cs.length) ∧
        (g.orderedFor o).dependencies[id]? = some (g.dependencies o.declareUnions id)) ∧
      (∀ i < g.tops.length, ∃ name, names.topLevel i = .ok name) ∧
      ∀ id, g.Reached id → ∀ eager bound,
        (∃ e, typeExpr (g.context u o eager bound) g id = .ok e) ∨
          g.Shows o.declareUnions id Primitive.none.id ∧
            ∃ place, typeExpr (g.context u o eager bound) g id = .error (.noneReached place) := by
  intro names
  have h := hg.wellFormed
  have hends := h.render_ends u o
  have hlines : ∀ lines, (g.render u o).result = .ok lines → ¬ g.NoneReachable := by
    intro lines hlines
    obtain ⟨m, hm, -⟩ := hends.of_ok hlines
    exact hm.not_noneReachable h
  refine ⟨⟨?_, fun hnone => ?_⟩, ⟨?_, fun hnone => ?_⟩, fun e he => (hends.of_error he).1, ?_, ?_, ?_⟩
  · rintro ⟨place, he⟩
    exact (hends.of_error he).2
  · cases hresult : (g.render u o).result with
    | error e =>
      obtain ⟨⟨place, rfl⟩, -⟩ := hends.of_error hresult
      exact ⟨place, rfl⟩
    | ok lines => exact absurd hnone (hlines lines hresult)
  · rintro ⟨lines, hresult⟩
    exact hlines lines hresult
  · obtain ⟨m, -, hresult⟩ := h.exists_module u o hnone
    exact ⟨m.lines, hresult⟩
  · intro id hreached hdecl
    have hid : id ∈ g.declared o.declareUnions := h.mem_declared_iff.mpr ⟨hreached, hdecl⟩
    refine ⟨NameTable.exists_type hid, fun hint ps hn => ?_, fun hint cs hn => ?_, getElem?_dependencies h hid⟩
    · exact ⟨_, NameTable.propertiesOf_record hid hn, length_propertyNames u o ps⟩
    · exact ⟨_, NameTable.casesOf_enum hid hn, length_caseNames u o cs⟩
  · intro i hi
    exact NameTable.exists_topLevel hi
  · intro id hreached eager bound
    have hexpr := typeExpr_ends (c := g.context u o eager bound) h (h.reached_lt hreached)
      fun d => exists_type_of_shows h hreached
    cases hresult : typeExpr (g.context u o eager bound) g id with
    | ok e => exact Or.inl ⟨e, rfl⟩
    | error e =>
      obtain ⟨rfl, hnone⟩ := hexpr.of_error hresult
      exact Or.inr ⟨hnone, _, rfl⟩

/-- A class with a list of sentinels. -/
def listOfNoneCalls : List Call := [
  .array Primitive.none.id,
  .record (Bytes.ascii "A") [⟨Bytes.ascii "x", 10, false⟩],
  .topLevel (Bytes.ascii "A") 11]

def listOfNone : Graph := listOfNoneCalls.foldl after empty

theorem render_listOfNone_fails :
    listOfNone.Built ∧ listOfNone.NoneReachable ∧
      ∃ place, (listOfNone.render .ascii ⟨true, false, []⟩).result = .error (.noneReached place) := by
  have hbuilt : listOfNone.Built := ⟨listOfNoneCalls, rfl⟩
  have htops : listOfNone.tops = [⟨Bytes.ascii "A", 11⟩] := by cbv
  have hclass : Leads listOfNone.children 11 10 := by
    have hlist : listOfNone.children 11 = [10] := by cbv
    rw [Leads, hlist]
    exact List.mem_cons_self
  have harray : Leads listOfNone.children 10 Primitive.none.id := by
    have hlist : listOfNone.children 10 = [Primitive.none.id] := by cbv
    rw [Leads, hlist]
    exact List.mem_cons_self
  have hnone : listOfNone.NoneReachable :=
    ⟨⟨Bytes.ascii "A", 11⟩, htops ▸ List.mem_cons_self, (ReflTransGen.single hclass).tail harray⟩
  exact ⟨hbuilt, hnone, (hbuilt.render_fails_iff .ascii ⟨true, false, []⟩).1.mpr hnone⟩

end Graph

end Typewright
