import Typewright.Module.Basic
import Typewright.Proofs.Graph.Reach
import Typewright.Proofs.Module.Mention

/-!
# What the expression for a type mentions

* `plainWords` : the words for types that are built in or imported;
* `ExprContext.Refers c g id w` : `w` is the name of a declared type that is met when `id` is written;
* `ExprContext.Writes c g id e` : besides plain words, `e` mentions exactly those names;
* `typeExpr_ends` : an expression is written so, or the sentinel is met; nothing else can happen. `propertyExpr_ends`
  says the same of properties.
-/

namespace Typewright

open Relation

/-! ## Plain words -/

/-- The words for types that need neither a declaration nor an import. -/
def builtinWords : List Bytes := ["None", "bool", "int", "float", "str", "list", "dict"].map Bytes.ascii

/-- The imports that expressions need. -/
def typeImports : List Import := [.any, .optional, .date, .time, .datetime]

/-- The words for types that are not declared if some names are imported. -/
def plainWords (imports : List Import) : List Bytes :=
  builtinWords ++ (typeImports.filter (· ∈ imports)).map Import.name

theorem mem_plainWords_iff {imports : List Import} {word : Bytes} :
    word ∈ plainWords imports ↔ word ∈ builtinWords ∨ ∃ i ∈ typeImports, i ∈ imports ∧ i.name = word := by
  simp [plainWords, and_assoc]

theorem mem_plainWords_mono {imports imports' : List Import} (h : ∀ i ∈ imports, i ∈ imports') {word : Bytes}
    (hword : word ∈ plainWords imports) : word ∈ plainWords imports' := by
  rw [mem_plainWords_iff] at hword ⊢
  refine hword.imp_right ?_
  rintro ⟨i, htype, hi, hname⟩
  exact ⟨i, htype, h i hi, hname⟩

theorem mem_plainWords_typeImports {imports : List Import} {word : Bytes} (hword : word ∈ plainWords imports) :
    word ∈ plainWords typeImports := by
  rw [mem_plainWords_iff] at hword ⊢
  refine hword.imp_right ?_
  rintro ⟨i, htype, -, hname⟩
  exact ⟨i, htype, htype, hname⟩

theorem Builtin.name_mem_plainWords (b : Builtin) : b.name ∈ plainWords b.imports := by
  cases b <;> decide

theorem isName_of_mem_plainWords {imports : List Import} {word : Bytes} (hword : word ∈ plainWords imports) :
    IsName word := by
  have hall : ∀ word ∈ plainWords typeImports, IsName word := by decide +kernel
  exact hall word (mem_plainWords_typeImports hword)

/-- Plain words are reserved, so that no declaration has one as its name. -/
theorem reserved_of_mem_plainWords {imports : List Import} {word : Bytes} (hword : word ∈ plainWords imports) :
    word ∈ Identifier.reserved .global := by
  have hall : ∀ word ∈ plainWords typeImports, word ∈ Identifier.reserved .global := by decide +kernel
  exact hall word (mem_plainWords_typeImports hword)

theorem TypeExpr.mem_importsAll {i : Import} {es : List TypeExpr} : i ∈ importsAll es ↔ ∃ e ∈ es, i ∈ e.imports := by
  induction es with
  | nil => simp [importsAll]
  | cons e es ih => simp [importsAll, ih]

/-! ## References -/

namespace ExprContext

variable {c : ExprContext} {g : Graph} {id : TypeId}

/-- Whether the name of a declared type is put between quotation marks: it is a union that is not bound yet. -/
def quotes (c : ExprContext) (g : Graph) (id : TypeId) : Bool :=
  c.eager && g.isUnionAt id && id ∉ c.bound

/-- A word names a declared type that is met when a type is written. -/
def Refers (c : ExprContext) (g : Graph) (id : TypeId) (w : Mention) : Prop :=
  ∃ d, g.Shows c.declareUnions id d ∧ g.isDeclared c.declareUnions d = true ∧ c.names.type d = .ok w.word ∧
    w.quoted = c.quotes g d

/-- An expression mentions the declared types that are met when a type is written, and apart from them only plain
words, for which it needs the imports. -/
structure Writes (c : ExprContext) (g : Graph) (id : TypeId) (e : TypeExpr) : Prop where
  none : ¬ g.Shows c.declareUnions id Primitive.none.id
  sound : ∀ w ∈ e.mentions, w.word ∈ plainWords e.imports ∧ w.quoted = false ∨ c.Refers g id w
  complete : ∀ w, c.Refers g id w → w ∈ e.mentions

theorem shows_iff_of_not_isDeclared {b : Bool} (hd : g.isDeclared b id = false) {x : TypeId} :
    g.Shows b id x ↔ x = id ∨ ∃ t ∈ g.children id, g.Shows b t x := by
  unfold Graph.Shows
  rw [ReflTransGen.cases_head_iff]
  unfold Leads
  rw [Graph.lookThrough_of_not_isDeclared hd, eq_comm]

theorem refers_iff_of_not_isDeclared (hd : g.isDeclared c.declareUnions id = false) {w : Mention} :
    c.Refers g id w ↔ ∃ t ∈ g.children id, c.Refers g t w := by
  constructor
  · rintro ⟨d, hshows, hdecl, hname, hquoted⟩
    rcases (shows_iff_of_not_isDeclared hd).mp hshows with rfl | ⟨t, ht, hshows⟩
    · rw [hd] at hdecl
      cases hdecl
    · exact ⟨t, ht, d, hshows, hdecl, hname, hquoted⟩
  · rintro ⟨t, ht, d, hshows, hrest⟩
    exact ⟨d, (shows_iff_of_not_isDeclared hd).mpr (Or.inr ⟨t, ht, hshows⟩), hrest⟩

theorem refers_iff_of_isDeclared (hd : g.isDeclared c.declareUnions id = true) {w : Mention} :
    c.Refers g id w ↔ c.names.type id = .ok w.word ∧ w.quoted = c.quotes g id := by
  constructor
  · rintro ⟨d, hshows, -, hrest⟩
    rwa [hshows.eq_of_isDeclared hd] at hrest
  · exact fun h => ⟨id, .refl, hd, h⟩

/-! ## One type -/

/-- A type that is written in place mentions what its parts mention. -/
theorem Writes.of_parts {e : TypeExpr} (hd : g.isDeclared c.declareUnions id = false) (hid : id ≠ Primitive.none.id)
    (hnone : ∀ t ∈ g.children id, ¬ g.Shows c.declareUnions t Primitive.none.id)
    (hsound : ∀ w ∈ e.mentions, w.word ∈ plainWords e.imports ∧ w.quoted = false ∨
      ∃ t ∈ g.children id, c.Refers g t w)
    (hcomplete : ∀ t ∈ g.children id, ∀ w, c.Refers g t w → w ∈ e.mentions) : c.Writes g id e where
  none h := by
    rcases (shows_iff_of_not_isDeclared hd).mp h with h | ⟨t, ht, h⟩
    · exact hid h.symm
    · exact hnone t ht h
  sound w hw := (hsound w hw).imp_right (refers_iff_of_not_isDeclared hd).mpr
  complete w hw := by
    obtain ⟨t, ht, h⟩ := (refers_iff_of_not_isDeclared hd).mp hw
    exact hcomplete t ht w h

/-- A declared type is written as its name. -/
theorem Writes.of_isDeclared {name : Bytes} {e : TypeExpr} (hd : g.isDeclared c.declareUnions id = true)
    (hid : id ≠ Primitive.none.id) (hname : c.names.type id = .ok name) (he : e.mentions = [⟨name, c.quotes g id⟩]) :
    c.Writes g id e where
  none h := hid (h.eq_of_isDeclared hd).symm
  sound w hw := by
    rw [he, List.mem_singleton] at hw
    subst hw
    exact Or.inr ((refers_iff_of_isDeclared hd).mpr ⟨hname, rfl⟩)
  complete w hw := by
    obtain ⟨hw, hquoted⟩ := (refers_iff_of_isDeclared hd).mp hw
    rw [hname] at hw
    rw [he, List.mem_singleton, Except.ok.inj hw, ← hquoted]

theorem isDeclared_primitive {b : Bool} {p : Primitive} (hn : g.node? id = some (.primitive p)) :
    g.isDeclared b id = false := by
  rw [Graph.isDeclared, hn]

theorem shows_primitive_iff {b : Bool} {p : Primitive} (hn : g.node? id = some (.primitive p)) {x : TypeId} :
    g.Shows b id x ↔ x = id := by
  rw [shows_iff_of_not_isDeclared (isDeclared_primitive hn), Graph.children_of_node? hn]
  simp [Node.children]

theorem not_refers_primitive {p : Primitive} (hn : g.node? id = some (.primitive p)) (w : Mention) :
    ¬ c.Refers g id w := by
  rw [refers_iff_of_not_isDeclared (isDeclared_primitive hn), Graph.children_of_node? hn]
  simp [Node.children]

theorem Writes.of_builtin {p : Primitive} (hn : g.node? id = some (.primitive p)) (hid : id ≠ Primitive.none.id)
    (b : Builtin) : c.Writes g id (.builtin b) where
  none h := hid ((shows_primitive_iff hn).mp h).symm
  sound w hw := by
    rw [List.mem_singleton.mp hw]
    exact Or.inl ⟨b.name_mem_plainWords, rfl⟩
  complete w hw := absurd hw (not_refers_primitive hn w)

/-- Plain words around the expression for a part; another part, if there is one, is `null`. -/
theorem Writes.wrap {t : TypeId} {e e' : TypeExpr} {words : List Mention} {imports : List Import} (h : g.WellFormed)
    (he : c.Writes g t e) (hd : g.isDeclared c.declareUnions id = false) (hid : id ≠ Primitive.none.id)
    (ht : t ∈ g.children id) (hparts : ∀ t' ∈ g.children id, t' = t ∨ g.node? t' = some (.primitive .null))
    (he' : e'.mentions = words ++ e.mentions) (himports : e'.imports = imports ++ e.imports)
    (hwords : ∀ w ∈ words, w.word ∈ plainWords imports ∧ w.quoted = false) : c.Writes g id e' := by
  refine Writes.of_parts hd hid (fun t' ht' hshows => ?_) (fun w hw => ?_) fun t' ht' w hw => ?_
  · rcases hparts t' ht' with rfl | hnull
    · exact he.none hshows
    · have hid' : t' = Primitive.null.id := (h.fits t' _ hnull).primitive .null rfl
      rw [shows_primitive_iff hnull, hid'] at hshows
      cases hshows
  · rw [he'] at hw
    rcases List.mem_append.mp hw with hw | hw
    · exact Or.inl ((hwords w hw).imp_left (mem_plainWords_mono fun i => himports ▸ List.mem_append_left _))
    · exact (he.sound w hw).imp (And.imp_left (mem_plainWords_mono fun i => himports ▸ List.mem_append_right _))
        fun hw => ⟨t, ht, hw⟩
  · rcases hparts t' ht' with rfl | hnull
    · rw [he']
      exact List.mem_append_right _ (he.complete w hw)
    · exact absurd hw (not_refers_primitive hnull w)

/-- What can be missing is mentioned all the same. -/
theorem Writes.optional {e : TypeExpr} (he : c.Writes g id e) : c.Writes g id (.optional e) where
  none := he.none
  sound w hw := by
    rw [TypeExpr.mentions] at hw
    rcases List.mem_cons.mp hw with rfl | hw
    · have hword : Bytes.ascii "Optional" ∈ plainWords [.optional] := by decide
      exact Or.inl ⟨mem_plainWords_mono (fun i hi => List.mem_append_left e.imports hi) hword, rfl⟩
    · exact (he.sound w hw).imp_left (And.imp_left (mem_plainWords_mono fun i => List.mem_cons_of_mem _))
  complete w hw := by
    rw [TypeExpr.mentions]
    exact List.mem_cons_of_mem _ (he.complete w hw)

/-- Several types are written side by side. -/
theorem Writes.oneOf {es : List TypeExpr} (hes : List.Forall₂ (c.Writes g) (g.children id) es)
    (hd : g.isDeclared c.declareUnions id = false) (hid : id ≠ Primitive.none.id) : c.Writes g id (.oneOf es) := by
  refine Writes.of_parts hd hid (fun t ht => ?_) (fun w hw => ?_) fun t ht w hw => ?_
  · obtain ⟨e, -, he⟩ := exists_of_forall₂_left hes ht
    exact he.none
  · rw [TypeExpr.mentions] at hw
    obtain ⟨e, he, hw⟩ := TypeExpr.mem_mentionsAll.mp hw
    obtain ⟨t, ht, hwrites⟩ := exists_of_forall₂_right hes he
    have himports : ∀ i ∈ e.imports, i ∈ (TypeExpr.oneOf es).imports :=
      fun i hi => TypeExpr.mem_importsAll.mpr ⟨e, he, hi⟩
    exact (hwrites.sound w hw).imp (And.imp_left (mem_plainWords_mono himports)) fun hw => ⟨t, ht, hw⟩
  · obtain ⟨e, he, hwrites⟩ := exists_of_forall₂_left hes ht
    rw [TypeExpr.mentions]
    exact TypeExpr.mem_mentionsAll.mpr ⟨e, he, hwrites.complete w hw⟩

end ExprContext

/-! ## All types -/

variable {c : ExprContext} {g : Graph} {id : TypeId}

theorem ofPrimitive?_eq_none {p : Primitive} (h : Builtin.ofPrimitive? p = none) : p = .none := by
  cases p <;> cases h
  rfl

theorem nullableInner?_eq_some {inner : TypeId} (h : g.nullableInner? id = some inner) :
    inner ∈ g.children id ∧ ∀ t ∈ g.children id, t = inner ∨ g.node? t = some (.primitive .null) := by
  unfold Graph.nullableInner? at h
  split at h
  case h_2 => cases h
  case h_1 hint a b hn =>
    rw [Graph.children_of_node? hn]
    split at h
    · next ha =>
      cases h
      simp [Node.children, Graph.isPrimitive_iff.mp ha]
    · split at h
      · next hb =>
        cases h
        simp [Node.children, Graph.isPrimitive_iff.mp hb]
      · cases h

/-- The one error that there is: the sentinel is met when a type is written. -/
def ExprContext.Stops (c : ExprContext) (g : Graph) (id : TypeId) (e : RenderError) : Prop :=
  e = .noneReached c.place ∧ g.Shows c.declareUnions id Primitive.none.id

theorem ne_none_of_node? (h : g.WellFormed) {n : Node} (hn : g.node? id = some n) (hp : n ≠ .primitive .none) :
    id ≠ Primitive.none.id := by
  rintro rfl
  rw [h.primitives] at hn
  exact hp (Option.some.inj hn).symm

theorem part_lt (h : g.WellFormed) (hd : g.isDeclared c.declareUnions id = false) {t : TypeId}
    (ht : t ∈ g.children id) : t < id :=
  h.lookThrough_lt (by rwa [Graph.lookThrough_of_not_isDeclared hd])

theorem shows_of_part (hd : g.isDeclared c.declareUnions id = false) {t d : TypeId} (ht : t ∈ g.children id)
    (hshows : g.Shows c.declareUnions t d) : g.Shows c.declareUnions id d :=
  (ExprContext.shows_iff_of_not_isDeclared hd).mpr (Or.inr ⟨t, ht, hshows⟩)

theorem part_ends (h : g.WellFormed) (hd : g.isDeclared c.declareUnions id = false) {t : TypeId}
    (ht : t ∈ g.children id) (hpart : Ends (typeExpr c g t) (c.Stops g t) (c.Writes g t)) :
    Ends (if t < id then typeExpr c g t else .error (.unknownType t)) (c.Stops g id) (c.Writes g t) := by
  rw [if_pos (part_lt h hd ht)]
  exact hpart.mono (fun _ he => ⟨he.1, shows_of_part hd ht he.2⟩) fun _ he => he

theorem wrapped_ends (h : g.WellFormed) {t : TypeId} {x : Except RenderError TypeExpr}
    (hx : Ends x (c.Stops g id) (c.Writes g t)) (hd : g.isDeclared c.declareUnions id = false)
    (hid : id ≠ Primitive.none.id) (ht : t ∈ g.children id)
    (hparts : ∀ t' ∈ g.children id, t' = t ∨ g.node? t' = some (.primitive .null)) {kind : TypeExpr → TypeExpr}
    (words : List Mention) (imports : List Import) (hkind : ∀ e, (kind e).mentions = words ++ e.mentions)
    (himports : ∀ e, (kind e).imports = imports ++ e.imports)
    (hwords : ∀ w ∈ words, w.word ∈ plainWords imports ∧ w.quoted = false) :
    Ends (x.map kind) (c.Stops g id) (c.Writes g id) := by
  refine Ends.map (hx.mono (fun _ he => he) fun e he => ?_)
  exact he.wrap h hd hid ht hparts (hkind e) (himports e) hwords

theorem named_ends (hd : g.isDeclared c.declareUnions id = true) (hid : id ≠ Primitive.none.id)
    (hname : ∃ name, c.names.type id = .ok name) {kind : Bytes → TypeExpr}
    (hkind : ∀ name, (kind name).mentions = [⟨name, c.quotes g id⟩]) :
    Ends ((c.typeName id).map kind) (c.Stops g id) (c.Writes g id) := by
  obtain ⟨name, hname⟩ := hname
  rw [ExprContext.typeName, hname]
  exact .of_isDeclared hd hid hname (hkind name)

/-- **An expression is written or the sentinel is met.** It is enough that the declared types that are met have
names. -/
theorem typeExpr_ends (h : g.WellFormed) (hid : id < g.size)
    (hnames : ∀ d, g.Shows c.declareUnions id d → g.isDeclared c.declareUnions d = true →
      ∃ name, c.names.type d = .ok name) :
    Ends (typeExpr c g id) (c.Stops g id) (c.Writes g id) := by
  induction id using Nat.strongRecOn with
  | ind id ih =>
  obtain ⟨n, hn⟩ := Graph.exists_node? hid
  have hne := ne_none_of_node? h hn
  -- The parts of a type that is written in place have smaller numbers, so they are written before it.
  have hpart : g.isDeclared c.declareUnions id = false → ∀ t ∈ g.children id,
      Ends (if t < id then typeExpr c g t else .error (.unknownType t)) (c.Stops g id) (c.Writes g t) :=
    fun hd t ht => part_ends h hd ht
      (ih t (part_lt h hd ht) (h.children_lt ht) fun d hshows => hnames d (shows_of_part hd ht hshows))
  rw [typeExpr]
  cases n with
  | primitive p =>
    cases hb : Builtin.ofPrimitive? p with
    | none =>
      have hp : id = p.id := (h.fits id _ hn).primitive p rfl
      rw [ofPrimitive?_eq_none hb] at hp
      simp only [hn, hb]
      exact ⟨rfl, hp ▸ .refl⟩
    | some b =>
      have hp : Node.primitive p ≠ .primitive .none := by
        rintro ⟨⟩
        cases hb
      simp only [hn, hb]
      exact ExprContext.Writes.of_builtin hn (hne hp) b
  | array items =>
    have hd : g.isDeclared c.declareUnions id = false := by rw [Graph.isDeclared, hn]
    have hchildren : g.children id = [items] := Graph.children_of_node? hn
    have hmem : items ∈ g.children id := hchildren ▸ List.mem_cons_self
    simp only [hn]
    refine wrapped_ends h (hpart hd items hmem) hd (hne (by simp)) hmem (fun t ht => ?_)
      [⟨Bytes.ascii "list", false⟩] [] (fun _ => rfl) (fun _ => rfl) (by decide)
    rw [hchildren] at ht
    exact Or.inl (List.mem_singleton.mp ht)
  | map values =>
    have hd : g.isDeclared c.declareUnions id = false := by rw [Graph.isDeclared, hn]
    have hchildren : g.children id = [values] := Graph.children_of_node? hn
    have hmem : values ∈ g.children id := hchildren ▸ List.mem_cons_self
    simp only [hn]
    refine wrapped_ends h (hpart hd values hmem) hd (hne (by simp)) hmem (fun t ht => ?_)
      [⟨Bytes.ascii "dict", false⟩, ⟨Bytes.ascii "str", false⟩] [] (fun _ => rfl) (fun _ => rfl) (by decide)
    rw [hchildren] at ht
    exact Or.inl (List.mem_singleton.mp ht)
  | record hint ps =>
    have hd : g.isDeclared c.declareUnions id = true := Graph.isDeclared_iff.mpr (Or.inl ⟨hint, ps, hn⟩)
    simp only [hn]
    refine named_ends hd (hne (by simp)) (hnames id .refl hd) fun name => ?_
    simp [TypeExpr.mentions, ExprContext.quotes, Graph.isUnionAt_of_node? hn, Node.isUnion]
  | enum hint cs =>
    have hd : g.isDeclared c.declareUnions id = true := Graph.isDeclared_iff.mpr (Or.inr (Or.inl ⟨hint, cs, hn⟩))
    simp only [hn]
    refine named_ends hd (hne (by simp)) (hnames id .refl hd) fun name => ?_
    simp [TypeExpr.mentions, ExprContext.quotes, Graph.isUnionAt_of_node? hn, Node.isUnion]
  | union hint ms =>
    cases hinner : g.nullableInner? id with
    | some inner =>
      have hd : g.isDeclared c.declareUnions id = false := by simp [Graph.isDeclared, hn, hinner]
      obtain ⟨hmem, hparts⟩ := nullableInner?_eq_some hinner
      simp only [hn]
      exact wrapped_ends h (hpart hd inner hmem) hd (hne (by simp)) hmem hparts
        [⟨Bytes.ascii "Optional", false⟩] [.optional] (fun _ => rfl) (fun _ => rfl) (by decide)
    | none =>
      by_cases hb : c.declareUnions = true
      · have hd : g.isDeclared c.declareUnions id = true := by simp [Graph.isDeclared, hn, hinner, hb]
        have hquotes : c.quotes g id = (c.eager && decide (id ∉ c.bound)) := by
          simp [ExprContext.quotes, Graph.isUnionAt_of_node? hn, Node.isUnion]
        simp only [hn]
        rw [if_pos hb]
        refine named_ends hd (hne (by simp)) (hnames id .refl hd) fun name => ?_
        rw [hquotes]
        split
        · next hq => rw [hq, TypeExpr.mentions]
        · next hq => rw [Bool.eq_false_of_not_eq_true hq, TypeExpr.mentions]
      · have hd : g.isDeclared c.declareUnions id = false := by simp [Graph.isDeclared, hn, hb]
        have hchildren : g.children id = ms := Graph.children_of_node? hn
        simp only [hn]
        rw [if_neg hb]
        refine Ends.map ((Ends.mapM fun t ht => hpart hd t (hchildren ▸ ht)).mono (fun _ he => he) fun es hes => ?_)
        exact .oneOf (hchildren ▸ hes) hd (hne (by simp))

/-- A property is written or the sentinel is met in its type. -/
theorem propertyExpr_ends {p : Property} (h : g.WellFormed) (hp : p.type < g.size)
    (hnames : ∀ d, g.Shows c.declareUnions p.type d → g.isDeclared c.declareUnions d = true →
      ∃ name, c.names.type d = .ok name) :
    Ends (propertyExpr c g p) (c.Stops g p.type) (c.Writes g p.type) := by
  refine Ends.map ((typeExpr_ends h hp hnames).mono (fun _ he => he) fun e he => ?_)
  split
  · exact he.optional
  · exact he

end Typewright
