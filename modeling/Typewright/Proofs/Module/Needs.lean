import Mathlib
import Typewright.Proofs.Graph.Invariant
import Typewright.Proofs.Module.Render

/-!
# What a module has to import

* `Graph.Needs g o i` : a rendering of `g` cannot do without the import `i`, said by what can be reached;
* `Graph.Brings`, `Graph.Uses` : what one type takes from a library when it is written, and what is taken when a type is
  written with all that is met behind it (`typeExpr_uses`);
* `Graph.DeclarationUses` : what the declaration of a type takes;
* `Graph.WellFormed.anchored` : a type that can be reached is met in a declaration or in an alias;
* `Graph.WellFormed.mem_imports_iff` : a module imports what it needs and nothing else.
-/

namespace Typewright

open Relation

variable {u : CharacterData} {g : Graph} {o : Options} {b : Bool} {id : TypeId} {i : Import}

theorem exists_mem_iff_of_forall₂ {α β : Type} {P : β → Prop} {Q : α → Prop} {l : List α} {l' : List β}
    (h : List.Forall₂ (fun a b => P b ↔ Q a) l l') : (∃ b ∈ l', P b) ↔ ∃ a ∈ l, Q a := by
  constructor
  · intro hb
    obtain ⟨b, hb, hP⟩ := hb
    obtain ⟨a, ha, hab⟩ := exists_of_forall₂_right h hb
    exact ⟨a, ha, hab.mp hP⟩
  · intro ha
    obtain ⟨a, ha, hQ⟩ := ha
    obtain ⟨b, hb, hab⟩ := exists_of_forall₂_left h ha
    exact ⟨b, hb, hab.mpr hQ⟩

theorem Ends.tryIn {α : Type} {x : Except RenderError α} {Q : α → Prop} (h : Ends x (fun _ => True) Q)
    (c : ExprContext) : Ends (c.tryIn x) (fun _ => True) Q :=
  Ends.mapError (h.mono (fun _ _ => True.intro) fun _ ha => ha)

theorem ends_true {ε α : Type} (x : Except ε α) : Ends x (fun _ => True) (fun _ => True) := by
  cases x with
  | error e => trivial
  | ok a => trivial

namespace Graph

/-! ## Needs -/

/-- A union of two members, one of them `null`. -/
def IsNullable (g : Graph) (id : TypeId) : Prop :=
  ∃ hint x y, g.node? id = some (.union hint [x, y]) ∧
    (g.node? x = some (.primitive .null) ∨ g.node? y = some (.primitive .null))

/-- A property may be missing, and its type does not say so. -/
structure Wraps (g : Graph) (p : Property) : Prop where
  optional : p.optional = true
  not_nullable : ¬ g.IsNullable p.type
  ne_null : g.node? p.type ≠ some (.primitive .null)
  ne_any : g.node? p.type ≠ some (.primitive .any)

/-- A primitive type can be reached. -/
def ReachesPrimitive (g : Graph) (p : Primitive) : Prop := ∃ id, g.Reached id ∧ g.node? id = some (.primitive p)

/-- What a rendering has to import. -/
def Needs (g : Graph) (o : Options) : Import → Prop
  | .any => g.ReachesPrimitive .any
  | .optional =>
    (∃ id, g.Reached id ∧ g.IsNullable id) ∨
      ∃ id hint ps, g.Reached id ∧ g.node? id = some (.record hint ps) ∧ ∃ p ∈ ps, g.Wraps p
  | .union =>
    o.declareUnions = true ∧ ∃ id hint ms, g.Reached id ∧ g.node? id = some (.union hint ms) ∧ ¬ g.IsNullable id
  | .enum => ∃ id hint cs, g.Reached id ∧ g.node? id = some (.enum hint cs)
  | .date => g.ReachesPrimitive .date
  | .time => g.ReachesPrimitive .time
  | .datetime => g.ReachesPrimitive .dateTime

theorem isNullable_iff : g.IsNullable id ↔ ∃ inner, g.nullableInner? id = some inner := by
  unfold nullableInner? IsNullable
  constructor
  · intro h
    obtain ⟨hint, x, y, hn, hnull⟩ := h
    rw [hn]
    by_cases hx : g.isPrimitive .null x = true
    · exact ⟨y, by simp [hx]⟩
    · have hy : g.isPrimitive .null y = true :=
        isPrimitive_iff.mpr (hnull.resolve_left fun h => hx (isPrimitive_iff.mpr h))
      exact ⟨x, by simp [hx, hy]⟩
  · intro h
    obtain ⟨inner, h⟩ := h
    split at h
    case h_2 => exact absurd h (by simp)
    case h_1 hint x y hn =>
      refine ⟨hint, x, y, hn, ?_⟩
      by_cases hx : g.isPrimitive .null x = true
      · exact .inl (isPrimitive_iff.mp hx)
      · by_cases hy : g.isPrimitive .null y = true
        · exact .inr (isPrimitive_iff.mp hy)
        · simp [hx, hy] at h

theorem nullableInner?_eq_none_iff : g.nullableInner? id = none ↔ ¬ g.IsNullable id := by
  rw [isNullable_iff, Option.eq_none_iff_forall_ne_some]
  push Not
  rfl

theorem wraps_iff {p : Property} :
    g.Wraps p ↔ (p.optional && (g.nullableInner? p.type).isNone && !g.isPrimitive .null p.type &&
      !g.isPrimitive .any p.type) = true := by
  simp only [Bool.and_eq_true, Bool.not_eq_true', Option.isNone_iff_eq_none, nullableInner?_eq_none_iff,
    Bool.eq_false_iff, ne_eq, isPrimitive_iff]
  constructor
  · intro h
    exact ⟨⟨⟨h.optional, h.not_nullable⟩, h.ne_null⟩, h.ne_any⟩
  · intro h
    exact ⟨h.1.1.1, h.1.1.2, h.1.2, h.2⟩

/-! ## What is taken when a type is written -/

/-- What a type takes from a library where it is written in place. -/
def Brings (g : Graph) (id : TypeId) : Import → Prop
  | .any => g.node? id = some (.primitive .any)
  | .optional => g.IsNullable id
  | .date => g.node? id = some (.primitive .date)
  | .time => g.node? id = some (.primitive .time)
  | .datetime => g.node? id = some (.primitive .dateTime)
  | .union | .enum => False

/-- What is taken when a type is written with all that is met behind it. -/
def Uses (g : Graph) (declareUnions : Bool) (id : TypeId) (i : Import) : Prop :=
  ∃ d, g.Shows declareUnions id d ∧ g.Brings d i

theorem not_isNullable_of_node? {n : Node} (hn : g.node? id = some n) (hu : n.isUnion = false) : ¬ g.IsNullable id := by
  intro h
  obtain ⟨hint, x, y, hnode, -⟩ := h
  rw [hn] at hnode
  rw [Option.some.inj hnode] at hu
  exact absurd hu (by simp [Node.isUnion])

theorem brings_primitive_iff {p : Primitive} {builtin : Builtin} (hn : g.node? id = some (.primitive p))
    (hb : Builtin.ofPrimitive? p = some builtin) : g.Brings id i ↔ i ∈ builtin.imports := by
  have hnull : ¬ g.IsNullable id := not_isNullable_of_node? hn rfl
  cases p with
  | none => exact absurd hb (by simp [Builtin.ofPrimitive?])
  | _ =>
    obtain rfl := Option.some.inj hb
    cases i <;> simp [Brings, hn, hnull, Builtin.imports]

theorem not_brings {n : Node} (hn : g.node? id = some n) (hp : ∀ p, n ≠ .primitive p) (hnull : ¬ g.IsNullable id) :
    ¬ g.Brings id i := by
  cases i with
  | optional => exact hnull
  | union | enum => exact not_false
  | any | date | time | datetime =>
    intro h
    exact hp _ (Option.some.inj (hn.symm.trans h))

theorem brings_iff_of_isNullable (h : g.IsNullable id) : g.Brings id i ↔ i = .optional := by
  have hnode := h
  obtain ⟨hint, x, y, hn, -⟩ := hnode
  cases i with
  | optional => simpa [Brings] using h
  | _ => simp [Brings, hn]

theorem not_brings_of_isDeclared (h : g.isDeclared b id = true) : ¬ g.Brings id i := by
  rcases isDeclared_iff.mp h with ⟨hint, ps, hn⟩ | ⟨hint, cs, hn⟩ | ⟨-, ⟨hint, ms, hn⟩, hnull⟩
  · exact not_brings hn (fun p => Node.noConfusion) (not_isNullable_of_node? hn rfl)
  · exact not_brings hn (fun p => Node.noConfusion) (not_isNullable_of_node? hn rfl)
  · exact not_brings hn (fun p => Node.noConfusion) (nullableInner?_eq_none_iff.mp hnull)

theorem not_uses_of_isDeclared (h : g.isDeclared b id = true) : ¬ g.Uses b id i := by
  intro huses
  obtain ⟨d, hshows, hbrings⟩ := huses
  rw [hshows.eq_of_isDeclared h] at hbrings
  exact not_brings_of_isDeclared h hbrings

theorem uses_iff_of_not_isDeclared (h : g.isDeclared b id = false) :
    g.Uses b id i ↔ g.Brings id i ∨ ∃ t ∈ g.children id, g.Uses b t i := by
  unfold Uses
  simp only [ExprContext.shows_iff_of_not_isDeclared h]
  constructor
  · intro huses
    obtain ⟨d, hd | ⟨t, ht, hshows⟩, hbrings⟩ := huses
    · exact .inl (hd ▸ hbrings)
    · exact .inr ⟨t, ht, d, hshows, hbrings⟩
  · intro huses
    rcases huses with hbrings | ⟨t, ht, d, hshows, hbrings⟩
    · exact ⟨id, .inl rfl, hbrings⟩
    · exact ⟨d, .inr ⟨t, ht, hshows⟩, hbrings⟩

theorem uses_primitive_iff {p : Primitive} {builtin : Builtin} (hn : g.node? id = some (.primitive p))
    (hb : Builtin.ofPrimitive? p = some builtin) : g.Uses b id i ↔ i ∈ builtin.imports := by
  rw [uses_iff_of_not_isDeclared (ExprContext.isDeclared_primitive hn), brings_primitive_iff hn hb,
    children_of_node? hn]
  simp [Node.children]

/-- A type that brings nothing takes what its parts take. -/
theorem uses_iff_exists_part {n : Node} (hn : g.node? id = some n) (hp : ∀ p, n ≠ .primitive p)
    (hnull : ¬ g.IsNullable id) (hd : g.isDeclared b id = false) :
    g.Uses b id i ↔ ∃ t ∈ n.children, g.Uses b t i := by
  rw [uses_iff_of_not_isDeclared hd, children_of_node? hn, or_iff_right (not_brings hn hp hnull)]

/-- A nullable type takes what the other type takes: null takes nothing. -/
theorem uses_nullable_iff {inner : TypeId} (hinner : g.nullableInner? id = some inner) :
    g.Uses b id i ↔ i = .optional ∨ g.Uses b inner i := by
  have hnull := isNullable_iff.mpr ⟨inner, hinner⟩
  obtain ⟨hmem, hothers⟩ := nullableInner?_eq_some hinner
  have hd : g.isDeclared b id = false := by
    have hunion := hnull
    obtain ⟨hint, x, y, hn, -⟩ := hunion
    simp [isDeclared, hn, hinner]
  rw [uses_iff_of_not_isDeclared hd, brings_iff_of_isNullable hnull]
  refine or_congr_right ⟨fun hparts => ?_, fun hi => ⟨inner, hmem, hi⟩⟩
  obtain ⟨t, ht, huses⟩ := hparts
  rcases hothers t ht with rfl | hprimitive
  · exact huses
  · rw [uses_primitive_iff hprimitive rfl] at huses
    exact absurd huses (by simp [Builtin.imports])

end Graph

/-! ## Expressions -/

/-- An expression takes from the libraries what is met when a type is written. -/
def Graph.Imported (g : Graph) (declareUnions : Bool) (id : TypeId) (e : TypeExpr) : Prop :=
  ∀ i, i ∈ e.imports ↔ g.Uses declareUnions id i

/-- A type that is written around one other takes what this one takes, and perhaps something of its own. -/
theorem imported_around {c : ExprContext} {t : TypeId} {kind : TypeExpr → TypeExpr} (own : List Import)
    (ht : Ends (typeExpr c g t) (fun _ => True) (g.Imported c.declareUnions t))
    (hkind : ∀ e, (kind e).imports = own ++ e.imports)
    (huses : ∀ i, g.Uses c.declareUnions id i ↔ i ∈ own ∨ g.Uses c.declareUnions t i) :
    Ends ((typeExpr c g t).map kind) (fun _ => True) (g.Imported c.declareUnions id) := by
  refine Ends.map (ht.mono (fun _ _ => trivial) fun e he i => ?_)
  rw [hkind, List.mem_append, huses, he i]

/-- A name takes nothing. -/
theorem imported_name {c : ExprContext} {kind : Bytes → TypeExpr} (hd : g.isDeclared c.declareUnions id = true)
    (hkind : ∀ s, (kind s).imports = []) :
    Ends ((c.typeName id).map kind) (fun _ => True) (g.Imported c.declareUnions id) := by
  cases c.typeName id with
  | error e => trivial
  | ok s =>
    intro i
    simp only [hkind, List.not_mem_nil, false_iff]
    exact Graph.not_uses_of_isDeclared hd

theorem imported_union (h : g.WellFormed) {c : ExprContext} {hint : Bytes} {ms : List TypeId}
    (hn : g.node? id = some (.union hint ms)) (hinner : g.nullableInner? id = none)
    (ih : ∀ m ∈ ms, Ends (typeExpr c g m) (fun _ => True) (g.Imported c.declareUnions m)) :
    Ends (typeExpr c g id) (fun _ => True) (g.Imported c.declareUnions id) := by
  cases hdeclare : c.declareUnions with
  | true =>
    rw [← hdeclare, typeExpr, hn]
    simp only [hinner, if_pos hdeclare]
    refine imported_name (Graph.isDeclared_iff.mpr (.inr (.inr ⟨hdeclare, ⟨hint, ms, hn⟩, hinner⟩))) fun s => ?_
    split
    · rfl
    · rfl
  | false =>
    have hd : g.isDeclared c.declareUnions id = false := by simp [Graph.isDeclared, hn, hdeclare]
    have hnull := Graph.nullableInner?_eq_none_iff.mp hinner
    rw [← hdeclare, h.descends.typeExpr_union c id hint ms hn hinner hdeclare]
    refine Ends.map ((Ends.mapM ih).mono (fun _ _ => trivial) fun es hes i => ?_)
    rw [Graph.uses_iff_exists_part hn (fun p => Node.noConfusion) hnull hd, TypeExpr.imports, TypeExpr.mem_importsAll,
      exists_mem_iff_of_forall₂ (hes.imp fun m e he => he i)]
    rfl

/-- **An expression takes from the libraries what is met when it is written.** -/
theorem typeExpr_uses (h : g.WellFormed) (c : ExprContext) (id : TypeId) :
    Ends (typeExpr c g id) (fun _ => True) (g.Imported c.declareUnions id) := by
  induction id using Nat.strongRecOn with
  | ind id ih =>
  cases hn : g.node? id with
  | none =>
    rw [typeExpr, hn]
    trivial
  | some n =>
    have hpart : n.isRecord = false → ∀ t ∈ n.children, Ends (typeExpr c g t) (fun _ => True)
        (g.Imported c.declareUnions t) :=
      fun hrecord t ht => ih t ((h.fits id n hn).earlier hrecord t ht)
    cases n with
    | primitive p =>
      rw [typeExpr, hn]
      dsimp only
      cases hb : Builtin.ofPrimitive? p with
      | none => trivial
      | some builtin => exact fun i => (Graph.uses_primitive_iff hn hb).symm
    | array items =>
      rw [h.descends.typeExpr_array c id items hn]
      refine imported_around [] (hpart rfl items List.mem_cons_self) (fun _ => rfl) fun i => ?_
      rw [Graph.uses_iff_exists_part hn (fun p => Node.noConfusion) (Graph.not_isNullable_of_node? hn rfl)
        (by rw [Graph.isDeclared, hn])]
      simp [Node.children]
    | map values =>
      rw [h.descends.typeExpr_map c id values hn]
      refine imported_around [] (hpart rfl values List.mem_cons_self) (fun _ => rfl) fun i => ?_
      rw [Graph.uses_iff_exists_part hn (fun p => Node.noConfusion) (Graph.not_isNullable_of_node? hn rfl)
        (by rw [Graph.isDeclared, hn])]
      simp [Node.children]
    | record hint ps =>
      rw [typeExpr, hn]
      exact imported_name (Graph.isDeclared_iff.mpr (.inl ⟨hint, ps, hn⟩)) fun _ => rfl
    | enum hint cs =>
      rw [typeExpr, hn]
      exact imported_name (Graph.isDeclared_iff.mpr (.inr (.inl ⟨hint, cs, hn⟩))) fun _ => rfl
    | union hint ms =>
      cases hinner : g.nullableInner? id with
      | none => exact imported_union h hn hinner (hpart rfl)
      | some inner =>
        have hmem := (nullableInner?_eq_some hinner).1
        rw [Graph.children_of_node? hn] at hmem
        rw [h.descends.typeExpr_nullable c id inner hinner]
        refine imported_around [.optional] (hpart rfl inner hmem) (fun _ => rfl) fun i => ?_
        rw [Graph.uses_nullable_iff hinner, List.mem_singleton]

theorem propertyExpr_uses (h : g.WellFormed) (c : ExprContext) (p : Property) :
    Ends (propertyExpr c g p) (fun _ => True) (fun e => ∀ i, i ∈ e.imports ↔
      (i = .optional ∧ g.Wraps p) ∨ g.Uses c.declareUnions p.type i) := by
  refine Ends.map ((typeExpr_uses h c p.type).mono (fun _ _ => trivial) fun e he i => ?_)
  rw [Graph.wraps_iff]
  split
  · rename_i hwraps
    rw [TypeExpr.imports, List.mem_cons, he i, hwraps]
    simp
  · rename_i hwraps
    rw [he i]
    simp [hwraps]

/-! ## Declarations and aliases -/

/-- What the declaration of a type takes from the libraries. -/
inductive Graph.DeclarationUses (g : Graph) (declareUnions : Bool) (id : TypeId) : Import → Prop
  | wrapped {hint : Bytes} {ps : List Property} {p : Property} (hn : g.node? id = some (.record hint ps)) (hp : p ∈ ps)
      (hw : g.Wraps p) : DeclarationUses g declareUnions id .optional
  | enum {hint : Bytes} {cs : List Bytes} (hn : g.node? id = some (.enum hint cs)) : DeclarationUses g declareUnions id .enum
  | union {hint : Bytes} {ms : List TypeId} (hn : g.node? id = some (.union hint ms)) :
      DeclarationUses g declareUnions id .union
  | part {t : TypeId} {i : Import} (ht : t ∈ g.children id) (hi : g.Uses declareUnions t i) :
      DeclarationUses g declareUnions id i

/-- The imports of a part of the module are those that the declaration of its type takes. -/
def Graph.ImportsOf (g : Graph) (o : Options) (id : TypeId) (imports : List Import) : Prop :=
  ∀ i, i ∈ imports ↔ g.DeclarationUses o.declareUnions id i

theorem recordBlock_uses (h : g.WellFormed) (hid : id ∈ g.declared o.declareUnions) {hint : Bytes} {ps : List Property}
    (hn : g.node? id = some (.record hint ps)) :
    Ends (recordBlock (g.context u o false []) g id ps) (fun _ => True) (fun b => g.ImportsOf o id b.imports) := by
  have hnames : (g.context u o false []).names.propertiesOf id = .ok (propertyNames u o ps) :=
    NameTable.propertiesOf_record hid hn
  unfold recordBlock
  refine (ends_true _).bind fun name _ _ => ?_
  rw [hnames]
  refine (Ends.mapM fun p _ => (propertyExpr_uses h _ p).tryIn _).bind fun types _ htypes => ?_
  obtain ⟨-, hfields⟩ := forall₂_zipWith_field (length_propertyNames u o ps) htypes
  intro i
  rw [Block.imports, List.mem_flatMap, exists_mem_iff_of_forall₂ (hfields.imp fun p f hf => hf i)]
  constructor
  · intro hi
    obtain ⟨p, hp, ⟨rfl, hwraps⟩ | huses⟩ := hi
    · exact .wrapped hn hp hwraps
    · refine .part ?_ huses
      rw [Graph.children_of_node? hn]
      exact List.mem_map_of_mem hp
  · intro hi
    cases hi with
    | wrapped hn' hp hwraps =>
      rw [hn] at hn'
      obtain ⟨-, rfl⟩ := Node.record.inj (Option.some.inj hn')
      exact ⟨_, hp, .inl ⟨rfl, hwraps⟩⟩
    | enum hn' => exact absurd (hn.symm.trans hn') (by simp)
    | union hn' => exact absurd (hn.symm.trans hn') (by simp)
    | part ht huses =>
      rw [Graph.children_of_node? hn] at ht
      obtain ⟨p, hp, rfl⟩ := List.mem_map.mp ht
      exact ⟨p, hp, .inr huses⟩

theorem enumBlock_uses (hid : id ∈ g.declared o.declareUnions) {hint : Bytes} {cs : List Bytes}
    (hn : g.node? id = some (.enum hint cs)) :
    Ends (enumBlock (g.context u o false []) id) (fun _ => True) (fun b => g.ImportsOf o id b.imports) := by
  have hnames : (g.context u o false []).names.casesOf id = .ok (caseNames u o cs) := NameTable.casesOf_enum hid hn
  unfold enumBlock
  refine (ends_true _).bind fun name _ _ => ?_
  rw [hnames]
  intro i
  rw [Block.imports, List.mem_singleton]
  constructor
  · intro hi
    exact hi ▸ .enum hn
  · intro hi
    cases hi with
    | wrapped hn' _ _ => exact absurd (hn.symm.trans hn') (by simp)
    | enum _ => rfl
    | union hn' => exact absurd (hn.symm.trans hn') (by simp)
    | part ht _ =>
      rw [Graph.children_of_node? hn] at ht
      exact absurd ht List.not_mem_nil

theorem unionBlock_uses (h : g.WellFormed) (bound : List TypeId) (hid : g.isUnionAt id = true) :
    Ends (unionBlock (g.context u o true bound) g id) (fun _ => True) (fun u => g.ImportsOf o id u.imports) := by
  obtain ⟨hint, ms, hn⟩ := Graph.isUnionAt_iff.mp hid
  unfold unionBlock
  refine (ends_true _).bind fun name _ _ => ?_
  refine (Ends.mapM fun t _ => (typeExpr_uses h _ t).tryIn _).bind fun members _ hmembers => ?_
  intro i
  rw [UnionBlock.imports, List.mem_cons, TypeExpr.mem_importsAll,
    exists_mem_iff_of_forall₂ (hmembers.imp fun t e he => he i)]
  constructor
  · intro hi
    rcases hi with rfl | ⟨t, ht, huses⟩
    · exact .union hn
    · exact .part ht huses
  · intro hi
    cases hi with
    | wrapped hn' _ _ => exact absurd (hn.symm.trans hn') (by simp)
    | enum hn' => exact absurd (hn.symm.trans hn') (by simp)
    | union _ => exact .inl rfl
    | part ht huses => exact .inr ⟨_, ht, huses⟩

theorem aliasFor_uses (h : g.WellFormed) (bound : List TypeId) (top : TopLevel × Nat) :
    Ends (aliasFor (g.context u o true bound) g top.1 top.2) (fun _ => True)
      (fun a => ∀ i, i ∈ a.type.imports ↔ g.Uses o.declareUnions top.1.type i) := by
  unfold aliasFor
  refine (ends_true _).bind fun name _ _ => ?_
  exact ((typeExpr_uses h _ top.1.type).tryIn _).bind fun e _ he => he

/-- A module imports what its declarations and aliases take. -/
theorem Graph.WellFormed.module_uses (h : g.WellFormed) (o : Options) :
    Ends (g.module u o) (fun _ => True) (fun r => ∀ i, i ∈ r.1.imports ↔
      (∃ id ∈ g.declared o.declareUnions, g.DeclarationUses o.declareUnions id i) ∨
        ∃ top ∈ g.aliasTops o.declareUnions, g.Uses o.declareUnions top.1.type i) := by
  refine (h.module_assembled (E := fun _ => True) (fun id hid hint ps => recordBlock_uses h hid)
    (fun id hid hint cs => enumBlock_uses hid) (fun id _ hunion bound => unionBlock_uses h bound hunion)
    fun top _ bound => aliasFor_uses h bound top).mono (fun _ he => he) fun r hr i => ?_
  obtain ⟨-, hm⟩ := hr
  have hblocks := exists_mem_iff_of_forall₂ (hm.blocks.imp fun id b hb => hb i)
  have hunions := exists_mem_iff_of_forall₂
    (forall₂_of_getElem? hm.length_unions fun j id u hid hu => hm.unions j id u hid hu i)
  have haliases := exists_mem_iff_of_forall₂ (hm.aliases.imp fun top a ha => ha i)
  show i ∈ _ ++ _ ++ _ ↔ _
  rw [List.mem_append, List.mem_append, List.mem_flatMap, List.mem_flatMap, List.mem_flatMap]
  refine or_congr ?_ haliases
  rw [hblocks, hunions]
  constructor
  · intro hi
    rcases hi with ⟨id, hid, hi⟩ | ⟨id, hid, hi⟩
    · exact ⟨id, (h.mem_blockOrder_iff.mp hid).1, hi⟩
    · exact ⟨id, (h.mem_unionOrder_iff.mp hid).1, hi⟩
  · intro hi
    obtain ⟨id, hid, hi⟩ := hi
    cases hunion : g.isUnionAt id with
    | true => exact .inr ⟨id, h.mem_unionOrder_iff.mpr ⟨hid, hunion⟩, hi⟩
    | false => exact .inl ⟨id, h.mem_blockOrder_iff.mpr ⟨hid, hunion⟩, hi⟩

/-! ## What is met is what can be reached -/

namespace Graph

/-- A type that can be reached is declared, or it is met in a declaration or in an alias. -/
theorem WellFormed.anchored (h : g.WellFormed) {d : TypeId} (hd : g.Reached d) :
    d ∈ g.declared b ∨ (∃ id ∈ g.declared b, ∃ t ∈ g.children id, g.Shows b t d) ∨
      ∃ top ∈ g.aliasTops b, g.Shows b top.1.type d := by
  obtain ⟨top, htop, hpath⟩ := hd
  induction hpath with
  | refl =>
    rcases isDeclared_or_aliasTop (b := b) htop with hdecl | ⟨k, hk⟩
    · exact .inl (h.mem_declared_iff.mpr ⟨⟨top, htop, .refl⟩, hdecl⟩)
    · exact .inr (.inr ⟨(top, k), hk, .refl⟩)
  | @tail y d hpath hyd ih =>
    cases hdecl : g.isDeclared b y with
    | true => exact .inr (.inl ⟨y, h.mem_declared_iff.mpr ⟨⟨top, htop, hpath⟩, hdecl⟩, d, hyd, .refl⟩)
    | false =>
      -- Behind a type that is written in place the way goes on.
      have hstep : Leads (g.lookThrough b) y d := by
        rw [Leads, lookThrough_of_not_isDeclared hdecl]
        exact hyd
      rcases ih with hy | ⟨id, hid, t, ht, hshows⟩ | ⟨top', htop', hshows⟩
      · rw [(h.mem_declared_iff.mp hy).2] at hdecl
        exact absurd hdecl (by decide)
      · exact .inr (.inl ⟨id, hid, t, ht, hshows.tail hstep⟩)
      · exact .inr (.inr ⟨top', htop', hshows.tail hstep⟩)

theorem needs_of_brings {d : TypeId} (hd : g.Reached d) (hi : g.Brings d i) : g.Needs o i := by
  cases i with
  | optional => exact .inl ⟨d, hd, hi⟩
  | union | enum => exact hi.elim
  | any | date | time | datetime => exact ⟨d, hd, hi⟩

theorem needs_of_uses (hid : g.Reached id) (hi : g.Uses o.declareUnions id i) : g.Needs o i := by
  obtain ⟨d, hshows, hbrings⟩ := hi
  obtain ⟨top, htop, hpath⟩ := hid
  exact needs_of_brings ⟨top, htop, hpath.trans hshows.reaches⟩ hbrings

theorem WellFormed.needs_of_declares (h : g.WellFormed) (hid : id ∈ g.declared o.declareUnions)
    (hi : g.DeclarationUses o.declareUnions id i) : g.Needs o i := by
  obtain ⟨hreached, hdecl⟩ := h.mem_declared_iff.mp hid
  cases hi with
  | wrapped hn hp hwraps => exact .inr ⟨id, _, _, hreached, hn, _, hp, hwraps⟩
  | enum hn => exact ⟨id, _, _, hreached, hn⟩
  | union hn =>
    rcases isDeclared_iff.mp hdecl with ⟨_, _, hn'⟩ | ⟨_, _, hn'⟩ | ⟨hdeclare, -, hnull⟩
    · exact absurd (hn.symm.trans hn') (by simp)
    · exact absurd (hn.symm.trans hn') (by simp)
    · exact ⟨hdeclare, id, _, _, hreached, hn, nullableInner?_eq_none_iff.mp hnull⟩
  | part ht huses => exact needs_of_uses (hreached.child ht) huses

/-- What a type takes that can be reached is taken by a declaration or an alias. -/
theorem WellFormed.taken_of_brings (h : g.WellFormed) {d : TypeId} (hd : g.Reached d) (hi : g.Brings d i) :
    (∃ id ∈ g.declared b, g.DeclarationUses b id i) ∨ ∃ top ∈ g.aliasTops b, g.Uses b top.1.type i := by
  rcases h.anchored (b := b) hd with hdecl | ⟨id, hid, t, ht, hshows⟩ | ⟨top, htop, hshows⟩
  · exact absurd hi (not_brings_of_isDeclared (h.mem_declared_iff.mp hdecl).2)
  · exact .inl ⟨id, hid, .part ht ⟨d, hshows, hi⟩⟩
  · exact .inr ⟨top, htop, d, hshows, hi⟩

theorem WellFormed.needs_iff (h : g.WellFormed) :
    g.Needs o i ↔ (∃ id ∈ g.declared o.declareUnions, g.DeclarationUses o.declareUnions id i) ∨
      ∃ top ∈ g.aliasTops o.declareUnions, g.Uses o.declareUnions top.1.type i := by
  constructor
  · intro hi
    cases i with
    | any | date | time | datetime =>
      obtain ⟨d, hd, hn⟩ := hi
      exact h.taken_of_brings hd hn
    | optional =>
      rcases hi with ⟨d, hd, hnull⟩ | ⟨id, hint, ps, hid, hn, p, hp, hwraps⟩
      · exact h.taken_of_brings hd hnull
      · have hdecl : g.isDeclared o.declareUnions id = true := isDeclared_iff.mpr (.inl ⟨hint, ps, hn⟩)
        exact .inl ⟨id, h.mem_declared_iff.mpr ⟨hid, hdecl⟩, .wrapped hn hp hwraps⟩
    | union =>
      obtain ⟨hdeclare, id, hint, ms, hid, hn, hnull⟩ := hi
      have hdecl : g.isDeclared o.declareUnions id = true :=
        isDeclared_iff.mpr (.inr (.inr ⟨hdeclare, ⟨hint, ms, hn⟩, nullableInner?_eq_none_iff.mpr hnull⟩))
      exact .inl ⟨id, h.mem_declared_iff.mpr ⟨hid, hdecl⟩, .union hn⟩
    | enum =>
      obtain ⟨id, hint, cs, hid, hn⟩ := hi
      have hdecl : g.isDeclared o.declareUnions id = true := isDeclared_iff.mpr (.inr (.inl ⟨hint, cs, hn⟩))
      exact .inl ⟨id, h.mem_declared_iff.mpr ⟨hid, hdecl⟩, .enum hn⟩
  · intro hi
    rcases hi with ⟨id, hid, hi⟩ | ⟨top, htop, hi⟩
    · exact h.needs_of_declares hid hi
    · have htop' := List.mem_of_getElem? (getElem?_of_mem_aliasTops htop)
      exact needs_of_uses ⟨top.1, htop', .refl⟩ hi

/-- **A module imports what it needs and nothing else.** -/
theorem WellFormed.mem_imports_iff (h : g.WellFormed) (o : Options) :
    Ends (g.module u o) (fun _ => True) (fun r => ∀ i, i ∈ r.1.imports ↔ g.Needs o i) :=
  (h.module_uses o).mono (fun _ _ => trivial) fun _ hr i => (hr i).trans h.needs_iff.symm

end Graph

end Typewright
