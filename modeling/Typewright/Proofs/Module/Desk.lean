import Typewright.Proofs.Module.Layout
import Typewright.Proofs.Module.NameContract

/-!
# Rendering at a desk

A renderer can keep everything it works with in one place and use it again for the next rendering: the names, the order
of the declarations, the lines written so far, the imports noted so far, and where it is. Lines are written while the
expressions in them are made, so a rendering that stops leaves half a module behind, with its depth, its imports and its
place.

* `Desk`, `AtDesk` : what a renderer keeps between its calls, and computations that change it;
* `AtDesk.source`, `AtDesk.render` : the two calls, change by change;
* `NameTable.Agrees` : two tables give the same names;
* `NameTable.fill_agrees` : names that are set one after the other in an empty table are those of the graph.
-/

namespace Typewright

/-- What a renderer keeps between its calls. -/
structure Desk where
  names : NameTable
  ordered : OrderedTypes
  /-- For each top-level whether it is an alias. -/
  aliased : List Bool
  sheet : Sheet
  /-- The imports from `typing` that were used so far. -/
  typing : List Import
  /-- The imports from `datetime` that were used so far. -/
  datetime : List Import
  usesEnum : Bool
  place : Option Place
  eager : Bool
  /-- The unions that are declared already. -/
  bound : List TypeId

namespace Desk

def new : Desk := ⟨.empty, ⟨[], #[], []⟩, [], .blank fourSpaces, [], [], false, none, false, []⟩

def note (d : Desk) (i : Import) : Desk :=
  match i with
  | .any | .optional | .union => { d with typing := i :: d.typing }
  | .date | .datetime | .time => { d with datetime := i :: d.datetime }
  | .enum => { d with usesEnum := true }

def noteAll (d : Desk) (is : List Import) : Desk := is.foldl note d

def write (d : Desk) (f : Sheet → Sheet) : Desk := { d with sheet := f d.sheet }

def goTo (d : Desk) (place : Option Place) : Desk := { d with place }

/-- Forgets the imports, the place and the unions of an earlier module. -/
def clear (d : Desk) : Desk :=
  { d with typing := [], datetime := [], usesEnum := false, place := none, bound := [], eager := false }

/-- The lines above the declarations. -/
def header (d : Desk) (o : Options) (g : Graph) : List Bytes :=
  Module.joinGroups [
    commentLines (Bytes.ascii "# ") o.comments,
    if needsPostponed g d.ordered o.declareUnions then [Module.futureImport] else [],
    Module.importLine "datetime" [.date, .datetime, .time] d.datetime
      ++ Module.importLine "enum" [.enum] (if d.usesEnum then [.enum] else [])
      ++ Module.importLine "typing" [.any, .optional, .union] d.typing]

end Desk

/-! ## Names one by one -/

namespace NameTable

/-- Names a top-level, and the type that it introduces. -/
def nameTop (t : NameTable) (top : (Option TypeId × Bytes) × Nat) : NameTable :=
  let t := t.setTopLevel top.2 top.1.2
  top.1.1.elim t (t.setType · top.1.2)

/-- Names the properties of a class or the cases of an enum. -/
def nameParts (u : CharacterData) (o : Options) (g : Graph) (t : NameTable) (id : TypeId) : NameTable :=
  match g.node? id with
  | some (.record _ ps) => t.setProperties id (propertyNames u o ps)
  | some (.enum _ cs) => t.setCases id (caseNames u o cs)
  | _ => t

/-- Names the top-levels, then the declarations that are left, then what the declarations contain. -/
def fill (u : CharacterData) (o : Options) (g : Graph) (t : NameTable) : NameTable :=
  let t := ((g.claims o.declareUnions).zip ((globalNames u o g).take g.tops.length)).zipIdx.foldl nameTop t
  let t := ((g.unclaimed o.declareUnions).zip ((globalNames u o g).drop g.tops.length)).foldl
    (fun t named => t.setType named.1 named.2) t
  (g.declared o.declareUnions).foldl (nameParts u o g) t

end NameTable

/-! ## The calls -/

/-- A computation at a desk. An error does not take back what was changed before it. -/
abbrev AtDesk := ExceptT RenderError (StateM Desk)

namespace AtDesk

variable {α β γ : Type}

/-- The answer of a computation, and the desk that it leaves. -/
def on (x : AtDesk α) (d : Desk) : Except RenderError α × Desk := StateT.run (ExceptT.run x) d

/-- Looks something up among the names. -/
def look (x : NameTable → Except NameError α) : AtDesk α := do
  match x (← get).names with
  | .ok a => return a
  | .error e => throw (.unnamed e)

/-- The expression for a type. Its imports are noted on the way. -/
def expr (declareUnions : Bool) (g : Graph) (id : TypeId) : AtDesk TypeExpr :=
  let part (t : TypeId) : AtDesk TypeExpr :=
    if t < id then expr declareUnions g t else throw (.unknownType t)
  match g.node? id with
  | none => throw (.unknownType id)
  | some (.primitive p) =>
    match Builtin.ofPrimitive? p with
    | none => do throw (.noneReached (← get).place)
    | some b => do
      modify (·.noteAll b.imports)
      return .builtin b
  | some (.array items) => do return .list (← part items)
  | some (.map values) => do return .dict (← part values)
  | some (.record _ _) | some (.enum _ _) => do return .named (← look (·.type id))
  | some (.union _ members) =>
    match g.nullableInner? id with
    | some inner => do
      modify (·.note .optional)
      return .optional (← part inner)
    | none =>
      if declareUnions then do
        let name ← look (·.type id)
        let d ← get
        return if d.eager && id ∉ d.bound then .quoted name else .named name
      else do return .oneOf (← members.mapM part)
termination_by id

def property (declareUnions : Bool) (g : Graph) (p : Property) : AtDesk TypeExpr := do
  let e ← expr declareUnions g p.type
  if p.optional && (g.nullableInner? p.type).isNone && !g.isPrimitive .null p.type && !g.isPrimitive .any p.type then
    modify (·.note .optional)
    return .optional e
  else return e

/-- Writes a class. The first line is there before the types of the properties are. -/
def record (declareUnions : Bool) (g : Graph) (id : TypeId) (ps : List Property) : AtDesk Unit := do
  let name ← look (·.type id)
  let names ← look (·.propertiesOf id)
  modify (·.write fun s => (s.line (Bytes.ascii "class " ++ name ++ Bytes.ascii ":")).indent)
  if ps.isEmpty then modify (·.write fun s => (s.line (Bytes.ascii "pass")).dedent)
  else
    let types ← ps.mapM fun p => do
      modify (·.goTo (some (.property p.name name)))
      property declareUnions g p
    modify (·.goTo none)
    let fields := List.zipWith Field.mk names types
    modify (·.write fun s => ((s.writeLines (fields.map Field.text)).gap 1).signature fields)
    modify (·.write fun s =>
      (s.indent.writeLines (names.map fun n => Bytes.ascii "self." ++ n ++ Bytes.ascii " = " ++ n)).dedent.dedent)

def enum (id : TypeId) (cases : List Bytes) : AtDesk Unit := do
  modify (·.note .enum)
  let name ← look (·.type id)
  modify (·.write fun s => (s.line (Bytes.ascii "class " ++ name ++ Bytes.ascii "(Enum):")).indent)
  modify (·.write fun s => if cases.isEmpty then s.line (Bytes.ascii "pass") else s)
  let names ← look (·.casesOf id)
  modify (·.write fun s =>
    (s.writeLines (names.zipIdx.map fun (c, i) => c ++ Bytes.ascii " = " ++ caseNumber i)).dedent)

/-- Writes a class or an enum behind a gap; other types are not written here. -/
def block (declareUnions : Bool) (g : Graph) (id : TypeId) : AtDesk Unit :=
  match g.node? id with
  | some (.record _ ps) => do
    modify (·.write (·.gap 2))
    record declareUnions g id ps
  | some (.enum _ cs) => do
    modify (·.write (·.gap 2))
    enum id cs
  | _ => return ()

/-- Writes a union behind a gap, member by member. -/
def union (declareUnions : Bool) (g : Graph) (id : TypeId) : AtDesk Unit := do
  modify (·.write (·.gap 2))
  modify (·.note .union)
  let name ← look (·.type id)
  modify (·.goTo (some (.union name)))
  modify (·.write fun s => (s.line (name ++ Bytes.ascii " = Union[")).indent)
  (g.children id).forM fun m => do
    let e ← expr declareUnions g m
    modify (·.write (·.line (e.text ++ Bytes.ascii ",")))
  modify (·.write fun s => s.dedent.line (Bytes.ascii "]"))
  modify (·.goTo none)
  modify fun d => { d with bound := id :: d.bound }

def topAlias (declareUnions : Bool) (g : Graph) (top : TopLevel × Nat) : AtDesk Unit := do
  modify (·.goTo (some (.topLevel top.1.name)))
  let name ← look (·.topLevel top.2)
  let e ← expr declareUnions g top.1.type
  modify (·.write (·.line (name ++ Bytes.ascii " = " ++ e.text)))

/-- Writes the aliases, the first of them behind a gap. -/
def aliases (declareUnions : Bool) (g : Graph) : AtDesk Unit := do
  let d ← get
  let tops := ((g.tops.zipIdx.zip d.aliased).filter Prod.snd).map Prod.fst
  modify (·.write fun s => if tops.isEmpty then s else s.gap 2)
  tops.forM (topAlias declareUnions g)
  modify (·.goTo none)

/-- Writes a module: the declarations and aliases, then the header in front of them. -/
def writeModule (o : Options) (g : Graph) : AtDesk Unit := do
  modify Desk.clear
  let d ← get
  d.ordered.order.forM (block o.declareUnions g)
  modify fun d => { d with eager := true }
  (d.ordered.order.filter g.isUnionAt).forM (union o.declareUnions g)
  aliases o.declareUnions g
  modify fun d => { d with eager := false }
  let d ← get
  let header := d.header o g
  modify (·.write (·.putFirst (if header.isEmpty || d.sheet.isEmpty then header else header ++ [[], []])))

def render (u : CharacterData) (o : Options) (g : Graph) : AtDesk (List Bytes) := do
  modify fun d => { d with sheet := .blank fourSpaces, names := .empty }
  modify fun d => { d with aliased := (g.claims o.declareUnions).map Option.isNone }
  modify fun d => { d with names := d.names.fill u o g }
  modify fun d => { d with ordered := g.orderedFor o }
  writeModule o g
  let d ← get
  modify (·.write fun s => { s with lines := #[] })
  return d.sheet.finish

/-- The text of the expression for a type. -/
def source (o : Options) (g : Graph) (id : TypeId) : AtDesk Bytes := do
  return (← expr o.declareUnions g id).text

end AtDesk

/-! ## The names at a desk -/

section Entries

variable {α β : Type}

theorem lookup_reverse [BEq α] [LawfulBEq α] {l : List (α × β)} (hl : (l.map Prod.fst).Nodup) (a : α) :
    l.reverse.lookup a = l.lookup a := by
  induction l with
  | nil => rfl
  | cons p l ih =>
    obtain ⟨hp, hl⟩ := List.nodup_cons.mp hl
    rw [List.reverse_cons, List.lookup_append, ih hl, List.lookup_cons, List.lookup_cons]
    by_cases ha : a = p.1
    · have hnone : l.lookup a = none := by
        rw [List.lookup_eq_none_iff]
        intro q hq
        rw [bne_iff_ne, ha]
        exact fun hpq => hp (hpq ▸ List.mem_map_of_mem hq)
      rw [hnone, beq_iff_eq.mpr ha]
      rfl
    · rw [beq_false_of_ne ha]
      exact Option.or_none

theorem map_fst_filterMap_sublist {F : α → Option (α × β)} (hF : ∀ x p, F x = some p → p.1 = x) (l : List α) :
    ((l.filterMap F).map Prod.fst).Sublist l := by
  induction l with
  | nil => exact List.Sublist.refl _
  | cons x l ih =>
    cases hx : F x with
    | none =>
      rw [List.filterMap_cons_none hx]
      exact ih.cons x
    | some p =>
      rw [List.filterMap_cons_some hx, List.map_cons, hF x p hx]
      exact ih.cons_cons x

end Entries

namespace NameTable

variable {u : CharacterData} {o : Options} {g : Graph}

/-- Two tables give the same names. -/
structure Agrees (t t' : NameTable) : Prop where
  type : ∀ id, t.type id = t'.type id
  propertiesOf : ∀ id, t.propertiesOf id = t'.propertiesOf id
  casesOf : ∀ id, t.casesOf id = t'.casesOf id
  topLevel : ∀ i, t.topLevel i = t'.topLevel i

theorem setTopLevel_length (t : NameTable) (name : Bytes) :
    t.setTopLevel t.topLevels.length name = { t with topLevels := t.topLevels ++ [name] } := by
  simp [setTopLevel]

/-- Top-levels that are named in order are listed in order. What they introduce is entered in front. -/
theorem foldl_nameTop (l : List (Option TypeId × Bytes)) (t : NameTable) :
    (l.zipIdx t.topLevels.length).foldl nameTop t =
      { t with
        types := (l.filterMap fun top => top.1.map (·, top.2)).reverse ++ t.types
        topLevels := t.topLevels ++ l.map Prod.snd } := by
  induction l generalizing t with
  | nil => simp
  | cons top l ih =>
    obtain ⟨claim, name⟩ := top
    have hlen : (t.nameTop ((claim, name), t.topLevels.length)).topLevels.length = t.topLevels.length + 1 := by
      cases claim <;> simp [nameTop, setTopLevel_length, setType]
    rw [List.zipIdx_cons, List.foldl_cons, ← hlen, ih]
    cases claim <;> simp [nameTop, setTopLevel_length, setType]

theorem foldl_setType (l : List (TypeId × Bytes)) (t : NameTable) :
    l.foldl (fun t named => t.setType named.1 named.2) t = { t with types := l.reverse ++ t.types } := by
  induction l generalizing t with
  | nil => rfl
  | cons p l ih =>
    rw [List.foldl_cons, ih]
    simp [setType]

variable (u o g) in
/-- The row of a class among the names of properties. -/
def propertyRow? (id : TypeId) : Option (TypeId × List Bytes) :=
  match g.node? id with
  | some (.record _ ps) => some (id, propertyNames u o ps)
  | _ => none

variable (u o g) in
/-- The row of an enum among the names of cases. -/
def caseRow? (id : TypeId) : Option (TypeId × List Bytes) :=
  match g.node? id with
  | some (.enum _ cs) => some (id, caseNames u o cs)
  | _ => none

theorem foldl_nameParts (ids : List TypeId) (t : NameTable) :
    ids.foldl (nameParts u o g) t =
      { t with
        properties := (ids.filterMap (propertyRow? u o g)).reverse ++ t.properties
        cases := (ids.filterMap (caseRow? u o g)).reverse ++ t.cases } := by
  induction ids generalizing t with
  | nil => rfl
  | cons id ids ih =>
    rw [List.foldl_cons, ih, List.filterMap_cons, List.filterMap_cons, nameParts, propertyRow?, caseRow?]
    rcases g.node? id with _ | n
    · rfl
    · cases n <;> simp [setProperties, setCases]

theorem nodup_properties : ((ofGraph u o g).properties.map Prod.fst).Nodup := by
  refine Graph.nodup_declared.sublist (map_fst_filterMap_sublist (fun id p hp => ?_) (g.declared o.declareUnions))
  split at hp <;> cases hp
  rfl

theorem nodup_cases : ((ofGraph u o g).cases.map Prod.fst).Nodup := by
  refine Graph.nodup_declared.sublist (map_fst_filterMap_sublist (fun id p hp => ?_) (g.declared o.declareUnions))
  split at hp <;> cases hp
  rfl

theorem fill_empty :
    fill u o g .empty =
      { types := (ofGraph u o g).types.reverse
        topLevels := (ofGraph u o g).topLevels
        properties := (ofGraph u o g).properties.reverse
        cases := (ofGraph u o g).cases.reverse } := by
  have hlen : (g.claims o.declareUnions).length = ((globalNames u o g).take g.tops.length).length := by
    rw [Graph.length_claims, List.length_take, length_globalNames]
    omega
  have htops := foldl_nameTop ((g.claims o.declareUnions).zip ((globalNames u o g).take g.tops.length)) empty
  rw [show empty.topLevels.length = 0 from rfl, List.map_snd_zip hlen.ge] at htops
  simp only [fill, htops, foldl_setType, foldl_nameParts]
  simp only [empty, List.append_nil, List.nil_append, ← List.reverse_append]
  rfl

/-- **Names that are set one after the other in an empty table are those of the graph**: no name is set twice, so it does
not matter that the last one set counts. -/
theorem fill_agrees (hg : g.WellFormed) : (fill u o g .empty).Agrees (ofGraph u o g) := by
  rw [fill_empty]
  refine ⟨fun id => ?_, fun id => ?_, fun id => ?_, fun i => rfl⟩
  · rw [type, type, lookup_reverse (nodup_types hg)]
  · rw [propertiesOf, propertiesOf, lookup_reverse nodup_properties]
  · rw [casesOf, casesOf, lookup_reverse nodup_cases]

end NameTable

end Typewright
