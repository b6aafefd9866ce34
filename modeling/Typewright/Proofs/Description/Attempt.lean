import Mathlib
import Typewright.Proofs.Description.Growth
import Typewright.Proofs.Graph.Reach
import Typewright.Proofs.Graph.Unfolding

/-!
# Reading never fails halfway

A reading grows its graph by calls that check the numbers they are given, and it looks at types by their numbers. Here
each of these steps may stop it.

* `Graph.tryMemberHint`, `Graph.tryNullable`, `Graph.looked` : what is looked at;
* `tryResolve`, `tryBuildClass`, `tryReadForm`, … : reading, step by step, with a `GraphError` where a check fails;
* `Reading.Known.tryResolve_eq`, `Reading.HasClasses` : what resolving and the properties of classes refer to is there;
* `tryReadForm_eq` : so no check fails, whatever the form is, and the outcome is that of `readForm`.
-/

namespace Typewright

/-! ## Steps that may stop -/

namespace Graph

def tryMemberHint (g : Graph) (id : TypeId) : Except GraphError Bytes :=
  let inside (t : TypeId) : Except GraphError Bytes := if t < id then tryMemberHint g t else .error (.unknownType t)
  match g.node? id with
  | none => .error (.unknownType id)
  | some (.primitive .dateTime) => .ok (Bytes.ascii "date_time")
  | some (.primitive p) => .ok p.name
  | some (.array items) => (inside items).map (· ++ Bytes.ascii "_array")
  | some (.map values) => (inside values).map (· ++ Bytes.ascii "_map")
  | some n => .ok n.hint
termination_by id

/-- The hint of a union, which its members give if it has no name. -/
def tryUnionHint (g : Graph) (hint : Bytes) (ids : List TypeId) : Except GraphError Bytes :=
  if hint.isEmpty then (ids.mapM g.tryMemberHint).map (Bytes.join (Bytes.ascii "_or_")) else .ok hint

def tryNullable (g : Graph) (inner : TypeId) : Except GraphError (TypeId × Graph) := do
  g.check (inner :: g.children inner)
  g.nullable inner

/-- What a walk from the top-levels looks at. -/
def looked (g : Graph) : List TypeId := g.tops.map TopLevel.type ++ g.reachable.flatMap g.children

end Graph

/-- Goes on from a type that was resolved to one that is made of it. -/
def Reading.tryWrap (make : Graph → TypeId → Except GraphError (TypeId × Graph)) :
    Option TypeId × Reading → Except GraphError (Option TypeId × Reading)
  | (none, r) => .ok (none, r)
  | (some id, r) => (make r.graph id).map fun (id, graph) => (some id, { r with graph })

def Reading.tryMakeUnion (r : Reading) (pos : Position) (hint : Bytes) (members : List (Option TypeId)) :
    Except GraphError (Option TypeId × Reading) :=
  if members.any Option.isNone then .ok (none, r)
  else
    let ids := distinct (members.filterMap id)
    if ids.length < 2 then .ok (none, r.report ⟨.tooFewMembers, pos⟩)
    else do
      let hint ← r.graph.tryUnionHint hint ids
      let (id, graph) ← r.graph.union hint ids
      return (some id, { r with graph })

mutual

def tryResolve (s : UnionScope) (opened : List Bytes) (r : Reading) (t : TypeForm) :
    Except GraphError (Option TypeId × Reading) :=
  match t with
  | .absent => .ok (none, r)
  | .invalid p => .ok (none, r.report p)
  | .named pos name =>
    match Primitive.ofName? name with
    | some p => .ok (some p.id, r)
    | none =>
      match r.built.lookup name with
      | some id => .ok (id, r)
      | none =>
        match h : s.unions.lookup name with
        | none => .ok (none, r.report (s.unknownType pos name))
        | some u =>
          if h' : name ∈ opened then .ok (none, r.report ⟨.recursiveUnion name, pos⟩)
          else
            match u.members with
            | none => .ok (none, (r.report ⟨.membersMissing name, u.pos⟩).define name none)
            | some ts =>
              have := UnionScope.unopened_cons_lt (mem_fst_of_lookup h) h'
              tryResolveAll s (name :: opened) r ts >>= fun (ids, r) =>
                (r.tryMakeUnion u.pos name ids).map fun (id, r) => (id, r.define name id)
  | .array t => tryResolve s opened r t >>= Reading.tryWrap Graph.array
  | .map t => tryResolve s opened r t >>= Reading.tryWrap Graph.map
  | .nullable t => tryResolve s opened r t >>= Reading.tryWrap Graph.tryNullable
  | .union pos ts => tryResolveAll s opened r ts >>= fun (ids, r) => r.tryMakeUnion pos [] ids
termination_by (s.unopened opened, sizeOf t)

def tryResolveAll (s : UnionScope) (opened : List Bytes) (r : Reading) (ts : List TypeForm) :
    Except GraphError (List (Option TypeId) × Reading) :=
  match ts with
  | [] => .ok ([], r)
  | t :: ts => tryResolve s opened r t >>= fun (id, r) =>
    (tryResolveAll s opened r ts).map fun (ids, r) => (id :: ids, r)
termination_by (s.unopened opened, sizeOf ts)

end

def tryDeclare (state : List Declaration × Reading) (f : Edn.Form) : Except GraphError (List Declaration × Reading) :=
  let (ds, r) := state
  if f.isPresent then
    match readDeclaration ds f with
    | .error p => .ok (ds, r.report p)
    | .ok d =>
      match d.kind with
      | .record => (r.graph.record d.name []).map fun (id, graph) =>
        (ds ++ [d], { r with graph }.define d.name (some id))
      | _ => .ok (ds ++ [d], r)
  else .ok (ds, r)

def tryReadDeclarations (r : Reading) (f : Edn.Form) : Except GraphError (List Declaration × Reading) :=
  match f.vector? with
  | none => .ok ([], r.report ⟨.typesNotVector, f.pos⟩)
  | some items => items.foldlM tryDeclare ([], r)

def tryBuildUnion (s : UnionScope) (r : Reading) (d : Declaration) : Except GraphError Reading :=
  (tryResolve s [] r (.named d.pos d.name)).map Prod.snd

def tryAddProperty (s : UnionScope) (pos : Position) (state : ClassBody × Reading) (f : Edn.Form) :
    Except GraphError (ClassBody × Reading) :=
  let (body, r) := state
  match readProperty pos f with
  | .error p => .ok (body, r.report p)
  | .ok p =>
    if p.name ∈ body.seen then .ok (body, r.report ⟨.duplicateProperty p.name, p.namePos⟩)
    else
      let body := { body with seen := p.name :: body.seen }
      match p.optional with
      | .error problem => .ok (body, r.report problem)
      | .ok optional => (tryResolve s [] r p.type).map fun
        | (none, r) => (body, r)
        | (some id, r) => ({ body with properties := body.properties ++ [⟨p.name, id, optional⟩] }, r)

/-- Gives a class its properties; what was declared must be a class. -/
def tryBuildClass (s : UnionScope) (r : Reading) (d : Declaration) : Except GraphError Reading :=
  match d.sections.get? "properties" with
  | none => .ok r
  | some f =>
    match f.vector? with
    | none => .ok (r.report ⟨.propertiesNotVector, f.pos⟩)
    | some items => items.foldlM (tryAddProperty s f.pos) (⟨[], []⟩, r) >>= fun (body, r) =>
      match r.built.lookup d.name with
      | some (some id) => (r.graph.setProperties id body.properties).map fun graph => { r with graph }
      | _ => .error (.notAClass d.name)

def tryAddTopLevel (s : UnionScope) (pos : Position) (r : Reading) (f : Edn.Form) : Except GraphError Reading :=
  match readTopLevel pos f with
  | .error p => .ok (r.report p)
  | .ok (name, t) => tryResolve s [] r t >>= fun
    | (none, r) => .ok r
    | (some id, r) => (r.graph.topLevel name id).map fun graph => { r with graph }

def tryReadTopLevels (s : UnionScope) (r : Reading) (f : Edn.Form) : Except GraphError Reading :=
  match f.vector? with
  | none => .ok (r.report ⟨.topLevelsNotVector, f.pos⟩)
  | some items => items.foldlM (tryAddTopLevel s f.pos) r

/-- Declarations that no top-level leads to, unless there are problems. -/
def tryUnreachable (ds : List Declaration) (r : Reading) : Except GraphError (List Warning) :=
  if r.success then do
    r.graph.check r.graph.looked
    r.graph.check (ds.filterMap fun d => (r.built.lookup d.name).join)
    return unreachable ds r
  else .ok []

def tryReadSections (suggests : Bool) (graph : Graph) (pos : Position) (s : Sections) : Except GraphError ReadResult := do
  let comments := (((s.get? "comments").map readComments).getD ([], [])).1
  let r := s.opening graph
  let (ds, r) ← ((s.get? "types").map (tryReadDeclarations r)).getD (.ok ([], r))
  let scope := unionScope suggests ds
  let r := (ofKind .enum ds).foldl buildEnum r
  let r ← (ofKind .union ds).foldlM (tryBuildUnion scope) r
  let r ← (ofKind .record ds).foldlM (tryBuildClass scope) r
  let tops := s.get? "top-levels"
  let r ← (tops.map (tryReadTopLevels scope r)).getD (.ok r)
  let unreached ← tryUnreachable ds r
  let warnings := unknownSections s ++ (if tops.isNone then [⟨.noTopLevels, pos⟩] else []) ++ unreached
  return ⟨r.graph, r.problems, r.success, warnings, comments, some ds.length⟩

def tryReadForm (suggests : Bool) (graph : Graph) (f : Edn.Form) : Except GraphError ReadResult :=
  if f.head? = some (Bytes.ascii "graph") then
    match f.sections with
    | .error p => .ok ⟨graph, [p], false, [], [], none⟩
    | .ok s => tryReadSections suggests graph f.pos s
  else .ok ⟨graph, [⟨.notAGraph, f.pos⟩], false, [], [], none⟩

/-! ## Looking at types -/

namespace Graph

variable {g : Graph}

theorem WellFormed.tryMemberHint_eq (h : g.WellFormed) {id : TypeId} (hid : id < g.size) :
    g.tryMemberHint id = .ok (g.memberHint id) := by
  induction id using Nat.strong_induction_on with
  | _ id ih =>
    obtain ⟨n, hn⟩ := exists_node? hid
    have hearlier := (h.fits id n hn).earlier
    have hknown := (h.fits id n hn).known
    rw [Graph.tryMemberHint, Graph.memberHint, hn]
    cases n with
    | primitive p => cases p <;> rfl
    | array items =>
      have hitems := hearlier rfl items List.mem_cons_self
      simp only [if_pos hitems, ih items hitems (hknown items List.mem_cons_self)]
      rfl
    | map values =>
      have hvalues := hearlier rfl values List.mem_cons_self
      simp only [if_pos hvalues, ih values hvalues (hknown values List.mem_cons_self)]
      rfl
    | _ => rfl

theorem WellFormed.tryUnionHint_eq (h : g.WellFormed) (hint : Bytes) {ids : List TypeId}
    (hids : ∀ id ∈ ids, id < g.size) :
    g.tryUnionHint hint ids = .ok (g.unionHint hint ids) := by
  have hmap : ids.mapM g.tryMemberHint = .ok (ids.map g.memberHint) := by
    rw [mapM_congr fun id hid => h.tryMemberHint_eq (hids id hid)]
    exact List.mapM_pure
  rw [tryUnionHint, unionHint, hmap]
  split <;> rfl

theorem WellFormed.looked_lt_size (h : g.WellFormed) : ∀ id ∈ g.looked, id < g.size := by
  intro id hid
  rcases List.mem_append.mp hid with hid | hid
  · obtain ⟨t, ht, rfl⟩ := List.mem_map.mp hid
    exact h.tops t ht
  · obtain ⟨x, -, hx⟩ := List.mem_flatMap.mp hid
    exact h.children_lt hx

theorem array_eq_ok {id : TypeId} (hid : id < g.size) : g.array id = .ok (g.intern (.array id)) := by
  rw [array, check_eq_ok (List.forall_mem_singleton.mpr hid)]
  rfl

theorem map_eq_ok {id : TypeId} (hid : id < g.size) : g.map id = .ok (g.intern (.map id)) := by
  rw [map, check_eq_ok (List.forall_mem_singleton.mpr hid)]
  rfl

theorem WellFormed.tryNullable_eq (h : g.WellFormed) {id : TypeId} (hid : id < g.size) :
    g.tryNullable id = .ok (g.internNullable id) := by
  have hall : ∀ x ∈ id :: g.children id, x < g.size := List.forall_mem_cons.mpr ⟨hid, fun c hc => h.children_lt hc⟩
  rw [tryNullable, nullable, check_eq_ok hall, check_eq_ok (List.forall_mem_singleton.mpr hid)]
  rfl

theorem topLevel_eq_ok (name : Bytes) {id : TypeId} (hid : id < g.size) :
    g.topLevel name id = .ok (g.putTop name id) := by
  rw [topLevel, check_eq_ok (List.forall_mem_singleton.mpr hid)]
  rfl

theorem setProperties_eq_ok {id : TypeId} {hint : Bytes} {old ps : List Property}
    (hid : g.node? id = some (.record hint old)) (hps : ∀ p ∈ ps, p.type < g.size) :
    g.setProperties id ps = .ok (g.putProperties id ps) := by
  rw [setProperties, check_eq_ok (List.forall_mem_singleton.mpr (lt_size_of_node? hid)), hid,
    check_eq_ok (List.forall_mem_map.mpr hps)]
  rfl

end Graph

/-! ## Resolving -/

namespace Reading

variable {r : Reading}

theorem Known.tryMakeUnion_eq (h : r.Known) (pos : Position) (hint : Bytes) {members : List (Option TypeId)}
    (hids : ∀ id, some id ∈ members → id < r.graph.size) :
    r.tryMakeUnion pos hint members = .ok (r.makeUnion pos hint members) := by
  unfold tryMakeUnion Reading.makeUnion
  split
  · rfl
  dsimp only
  split
  · rfl
  · next h₂ =>
    have hlt : ∀ x ∈ distinct (members.filterMap id), x < r.graph.size := by
      intro x hx
      refine hids x ?_
      simpa using Graph.mem_distinct.mp hx
    rw [h.wellFormed.tryUnionHint_eq hint hlt]
    change (r.graph.union (r.graph.unionHint hint _) _ >>= _) = _
    rw [Graph.union, Graph.check_eq_ok hlt, distinct_eq_self (Graph.nodup_distinct _)]
    change ((if _ then _ else _) >>= _) = _
    rw [if_neg h₂]
    rfl

/-- **Resolving never stops**: it builds types out of types that are there. -/
theorem resolveRules_try (s : UnionScope) :
    ResolveRules s (fun opened r t x => r.Known → tryResolve s opened r t = .ok x)
      fun opened r ts x => r.Known → tryResolveAll s opened r ts = .ok x where
  absent opened r _ := by rw [tryResolve]
  invalid opened r p _ := by rw [tryResolve]
  primitive opened r pos name p hp _ := by simp only [tryResolve, hp]
  built opened r pos name id hp hid _ := by simp only [tryResolve, hp, hid]
  unknown opened r pos name hp hid hu _ := by
    simp only [tryResolve, hp, hid]
    split
    · rfl
    · simp_all
  recursive opened r pos name u hp hid hu hopen _ := by
    simp only [tryResolve, hp, hid]
    split
    · simp_all
    · rw [dif_pos hopen]
  missing opened r pos name u hp hid hu hopen hm _ := by
    simp only [tryResolve, hp, hid]
    split
    · simp_all
    · rename_i u' hu'
      obtain rfl := Option.some.inj (hu.symm.trans hu')
      rw [dif_neg hopen, hm]
  declared opened r pos name u ts ids r₁ id r₂ hp hid hu hopen hm hall ih hmake h := by
    have hresolves := (resolveRules_known s).holds_all (name :: opened) r ts h
    rw [hall] at hresolves
    simp only [tryResolve, hp, hid]
    split
    · simp_all
    · rename_i u' hu'
      obtain rfl := Option.some.inj (hu.symm.trans hu')
      rw [dif_neg hopen, hm]
      simp only [ih h]
      change (r₁.tryMakeUnion u.pos name ids).map _ = _
      rw [hresolves.known.tryMakeUnion_eq u.pos name hresolves.lt_size, hmake]
      rfl
  wrap_none opened r t r₁ wrap make hwrap ih h := by
    cases hwrap <;> rw [tryResolve, ih h] <;> rfl
  wrap opened r t id r₁ wrap make hwrap ht ih h := by
    have hresolves := h.resolves s opened t
    rw [ht] at hresolves
    have hid : id < r₁.graph.size := hresolves.lt_size id List.mem_cons_self
    cases hwrap with
    | array =>
      rw [tryResolve, ih h]
      change (r₁.graph.array id).map _ = _
      rw [Graph.array_eq_ok hid]
      rfl
    | map =>
      rw [tryResolve, ih h]
      change (r₁.graph.map id).map _ = _
      rw [Graph.map_eq_ok hid]
      rfl
    | nullable =>
      rw [tryResolve, ih h]
      change (r₁.graph.tryNullable id).map _ = _
      rw [hresolves.known.wellFormed.tryNullable_eq hid]
      rfl
  union opened r pos ts ids r₁ hall ih h := by
    have hresolves := (resolveRules_known s).holds_all opened r ts h
    rw [hall] at hresolves
    rw [tryResolve, ih h]
    exact hresolves.known.tryMakeUnion_eq pos [] hresolves.lt_size
  nil opened r _ := by rw [tryResolveAll]
  cons opened r t ts id r₁ ids r₂ ht hall ih ihs h := by
    have hresolves := h.resolves s opened t
    rw [ht] at hresolves
    rw [tryResolveAll, ih h]
    change (tryResolveAll s opened r₁ ts).map _ = _
    rw [ihs hresolves.known]
    rfl

theorem Known.tryResolve_eq (h : r.Known) (s : UnionScope) (opened : List Bytes) (t : TypeForm) :
    tryResolve s opened r t = .ok (resolve s opened r t) :=
  (resolveRules_try s).holds opened r t h

/-! ## Classes -/

/-- Every class that is declared has its number, and a class stands there. -/
def HasClasses (ds : List Declaration) (r : Reading) : Prop :=
  ∀ d ∈ ds, d.kind = .record → ∃ id hint ps, r.built.lookup d.name = some (some id) ∧
    r.graph.node? id = some (.record hint ps)

theorem HasClasses.grows {ds : List Declaration} {r' : Reading} (h : r.HasClasses ds) (hgrows : r.Grows r') :
    r'.HasClasses ds := by
  intro d hd hkind
  obtain ⟨id, hint, ps, hid, hnode⟩ := h d hd hkind
  exact ⟨id, hint, ps, hgrows.built d.name _ hid, hgrows.graph.node? id _ hnode⟩

/-- A type gets a name that no class has. -/
theorem HasClasses.define {ds : List Declaration} (h : r.HasClasses ds) {name : Bytes}
    (hname : ∀ d ∈ ds, d.kind = .record → d.name ≠ name) (id : Option TypeId) : (r.define name id).HasClasses ds := by
  intro d hd hkind
  obtain ⟨i, hint, ps, hi, hnode⟩ := h d hd hkind
  refine ⟨i, hint, ps, ?_, hnode⟩
  rw [lookup_define, if_neg (hname d hd hkind)]
  exact hi

theorem HasClasses.push {ds : List Declaration} (h : r.HasClasses ds) (n : Node) : (r.push n).2.HasClasses ds := by
  intro d hd hkind
  obtain ⟨id, hint, ps, hid, hnode⟩ := h d hd hkind
  refine ⟨id, hint, ps, hid, ?_⟩
  change (r.graph.push n).2.node? id = _
  rw [Graph.node?_push, if_neg (Nat.ne_of_lt (Graph.lt_size_of_node? hnode))]
  exact hnode

theorem HasClasses.putProperties {ds : List Declaration} (h : r.HasClasses ds) {id : TypeId} {hint : Bytes}
    {old : List Property} (hid : r.graph.node? id = some (.record hint old)) (ps : List Property) :
    { r with graph := r.graph.putProperties id ps }.HasClasses ds := by
  intro d hd hkind
  obtain ⟨i, hint', qs, hi, hnode⟩ := h d hd hkind
  by_cases heq : i = id
  · exact ⟨i, hint, ps, hi, by rw [Graph.node?_putProperties hid, if_pos heq]⟩
  · exact ⟨i, hint', qs, hi, by rw [Graph.node?_putProperties hid, if_neg heq]; exact hnode⟩

theorem name_ne_of_readDeclaration {ds : List Declaration} {f : Edn.Form} {d : Declaration}
    (h : readDeclaration ds f = .ok d) : ∀ d' ∈ ds, d'.name ≠ d.name := by
  unfold readDeclaration at h
  split at h
  · cases h
  split at h
  · cases h
  split at h
  · cases h
  split at h
  · cases h
  split at h
  · cases h
  · next hfind =>
    cases h
    intro d' hd' heq
    exact List.find?_eq_none.mp hfind d' hd' (beq_iff_eq.mpr heq)

/-- What holds while declarations are taken up. -/
structure Declared (ds : List Declaration) (r : Reading) : Prop where
  known : r.Known
  names : (ds.map Declaration.name).Nodup
  classes : r.HasClasses ds

theorem tryDeclare_eq (state : List Declaration × Reading) (f : Edn.Form) :
    tryDeclare state f = .ok (declare state f) := by
  obtain ⟨ds, r⟩ := state
  unfold tryDeclare declare
  dsimp only
  by_cases hf : f.isPresent = true
  · rw [if_pos hf, if_pos hf]
    cases readDeclaration ds f with
    | error p => rfl
    | ok d =>
      dsimp only
      cases d.kind <;> rfl
  · rw [if_neg hf, if_neg hf]

theorem declare_cases (ds : List Declaration) (r : Reading) (f : Edn.Form) :
    declare (ds, r) f = (ds, r) ∨ (∃ p, declare (ds, r) f = (ds, r.report p)) ∨
      ∃ d, (∀ d' ∈ ds, d'.name ≠ d.name) ∧
        (d.kind ≠ .record ∧ declare (ds, r) f = (ds ++ [d], r) ∨
          declare (ds, r) f = (ds ++ [d], (r.push (.record d.name [])).2.define d.name (some r.graph.size))) := by
  unfold declare
  dsimp only
  by_cases hf : f.isPresent = true
  · rw [if_pos hf]
    cases hread : readDeclaration ds f with
    | error p => exact .inr (.inl ⟨p, rfl⟩)
    | ok d =>
      refine .inr (.inr ⟨d, name_ne_of_readDeclaration hread, ?_⟩)
      dsimp only
      cases d.kind with
      | record => exact .inr rfl
      | enum => exact .inl ⟨by simp, rfl⟩
      | union => exact .inl ⟨by simp, rfl⟩
  · rw [if_neg hf]
    exact .inl rfl

theorem nodup_concat {ds : List Declaration} {d : Declaration} (h : (ds.map Declaration.name).Nodup)
    (hd : ∀ d' ∈ ds, d'.name ≠ d.name) : ((ds ++ [d]).map Declaration.name).Nodup := by
  rw [List.map_append, List.map_singleton, ← List.concat_eq_append, List.nodup_concat]
  refine ⟨fun hmem => ?_, h⟩
  obtain ⟨d', hd', heq⟩ := List.mem_map.mp hmem
  exact hd d' hd' heq

theorem Declared.declare {ds : List Declaration} (h : Declared ds r) (f : Edn.Form) :
    Declared (declare (ds, r) f).1 (declare (ds, r) f).2 := by
  have hknown := (h.known.proceeds_declare ds f).known
  rcases declare_cases ds r f with heq | ⟨p, heq⟩ | ⟨d, hnew, ⟨hkind, heq⟩ | heq⟩ <;> rw [heq] at hknown ⊢
  · exact h
  · exact ⟨hknown, h.names, h.classes⟩
  · refine ⟨hknown, nodup_concat h.names hnew, fun d' hd' hkind' => ?_⟩
    rcases List.mem_append.mp hd' with hd' | hd'
    · exact h.classes d' hd' hkind'
    · rw [List.mem_singleton.mp hd'] at hkind'
      exact absurd hkind' hkind
  · refine ⟨hknown, nodup_concat h.names hnew, fun d' hd' hkind' => ?_⟩
    rcases List.mem_append.mp hd' with hd' | hd'
    · exact (h.classes.push _).define (fun x hx _ => hnew x hx) _ d' hd' hkind'
    · rw [List.mem_singleton.mp hd']
      refine ⟨r.graph.size, d.name, [], ?_, ?_⟩
      · rw [lookup_define, if_pos rfl]
      · change (r.graph.push _).2.node? _ = _
        rw [Graph.node?_push, if_pos rfl]

theorem Declared.foldl_declare {ds : List Declaration} (h : Declared ds r) (items : List Edn.Form) :
    Declared (items.foldl Typewright.declare (ds, r)).1 (items.foldl Typewright.declare (ds, r)).2 :=
  List.foldlRecOn (motive := fun x => Declared x.1 x.2) items Typewright.declare h fun _ hx f _ => hx.declare f

theorem Known.declared (h : r.Known) : Declared [] r :=
  ⟨h, List.nodup_nil, fun _ hd => absurd hd List.not_mem_nil⟩

theorem Known.declared_readDeclarations (h : r.Known) (f : Edn.Form) :
    Declared (readDeclarations [] r f).1 (readDeclarations [] r f).2 := by
  unfold readDeclarations
  split
  · exact (h.report _).declared
  · exact h.declared.foldl_declare _

/-- Enums get names that no class has. -/
theorem Declared.buildEnum {ds : List Declaration} (h : Declared ds r) {d : Declaration} (hd : d ∈ ofKind .enum ds) :
    Declared ds (buildEnum r d) := by
  have hother : ∀ d' ∈ ds, d'.kind = .record → d'.name ≠ d.name := by
    intro d' hd' hkind heq
    obtain ⟨hmem, hkind'⟩ := List.mem_filter.mp hd
    rw [List.inj_on_of_nodup_map h.names hd' hmem heq] at hkind
    rw [hkind] at hkind'
    cases hkind'
  refine ⟨(h.known.proceeds_buildEnum d).known, h.names, ?_⟩
  unfold Typewright.buildEnum
  split
  · exact (h.classes.push _).define hother _
  · split
    · exact HasClasses.define (r := r.report _) h.classes hother none
    · exact ((h.classes.push _).grows (grows_reportAll _ _)).define hother _

/-! ## One step after the other -/

/-- Steps that do not stop where an invariant holds, and keep it, do not stop one after the other. -/
theorem foldlM_eq_ok {σ α ε : Type} {step : σ → α → σ} {tryStep : σ → α → Except ε σ} {I : σ → Prop} {l : List α}
    (h : ∀ x, ∀ a ∈ l, I x → tryStep x a = .ok (step x a) ∧ I (step x a)) {x : σ} (hx : I x) :
    l.foldlM tryStep x = .ok (l.foldl step x) ∧ I (l.foldl step x) := by
  induction l generalizing x with
  | nil => exact ⟨rfl, hx⟩
  | cons a l ih =>
    obtain ⟨heq, hnext⟩ := h x a List.mem_cons_self hx
    rw [List.foldlM_cons, heq, List.foldl_cons]
    exact ih (fun y b hb => h y b (List.mem_cons_of_mem a hb)) hnext

theorem tryReadDeclarations_eq (r : Reading) (f : Edn.Form) :
    tryReadDeclarations r f = .ok (readDeclarations [] r f) := by
  unfold tryReadDeclarations readDeclarations
  cases f.vector? with
  | none => rfl
  | some items => exact (foldlM_eq_ok (I := fun _ => True) (fun x f _ _ => ⟨tryDeclare_eq x f, trivial⟩) trivial).1

theorem Declared.foldl_buildEnum {ds : List Declaration} (h : Declared ds r) :
    Declared ds ((ofKind .enum ds).foldl Typewright.buildEnum r) :=
  List.foldlRecOn (motive := Declared ds) (ofKind .enum ds) Typewright.buildEnum h fun _ hx _ hd => hx.buildEnum hd

theorem Declared.grows {ds : List Declaration} {r' : Reading} (h : Declared ds r) (hgrows : r.Grows r')
    (hknown : r'.Known) :
    Declared ds r' :=
  ⟨hknown, h.names, h.classes.grows hgrows⟩

theorem Declared.tryBuildUnion {ds : List Declaration} (h : Declared ds r) (s : UnionScope) (d : Declaration) :
    tryBuildUnion s r d = .ok (buildUnion s r d) ∧ Declared ds (buildUnion s r d) := by
  have hresolves := h.known.resolves s [] (.named d.pos d.name)
  refine ⟨?_, h.grows hresolves.grows hresolves.known⟩
  rw [Typewright.tryBuildUnion, h.known.tryResolve_eq]
  rfl

theorem Known.tryAddProperty_eq (h : r.Known) (s : UnionScope) (pos : Position) (body : ClassBody) (f : Edn.Form) :
    tryAddProperty s pos (body, r) f = .ok (addProperty s pos (body, r) f) := by
  unfold tryAddProperty addProperty
  dsimp only
  cases readProperty pos f with
  | error p => rfl
  | ok p =>
    dsimp only
    by_cases hseen : p.name ∈ body.seen
    · rw [if_pos hseen, if_pos hseen]
    · rw [if_neg hseen, if_neg hseen]
      cases p.optional with
      | error problem => rfl
      | ok b =>
        dsimp only
        rw [h.tryResolve_eq]
        rcases resolve s [] r p.type with ⟨_ | id, r'⟩ <;> rfl

theorem Known.tryAddProperties_eq (h : r.Known) (s : UnionScope) (pos : Position) (items : List Edn.Form) :
    items.foldlM (tryAddProperty s pos) (⟨[], []⟩, r) = .ok (items.foldl (addProperty s pos) (⟨[], []⟩, r)) :=
  (foldlM_eq_ok (I := fun x => x.2.Known)
    (fun x f _ hx => ⟨hx.tryAddProperty_eq s pos x.1 f, (hx.grows_addProperty s pos x.1 f).2⟩) h).1

/-- The properties of a class are put where the class stands. -/
theorem Declared.tryBuildClass {ds : List Declaration} (h : Declared ds r) (s : UnionScope) {d : Declaration}
    (hd : d ∈ ofKind .record ds) :
    tryBuildClass s r d = .ok (buildClass s r d) ∧ Declared ds (buildClass s r d) := by
  have hknown := (h.known.proceeds_buildClass s d).known
  unfold Typewright.tryBuildClass buildClass at *
  cases hprops : d.sections.get? "properties" with
  | none => exact ⟨rfl, h⟩
  | some f =>
    rw [hprops] at hknown
    dsimp only at hknown ⊢
    cases hitems : f.vector? with
    | none => exact ⟨rfl, h.grows (grows_report r _) (h.known.report _)⟩
    | some items =>
      rw [hitems] at hknown
      dsimp only at hknown ⊢
      rw [h.known.tryAddProperties_eq]
      obtain ⟨hgrows, hknown'⟩ := h.known.grows_addProperties s f.pos ⟨[], []⟩ items
      have hlt := h.known.addProperties_lt_size s f.pos items
      generalize items.foldl (addProperty s f.pos) (⟨[], []⟩, r) = x at *
      obtain ⟨body, r'⟩ := x
      have hdeclared : Declared ds r' := h.grows hgrows hknown'
      obtain ⟨hmem, hkind⟩ := List.mem_filter.mp hd
      obtain ⟨id, hint, old, hid, hnode⟩ := hdeclared.classes d hmem (beq_iff_eq.mp hkind)
      change (match r'.built.lookup d.name with
        | some (some id) => (r'.graph.setProperties id body.properties).map fun graph => { r' with graph }
        | _ => .error (.notAClass d.name)) = _ ∧ _
      dsimp only at hknown ⊢
      rw [hid] at hknown ⊢
      dsimp only at hknown ⊢
      rw [Graph.setProperties_eq_ok hnode hlt]
      exact ⟨rfl, hknown, hdeclared.names, hdeclared.classes.putProperties hnode _⟩

theorem Known.tryAddTopLevel_eq (h : r.Known) (s : UnionScope) (pos : Position) (f : Edn.Form) :
    tryAddTopLevel s pos r f = .ok (addTopLevel s pos r f) := by
  unfold tryAddTopLevel addTopLevel
  cases readTopLevel pos f with
  | error p => rfl
  | ok x =>
    obtain ⟨name, t⟩ := x
    have hresolves := h.resolves s [] t
    dsimp only
    rw [h.tryResolve_eq]
    generalize resolve s [] r t = x at hresolves ⊢
    obtain ⟨_ | id, r'⟩ := x
    · rfl
    · change (r'.graph.topLevel name id).map _ = _
      rw [Graph.topLevel_eq_ok name (hresolves.lt_size id List.mem_cons_self)]
      rfl

theorem Known.tryReadTopLevels_eq (h : r.Known) (s : UnionScope) (f : Edn.Form) :
    tryReadTopLevels s r f = .ok (readTopLevels s r f) := by
  unfold tryReadTopLevels readTopLevels
  cases f.vector? with
  | none => rfl
  | some items =>
    exact (foldlM_eq_ok (I := Known)
      (fun _ form _ hx => ⟨hx.tryAddTopLevel_eq s f.pos form, (hx.proceeds_addTopLevel s f.pos form).known⟩) h).1

theorem Known.tryUnreachable_eq (h : r.Known) (ds : List Declaration) :
    tryUnreachable ds r = .ok (if r.success then unreachable ds r else []) := by
  have hbuilt : ∀ id ∈ ds.filterMap fun d => (r.built.lookup d.name).join, id < r.graph.size := by
    intro id hid
    obtain ⟨d, -, hd⟩ := List.mem_filterMap.mp hid
    exact h.built d.name id (Option.join_eq_some_iff.mp hd)
  rw [tryUnreachable, Graph.check_eq_ok h.wellFormed.looked_lt_size, Graph.check_eq_ok hbuilt]
  split <;> rfl

end Reading

/-! ## Reading a description -/

theorem Sections.declared_declarations (s : Sections) {graph : Graph} (h : graph.WellFormed) :
    Reading.Declared (s.declarations graph).1 (s.declarations graph).2 := by
  unfold Sections.declarations
  cases s.get? "types" with
  | none => exact (known_opening h).declared
  | some f => exact (known_opening h).declared_readDeclarations f

theorem tryReadSections_eq (suggests : Bool) {graph : Graph} (h : graph.WellFormed) (pos : Position) (s : Sections) :
    tryReadSections suggests graph pos s = .ok (Reader.new.readSections suggests graph pos s).1 := by
  have hdeclarations : ((s.get? "types").map (tryReadDeclarations (s.opening graph))).getD (.ok ([], s.opening graph)) =
      .ok (s.declarations graph) := by
    unfold Sections.declarations
    cases s.get? "types" with
    | none => rfl
    | some f => exact Reading.tryReadDeclarations_eq _ f
  have henums : Reading.Declared (s.declarations graph).1 (s.withEnums graph) :=
    (s.declared_declarations h).foldl_buildEnum
  obtain ⟨hunions, hdeclared⟩ := Reading.foldlM_eq_ok (I := Reading.Declared (s.declarations graph).1)
    (l := ofKind .union (s.declarations graph).1) (fun _ d _ hx => hx.tryBuildUnion (s.scope suggests graph) d) henums
  obtain ⟨hclasses, hdeclared'⟩ := Reading.foldlM_eq_ok (I := Reading.Declared (s.declarations graph).1)
    (fun _ _ hd hx => hx.tryBuildClass (s.scope suggests graph) hd) hdeclared
  have htops :
      ((s.get? "top-levels").map (tryReadTopLevels (s.scope suggests graph) (s.withClasses suggests graph))).getD
        (.ok (s.withClasses suggests graph)) = .ok (s.withTops suggests graph) := by
    unfold Sections.withTops
    cases s.get? "top-levels" with
    | none => rfl
    | some f => exact hdeclared'.known.tryReadTopLevels_eq _ f
  have hknown : (s.withTops suggests graph).Known := (Sections.proceeds_withTops h).known
  unfold tryReadSections
  dsimp only
  rw [hdeclarations]
  change ((ofKind .union (s.declarations graph).1).foldlM (tryBuildUnion (s.scope suggests graph)) (s.withEnums graph)
    >>= _) = _
  rw [hunions]
  change ((ofKind .record (s.declarations graph).1).foldlM (tryBuildClass (s.scope suggests graph))
    (s.withUnions suggests graph) >>= _) = _
  rw [show (ofKind .record (s.declarations graph).1).foldlM (tryBuildClass (s.scope suggests graph))
    (s.withUnions suggests graph) = .ok (s.withClasses suggests graph) from hclasses]
  change (((s.get? "top-levels").map (tryReadTopLevels (s.scope suggests graph) (s.withClasses suggests graph))).getD
    (.ok (s.withClasses suggests graph)) >>= _) = _
  rw [htops]
  change (tryUnreachable (s.declarations graph).1 (s.withTops suggests graph) >>= _) = _
  rw [hknown.tryUnreachable_eq]
  rfl

/-- **Reading a description never stops at a check**, whatever the form is: it is what `readForm` says. -/
theorem tryReadForm_eq (suggests : Bool) {graph : Graph} (h : graph.WellFormed) (f : Edn.Form) :
    tryReadForm suggests graph f = .ok (readForm suggests graph f) := by
  unfold tryReadForm
  by_cases hhead : f.head? = some (Bytes.ascii "graph")
  · rw [if_pos hhead]
    cases hs : f.sections with
    | error p => rw [readForm_of_error suggests graph hhead hs]
    | ok s => rw [readForm_of_sections suggests graph hhead hs, ← tryReadSections_eq suggests h f.pos s]
  · rw [if_neg hhead, readForm_of_head? suggests graph hhead]

end Typewright
