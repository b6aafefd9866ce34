import Typewright.Proofs.Description.Beside
import Typewright.Proofs.Description.Course

/-!
# Recursive unions are told, and only these

* `Reading.Prepared` : before the unions there are no unions, and only problems of forms were told;
* `Reading.Sound` : what is told of circular unions is so, and none of them has a type. This is kept from the unions to
  the top-levels (`Sections.sound_withTops`);
* `Sections.not_circular` : every declared union is met, so without a cycle that is told there is none;
* `readForm_tells_recursive_unions` : reading a form tells of a recursive union just if declared unions name one another
  in a circle.
-/

namespace Typewright

open Edn (Form)
open Relation

namespace Reading

/-! ## Before the unions -/

/-- Before the unions only classes and enums have types, no union was added to `base`, and only problems of forms were
told. -/
structure Prepared (base : Graph) (ds : List Declaration) (r : Reading) : Prop where
  formal : ∀ p ∈ r.problems, p.Formal
  built : ∀ name id, r.built.lookup name = some id → ∃ d ∈ ds, d.kind ≠ .union ∧ d.name = name
  nodes : ∀ id hint members, base.size ≤ id → r.graph.node? id ≠ some (.union hint members)

variable {base : Graph} {ds : List Declaration} {r : Reading}

theorem Prepared.reportAll (h : Prepared base ds r) {ps : List Problem} (hps : ∀ p ∈ ps, p.Formal) :
    Prepared base ds (r.reportAll ps) := by
  refine ⟨fun p hp => ?_, by simpa using h.built, by simpa using h.nodes⟩
  rw [problems_reportAll] at hp
  rcases List.mem_append.mp hp with hp | hp
  · exact h.formal p hp
  · exact hps p hp

theorem Prepared.report (h : Prepared base ds r) {p : Problem} (hp : p.Formal) : Prepared base ds (r.report p) := by
  have hps : ∀ q ∈ [p], q.Formal := List.forall_mem_singleton.mpr hp
  exact h.reportAll hps

theorem Prepared.concat (h : Prepared base ds r) (d : Declaration) : Prepared base (ds ++ [d]) r := by
  refine ⟨h.formal, fun name id hid => ?_, h.nodes⟩
  obtain ⟨d', hd', hkind, hname⟩ := h.built name id hid
  exact ⟨d', List.mem_append_left _ hd', hkind, hname⟩

theorem Prepared.define (h : Prepared base ds r) {d : Declaration} (hd : d ∈ ds) (hkind : d.kind ≠ .union)
    (id : Option TypeId) : Prepared base ds (r.define d.name id) := by
  refine ⟨h.formal, fun name i hi => ?_, h.nodes⟩
  rw [lookup_define] at hi
  split at hi
  · rename_i heq
    exact ⟨d, hd, hkind, heq.symm⟩
  · exact h.built name i hi

theorem Prepared.push (h : Prepared base ds r) {n : Node} (hn : ∀ hint members, n ≠ .union hint members) :
    Prepared base ds (r.push n).2 := by
  refine ⟨h.formal, h.built, fun id hint members hid => ?_⟩
  change (r.graph.push n).2.node? id ≠ _
  rw [Graph.node?_push]
  split
  · exact fun heq => hn hint members (Option.some.inj heq)
  · exact h.nodes id hint members hid

theorem Prepared.declare (h : Prepared base ds r) (f : Form) :
    Prepared base (declare (ds, r) f).1 (declare (ds, r) f).2 := by
  unfold Typewright.declare
  dsimp only
  split
  · split
    · rename_i p hp
      exact h.report (formal_of_readDeclaration hp)
    · rename_i d hd
      split
      · rename_i hkind
        exact ((h.concat d).push (by simp)).define (by simp) (by simp [hkind]) _
      · exact h.concat d
  · exact h

theorem Prepared.buildEnum (h : Prepared base ds r) {d : Declaration} (hd : d ∈ ofKind .enum ds) :
    Prepared base ds (buildEnum r d) := by
  obtain ⟨hd, hkind⟩ := mem_ofKind.mp hd
  have hkind' : d.kind ≠ .union := by simp [hkind]
  unfold Typewright.buildEnum
  split
  · exact (h.push (by simp)).define hd hkind' _
  · split
    · exact (h.report (show Problem.Formal ⟨.casesNotVector, _⟩ from rfl)).define hd hkind' none
    · exact ((h.push (by simp)).reportAll formal_of_readCases).define hd hkind' _

end Reading

namespace Sections

variable {s : Sections} {f : Form} {graph : Graph} {suggests : Bool}

theorem prepared_opening : Reading.Prepared graph [] (s.opening graph) where
  formal p hp := by
    rw [problems_opening] at hp
    cases hc : s.get? "comments" with
    | none => simp [hc] at hp
    | some c =>
      rw [hc] at hp
      exact formal_of_readComments p hp
  built name id hid := by simp [built_opening] at hid
  nodes id hint members hid hn := by
    rw [graph_opening] at hn
    exact absurd (Graph.lt_size_of_node? hn) (Nat.not_lt.mpr hid)

theorem prepared_declarations :
    Reading.Prepared graph (s.declarations graph).1 (s.declarations graph).2 := by
  unfold declarations
  cases s.get? "types" with
  | none => exact prepared_opening
  | some types =>
    rw [Option.map_some, Option.getD_some, readDeclarations]
    split
    · exact prepared_opening.report rfl
    · exact List.foldlRecOn (motive := fun x : List Declaration × Reading => Reading.Prepared graph x.1 x.2) _
        declare prepared_opening
        fun _ hx f _ => hx.declare f

theorem prepared_withEnums : Reading.Prepared graph (s.declarations graph).1 (s.withEnums graph) :=
  List.foldlRecOn (motive := Reading.Prepared graph (s.declarations graph).1) _ buildEnum prepared_declarations
    fun _ hx _ hd => hx.buildEnum hd

end Sections

/-! ## From the unions to the top-levels -/

/-- The names of declared unions are no primitive types, and their members are proper. -/
structure UnionScope.Ordinary (s : UnionScope) : Prop where
  not_primitive : ∀ name, (s.unions.lookup name).isSome → Primitive.ofName? name = none
  proper : s.Proper

theorem Sections.ordinary_scope {s : Sections} {f : Form} (hs : s.Whole) (hentry : Entry (Bytes.ascii "graph") f s)
    (suggests : Bool) (graph : Graph) : (s.scope suggests graph).Ordinary where
  not_primitive name hname := by
    obtain ⟨u, hu⟩ := Option.isSome_iff_exists.mp hname
    obtain ⟨d, hd, -, rfl, -⟩ := mem_of_lookup_unions hu
    obtain ⟨_, _, _, _, _, _, hcounts⟩ := (mem_declarations_iff hs hentry).mp hd
    exact hcounts.not_primitive
  proper name u ts hu hts t ht := by
    obtain ⟨d, -, -, -, rfl⟩ := mem_of_lookup_unions hu
    obtain ⟨items, -, rfl⟩ := Option.map_eq_some_iff.mp hts
    rw [TypeForm.ofForms_eq_map] at ht
    obtain ⟨m, -, rfl⟩ := List.mem_map.mp ht
    exact TypeForm.proper_ofForm m

namespace Reading

/-- What is told of circular unions is so, and none of them has a type. -/
structure Sound (s : UnionScope) (base : Graph) (r : Reading) : Prop where
  clean : r.Clean s base
  faithful : r.Faithful s

variable {s : UnionScope} {base : Graph} {r : Reading}

theorem Prepared.sound {ds : List Declaration} {suggests : Bool} (h : Prepared base ds r)
    (hdeclared : Declared ds r) : r.Sound (unionScope suggests ds) base where
  clean := {
    known := hdeclared.known
    built := fun name id hname hid => by
      obtain ⟨d, hd, hkind, rfl⟩ := h.built name id hid
      simp [lookup_unions_eq_none hdeclared.names hd hkind] at hname
    hints := fun id hint members hid hn => absurd hn (h.nodes id hint members hid) }
  faithful p hp name hname := absurd hname ((h.formal p hp).plain name)

theorem Sound.report (h : r.Sound s base) {p : Problem} (hp : p.Plain) : (r.report p).Sound s base :=
  ⟨h.clean.report p, h.faithful.report hp⟩

theorem Sound.resolve (h : r.Sound s base) (hs : s.Ordinary) {t : TypeForm} (ht : t.Proper) :
    (resolve s [] r t).2.Sound s base :=
  ⟨h.clean.resolve hs.not_primitive t, h.faithful.resolve hs.proper ht⟩

/-- The properties of classes do not matter. -/
theorem Sound.withGraph (h : r.Sound s base) {g : Graph} (hknown : { r with graph := g }.Known)
    (hg : ∀ i, (g.node? i).map Node.bare = (r.graph.node? i).map Node.bare) : { r with graph := g }.Sound s base where
  clean := {
    known := hknown
    built := h.clean.built
    hints := fun id hint members hid hn => by
      have hnode : r.graph.node? id = some (.union hint members) := by
        have hbare := hg id
        rw [show g.node? id = _ from hn, Option.map_some, eq_comm, Option.map_eq_some_iff] at hbare
        obtain ⟨n, hn, hbare⟩ := hbare
        cases n <;> cases hbare
        exact hn
      rw [show g.unionHint [] members = r.graph.unionHint [] members from
        Graph.unionHint_congr fun id _ => Graph.memberHint_congr fun i _ => hg i]
      exact h.clean.hints id hint members hid hnode }
  faithful := h.faithful

theorem Sound.course (h : r.Sound s base) (hs : s.Ordinary) {T : Set TypeForm} {r' : Reading} (hcourse : Course s T r r')
    (hT : ∀ t ∈ T, t.Proper) : r'.Sound s base := by
  induction hcourse with
  | done r => exact h
  | report hp _ ih => exact ih (h.report hp.plain) hT
  | resolve t _ ih =>
    rw [Set.forall_mem_insert] at hT
    exact ih (h.resolve hs hT.1) hT.2
  | graph hknown hg _ ih => exact ih (h.withGraph hknown hg) hT

/-! ## Every declared union is met -/

theorem isSome_lookup_buildUnion (hs : s.Ordinary) {d : Declaration} (hd : (s.unions.lookup d.name).isSome) :
    ((buildUnion s r d).built.lookup d.name).isSome := by
  have hp := hs.not_primitive d.name hd
  obtain ⟨u, hu⟩ := Option.isSome_iff_exists.mp hd
  unfold Typewright.buildUnion
  cases hid : r.built.lookup d.name with
  | some id => simp [resolve_built hp hid, hid]
  | none =>
    cases hm : u.members with
    | none => simp [resolve_missing hp hid hu List.not_mem_nil hm, lookup_define]
    | some ts => simp [resolve_declared hp hid hu List.not_mem_nil hm, lookup_define]

theorem isSome_lookup_buildUnions (hs : s.Ordinary) {l : List Declaration} (hl : ∀ d ∈ l, (s.unions.lookup d.name).isSome)
    (hr : r.Known) : ∀ d ∈ l, ((l.foldl (Typewright.buildUnion s) r).built.lookup d.name).isSome := by
  induction l generalizing r with
  | nil => exact fun d hd => absurd hd List.not_mem_nil
  | cons d l ih =>
    rw [List.forall_mem_cons] at hl
    have hstep := hr.resolves s [] (.named d.pos d.name)
    have hgrows : (Typewright.buildUnion s r d).Grows
        (l.foldl (Typewright.buildUnion s) (Typewright.buildUnion s r d)) := by
      refine (List.foldlRecOn (motive := fun r' => (Typewright.buildUnion s r d).Grows r' ∧ r'.Known) l _
        ⟨.refl _, hstep.known⟩ fun r' hr' e _ => ?_).1
      have hnext := hr'.2.resolves s [] (.named e.pos e.name)
      exact ⟨hr'.1.trans hnext.grows, hnext.known⟩
    refine List.forall_mem_cons.mpr ⟨?_, ih hl.2 hstep.known⟩
    obtain ⟨id, hid⟩ := Option.isSome_iff_exists.mp (isSome_lookup_buildUnion (r := r) hs hl.1)
    simp [hgrows.built d.name id hid]

end Reading

namespace Sections

variable {s : Sections} {f : Form} {graph : Graph} {suggests : Bool}

theorem sound_withUnions (hs : s.Whole) (hentry : Entry (Bytes.ascii "graph") f s) (hgraph : graph.WellFormed) :
    (s.withUnions suggests graph).Sound (s.scope suggests graph) graph := by
  refine (prepared_withEnums.sound (s.declared_declarations hgraph).foldl_buildEnum).course
    (ordinary_scope hs hentry suggests graph) (course_withUnions hgraph) ?_
  rintro t ⟨d, -, -, rfl⟩ p hpart
  cases hpart

theorem sound_withTops (hs : s.Whole) (hentry : Entry (Bytes.ascii "graph") f s) (hgraph : graph.WellFormed) :
    (s.withTops suggests graph).Sound (s.scope suggests graph) graph := by
  refine (sound_withUnions hs hentry hgraph).course (ordinary_scope hs hentry suggests graph)
    (course_withTops hs hentry hgraph) ?_
  rintro t ⟨type, -, rfl⟩
  exact TypeForm.proper_ofForm type

/-- Every declared union is met. -/
theorem isSome_lookup_withUnions (hs : s.Whole) (hentry : Entry (Bytes.ascii "graph") f s) (hgraph : graph.WellFormed)
    {d : Declaration} (hd : d ∈ (s.declarations graph).1) (hkind : d.kind = .union) :
    ((s.withUnions suggests graph).built.lookup d.name).isSome := by
  have hunions : ∀ d ∈ ofKind .union (s.declarations graph).1, ((s.scope suggests graph).unions.lookup d.name).isSome := by
    intro d hd
    obtain ⟨hd, hkind⟩ := mem_ofKind.mp hd
    rw [scope, lookup_unions_of_mem (s.declared_declarations hgraph).names hd hkind]
    rfl
  exact Reading.isSome_lookup_buildUnions (ordinary_scope hs hentry suggests graph) hunions
    (proceeds_withEnums hgraph).known d (mem_ofKind.mpr ⟨hd, hkind⟩)

/-- Where no cycle is told there is none. -/
theorem not_circular (hs : s.Whole) (hentry : Entry (Bytes.ascii "graph") f s) (hgraph : graph.WellFormed)
    (h : (s.withTops suggests graph).TellsNoCycle) {name : Bytes}
    (hname : ((s.scope suggests graph).unions.lookup name).isSome) : ¬ (s.scope suggests graph).Circular name := by
  obtain ⟨u, hu⟩ := Option.isSome_iff_exists.mp hname
  obtain ⟨d, hd, hkind, rfl, -⟩ := mem_of_lookup_unions hu
  obtain ⟨id, hid⟩ := Option.isSome_iff_exists.mp (isSome_lookup_withUnions hs hentry hgraph hd hkind)
  have hplain : (s.withUnions suggests graph).TellsNoCycle :=
    h.before ((proceeds_withClasses hgraph).problems.trans (proceeds_withTops hgraph).problems)
  exact (sound_withUnions hs hentry hgraph).clean.built d.name id hname hid (.inr hplain)

end Sections

/-! ## What is told of a description -/

theorem Fault.code_eq_iff {fault : Fault} :
    fault.code = Bytes.ascii "E2023" ↔ ∃ name, fault = .recursiveUnion name := by
  constructor
  · intro h
    cases fault with
    | recursiveUnion name => exact ⟨name, rfl⟩
    | _ => exact absurd h (by simp only [code]; decide)
  · rintro ⟨name, rfl⟩
    rfl

theorem ReadResult.mem_errors_iff {r : ReadResult} {e : Diagnostic} :
    e ∈ r.report.errors ↔ ∃ p ∈ r.problems, p.diagnostic = e := List.mem_map

namespace Sections

variable {s : Sections} {f : Form} {graph : Graph} {suggests : Bool} {pos : Position}

theorem exists_cycle_of_error (hs : s.Whole) (hentry : Entry (Bytes.ascii "graph") f s) (hgraph : graph.WellFormed)
    {e : Diagnostic} (he : e ∈ (Reader.new.readSections suggests graph pos s).1.report.errors)
    (hcode : e.code = Bytes.ascii "E2023") :
    ∃ name, e.message = Bytes.ascii "union " ++ Bytes.named name ++ Bytes.ascii " contains itself" ∧
      TransGen (s.scope suggests graph).Cites name name := by
  obtain ⟨p, hp, rfl⟩ := ReadResult.mem_errors_iff.mp he
  obtain ⟨name, hname⟩ := Fault.code_eq_iff.mp hcode
  refine ⟨name, ?_, (sound_withTops hs hentry hgraph).faithful p hp name hname⟩
  rw [Problem.diagnostic, hname, Fault.message]

theorem exists_error_of_cycle (hs : s.Whole) (hentry : Entry (Bytes.ascii "graph") f s) (hgraph : graph.WellFormed)
    {name : Bytes} (h : TransGen (s.scope suggests graph).Cites name name) :
    ∃ e ∈ (Reader.new.readSections suggests graph pos s).1.report.errors, e.code = Bytes.ascii "E2023" := by
  by_contra hnone
  have hplain : (s.withTops suggests graph).TellsNoCycle := fun p hp other hother =>
    hnone ⟨p.diagnostic, ReadResult.mem_errors_iff.mpr ⟨p, hp, rfl⟩, Fault.code_eq_iff.mpr ⟨other, hother⟩⟩
  obtain ⟨_, ⟨u, -, hu, -⟩, -⟩ := TransGen.head'_iff.mp h
  exact not_circular hs hentry hgraph hplain (by simp [hu]) ⟨name, .refl, h⟩

/-- A circular union has no type. -/
theorem not_built_of_circular (hs : s.Whole) (hentry : Entry (Bytes.ascii "graph") f s) (hgraph : graph.WellFormed)
    {name : Bytes} (h : (s.scope suggests graph).Circular name) :
    ((s.withTops suggests graph).built.lookup name).join = none := by
  obtain ⟨_, ⟨u, -, hu, -⟩, -⟩ := h.exists_cites
  rw [Option.eq_none_iff_forall_ne_some]
  intro id hid
  have hbuilt := Option.join_eq_some_iff.mp hid
  exact (sound_withTops hs hentry hgraph).clean.built name (some id) (by simp [hu]) hbuilt (.inl (by simp)) h

end Sections

/-- What is not a description has another problem. -/
theorem formal_of_not_entry {f : Form} (h : ¬ ∃ s, Entry (Bytes.ascii "graph") f s) (suggests : Bool) (graph : Graph) :
    ∀ p ∈ (readForm suggests graph f).problems, p.Formal := by
  intro p hp
  by_cases hhead : f.head? = some (Bytes.ascii "graph")
  · cases hsections : f.sections with
    | error e =>
      rw [readForm_of_error suggests graph hhead hsections] at hp
      obtain rfl := List.mem_singleton.mp hp
      exact formal_of_sections hsections
    | ok s => exact absurd ⟨s, entry_iff.mpr ⟨hhead, hsections⟩⟩ h
  · rw [readForm_of_head? suggests graph hhead] at hp
    obtain rfl := List.mem_singleton.mp hp
    rfl

/-- Reading a parsed form comes to its end, whatever is in it. It tells of a recursive union just if declared unions
name one another in a circle. Every union that is told is on such a circle. A union that leads to one gets no type: none
is noted for its name, and one that was added and has its name as a hint got it from its members. -/
theorem readForm_tells_recursive_unions {source : Bytes} {f : Form} (h : Edn.parse source = .ok f) (suggests : Bool)
    {graph : Graph} (hgraph : graph.WellFormed) :
    tryReadForm suggests graph f = .ok (readForm suggests graph f) ∧
      ((∃ e ∈ (readForm suggests graph f).report.errors, e.code = Bytes.ascii "E2023") ↔
        ∃ name, TransGen (NamesUnion f) name name) ∧
      (∀ e ∈ (readForm suggests graph f).report.errors, e.code = Bytes.ascii "E2023" → ∃ name,
        e.message = Bytes.ascii "union " ++ Bytes.named name ++ Bytes.ascii " contains itself" ∧
          TransGen (NamesUnion f) name name) ∧
      ∀ name other, ReflTransGen (NamesUnion f) name other → TransGen (NamesUnion f) other other →
        declaredType? suggests graph f name = none ∧
          ∀ id members, graph.size ≤ id →
            (readForm suggests graph f).graph.node? id = some (.union name members) →
            name = [] ∨ name = (readForm suggests graph f).graph.unionHint [] members := by
  refine ⟨tryReadForm_eq suggests hgraph f, ?_⟩
  by_cases hform : ∃ s, Entry (Bytes.ascii "graph") f s
  · obtain ⟨s, hentry⟩ := hform
    have hs := hentry.whole (Edn.whole_of_parse h)
    have hnames : NamesUnion f = (s.scope suggests graph).Cites := by
      funext a b
      exact propext (Sections.namesUnion_iff hs hentry hgraph)
    rw [hnames, readForm_of_entry hentry]
    refine ⟨⟨?_, ?_⟩, fun e => Sections.exists_cycle_of_error hs hentry hgraph, fun name other hreach hcycle => ⟨?_, ?_⟩⟩
    · rintro ⟨e, he, hcode⟩
      obtain ⟨name, -, hcycle⟩ := Sections.exists_cycle_of_error hs hentry hgraph he hcode
      exact ⟨name, hcycle⟩
    · rintro ⟨name, hcycle⟩
      exact Sections.exists_error_of_cycle hs hentry hgraph hcycle
    · rw [declaredType?_of_entry hentry]
      exact Sections.not_built_of_circular hs hentry hgraph ⟨other, hreach, hcycle⟩
    · intro id members hid hn
      obtain hhint | hhint | hhint := (Sections.sound_withTops hs hentry hgraph).clean.hints id name members hid hn
      · exact .inl hhint
      · exact .inr hhint
      · exact absurd ⟨other, hreach, hcycle⟩ hhint
  · -- what is not a description declares no unions
    have hnames : ∀ a b, ¬ NamesUnion f a b := by
      rintro a b ⟨d, -, ⟨s, _, _, hentry, -⟩, -⟩
      exact hform ⟨s, hentry⟩
    have hcycle : ∀ name, ¬ TransGen (NamesUnion f) name name := by
      intro name hcycle
      obtain ⟨b, hb, -⟩ := TransGen.head'_iff.mp hcycle
      exact hnames name b hb
    have herrors : ∀ e ∈ (readForm suggests graph f).report.errors, e.code ≠ Bytes.ascii "E2023" := by
      intro e he hcode
      obtain ⟨p, hp, rfl⟩ := ReadResult.mem_errors_iff.mp he
      obtain ⟨name, hname⟩ := Fault.code_eq_iff.mp hcode
      exact (formal_of_not_entry hform suggests graph p hp).plain name hname
    refine ⟨⟨?_, ?_⟩, fun e he hcode => absurd hcode (herrors e he), fun name other _ h => absurd h (hcycle other)⟩
    · rintro ⟨e, he, hcode⟩
      exact absurd hcode (herrors e he)
    · rintro ⟨name, h⟩
      exact absurd h (hcycle name)

/-! ### A ring of unions -/

/-- Two unions that name each other, and a third one that leads to them. -/
def ringSource : Bytes := Bytes.ascii ("(graph :types [(union :name A :members [(array B)]) " ++
  "(union :name B :members [A]) (union :name C :members [A])])")

def ringUnion (column : Int32) (name : String) (member : Form) : Form := .seq ⟨1, column⟩ .round
  [symbolAt (column + 1) "union", keywordAt (column + 7) "name", symbolAt (column + 13) name,
    keywordAt (column + 15) "members", .seq ⟨1, column + 24⟩ .square [member]]

def ringArray : Form := .seq ⟨1, 41⟩ .round [symbolAt 42 "array", symbolAt 48 "B"]

def ringForm : Form := .seq ⟨1, 1⟩ .round [symbolAt 2 "graph", keywordAt 8 "types", .seq ⟨1, 15⟩ .square
  [ringUnion 16 "A" ringArray, ringUnion 53 "B" (symbolAt 78 "A"), ringUnion 82 "C" (symbolAt 107 "A")]]

set_option maxRecDepth 4000 in
theorem parse_ringSource : Edn.parse ringSource = .ok ringForm := by
  with_unfolding_all rfl

def ringDeclaration (column : Int32) (name : String) (member : Form) : Declaration where
  name := Bytes.ascii name
  kind := .union
  pos := ⟨1, column⟩
  sections := [(Bytes.ascii "name", symbolAt (column + 13) name),
    (Bytes.ascii "members", .seq ⟨1, column + 24⟩ .square [member])]

theorem heads_ringUnion (column : Int32) (name : String) (member : Form) :
    Heads (ringUnion column name member) (ringDeclaration column name member) :=
  ⟨⟨_, ⟨_, _, rfl⟩, .cons (.cons .nil)⟩, ⟨_, rfl, rfl⟩, rfl⟩

/-- A union behind others with different names counts. -/
theorem counts_ringUnion {column : Int32} {name : String} {member : Form} {rest : List Form} {d : Declaration}
    (hne : Bytes.ascii name ≠ d.name) (h : Counts rest d) : Counts (ringUnion column name member :: rest) d :=
  .there (fun _ hd' => hd'.unique (heads_ringUnion column name member) ▸ hne) h

theorem declaredIn_ringForm :
    DeclaredIn ringForm (ringDeclaration 16 "A" ringArray) ∧
      DeclaredIn ringForm (ringDeclaration 53 "B" (symbolAt 78 "A")) ∧
      DeclaredIn ringForm (ringDeclaration 82 "C" (symbolAt 107 "A")) := by
  have hin : ∀ d, Counts [ringUnion 16 "A" ringArray, ringUnion 53 "B" (symbolAt 78 "A"),
      ringUnion 82 "C" (symbolAt 107 "A")] d → DeclaredIn ringForm d :=
    fun d hd => ⟨_, _, _, ⟨_, ⟨_, _, rfl⟩, .cons .nil⟩, rfl, rfl, hd⟩
  refine ⟨hin _ ?_, hin _ ?_, hin _ ?_⟩
  · exact .here (heads_ringUnion 16 "A" ringArray) (by decide)
  · exact counts_ringUnion (by decide) (.here (heads_ringUnion 53 "B" (symbolAt 78 "A")) (by decide))
  · exact counts_ringUnion (by decide) (counts_ringUnion (by decide)
      (.here (heads_ringUnion 82 "C" (symbolAt 107 "A")) (by decide)))

theorem namesUnion_ringForm :
    NamesUnion ringForm (Bytes.ascii "A") (Bytes.ascii "B") ∧ NamesUnion ringForm (Bytes.ascii "B") (Bytes.ascii "A") ∧
      NamesUnion ringForm (Bytes.ascii "C") (Bytes.ascii "A") := by
  obtain ⟨hA, hB, hC⟩ := declaredIn_ringForm
  refine ⟨⟨_, _, hA, rfl, rfl, hB, rfl, rfl, _, _, rfl, rfl, _, .head _, ?_⟩,
    ⟨_, _, hB, rfl, rfl, hA, rfl, rfl, _, _, rfl, rfl, _, .head _, .name rfl⟩,
    ⟨_, _, hC, rfl, rfl, hA, rfl, rfl, _, _, rfl, rfl, _, .head _, .name rfl⟩⟩
  exact .array ⟨_, _, rfl⟩ (.name rfl)

/-- The ring is told, and the union that leads to it gets no type. -/
theorem ring_is_told :
    Edn.parse ringSource = .ok ringForm ∧ Graph.empty.WellFormed ∧
      (∃ e ∈ (readForm false Graph.empty ringForm).report.errors, e.code = Bytes.ascii "E2023") ∧
      declaredType? false Graph.empty ringForm (Bytes.ascii "C") = none := by
  obtain ⟨hAB, hBA, hCA⟩ := namesUnion_ringForm
  have hcycle : TransGen (NamesUnion ringForm) (Bytes.ascii "A") (Bytes.ascii "A") := .tail (.single hAB) hBA
  obtain ⟨-, htold, -, hnone⟩ := readForm_tells_recursive_unions parse_ringSource false Graph.wellFormed_empty
  exact ⟨parse_ringSource, Graph.wellFormed_empty, htold.mpr ⟨_, hcycle⟩, (hnone _ _ (.single hCA) hcycle).1⟩

end Typewright
