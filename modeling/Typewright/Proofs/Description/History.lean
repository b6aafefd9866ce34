import Typewright.Proofs.Description.Beside

/-!
# Readings one after the other

Descriptions are read into one graph, whether they can be accepted or not. Each is read as if it were the only one.

* `Reading.Parallel` : two readings go on beside each other, one of them in a graph that holds older types;
* `Sections.parallel_withTops` : so they do to the end of a description;
* `Reading.Parallel.unreachable` : and the same declarations cannot be reached: old top-levels lead to old types only;
* `readForm_independent_of_history` : what is reported does not depend on what was read before, and what was there is
  kept.
-/

namespace Typewright

namespace Reading

def Parallel (base : Graph) (r r' : Reading) : Prop := ∃ f, Beside base f r r'

variable {base : Graph} {r r' : Reading}

namespace Parallel

theorem report (h : Parallel base r r') (p : Problem) : Parallel base (r.report p) (r'.report p) := by
  obtain ⟨f, h⟩ := h
  exact ⟨f, h.report p⟩

/-- A type that refers to nothing gets a name. -/
theorem push (h : Parallel base r r') {n : Node} (hg : ∀ g : Graph, g.GrowsTo (g.push n).2) (hn : n.children = [])
    (name : Bytes) :
    Parallel base ((r.push n).2.define name (some (r.push n).1)) ((r'.push n).2.define name (some (r'.push n).1)) := by
  obtain ⟨f, h⟩ := h
  have hc : ∀ c ∈ n.children, c < r.graph.size := by
    rw [hn]
    exact fun c hc => absurd hc List.not_mem_nil
  have hrename : n.rename f = n := by
    rw [← Node.rename_id n]
    refine (Node.rename_congr fun c hc => ?_).trans (Node.rename_id _)
    rw [Node.rename_id, hn] at hc
    exact absurd hc List.not_mem_nil
  obtain ⟨f', -, hbeside, hself, hnew⟩ := h.push (hg _) hc (hrename.symm ▸ hg _)
  have hlt : r.graph.size < (r.push n).2.graph.size := by
    show r.graph.size < (r.graph.push n).2.size
    rw [Graph.size_push]
    exact Nat.lt_succ_self _
  have hsome : ∀ i, some r.graph.size = some i → i < (r.push n).2.graph.size ∧ base.size ≤ f' i := by
    intro i hi
    rw [← Option.some.inj hi]
    exact ⟨hlt, hnew⟩
  have hdefine := hbeside.define name hsome
  rw [Option.map_some, hself, hrename] at hdefine
  exact ⟨f', hdefine⟩

/-! ## Declarations -/

/-- The same declaration is taken up, or the same problem is noted. -/
theorem declare (ds : List Declaration) (h : Parallel base r r') (form : Edn.Form) :
    (declare (ds, r') form).1 = (declare (ds, r) form).1 ∧
      Parallel base (declare (ds, r) form).2 (declare (ds, r') form).2 := by
  unfold Typewright.declare
  dsimp only
  split
  · split
    · exact ⟨rfl, h.report _⟩
    · split
      · exact ⟨rfl, h.push (fun g => g.growsTo_record _) rfl _⟩
      · exact ⟨rfl, h⟩
  · exact ⟨rfl, h⟩

theorem readDeclarations (h : Parallel base r r') (form : Edn.Form) :
    (readDeclarations [] r' form).1 = (readDeclarations [] r form).1 ∧
      Parallel base (readDeclarations [] r form).2 (readDeclarations [] r' form).2 := by
  unfold Typewright.readDeclarations
  split
  · exact ⟨rfl, h.report _⟩
  · refine List.foldl_rel (r := fun x x' : List Declaration × Reading => x'.1 = x.1 ∧ Parallel base x.2 x'.2)
      ⟨rfl, h⟩ ?_
    rintro item - ⟨ds, r⟩ ⟨ds', r'⟩ ⟨hds, hr⟩
    cases hds
    exact hr.declare ds item

theorem buildEnum (h : Parallel base r r') (d : Declaration) : Parallel base (buildEnum r d) (buildEnum r' d) := by
  unfold Typewright.buildEnum
  split
  · exact h.push (fun g => g.growsTo_enum _ _) rfl _
  · split
    · obtain ⟨f, h⟩ := h
      exact ⟨f, (h.report _).define d.name fun i hi => by cases hi⟩
    · next form _ _ items _ =>
      obtain ⟨f, h⟩ := h.push (fun g => g.growsTo_enum d.name (readCases form items).1) rfl d.name
      dsimp only
      rw [← reportAll_define, ← reportAll_define]
      exact ⟨f, h.reportAll _⟩

theorem buildUnion (h : Parallel base r r') (s : UnionScope) (d : Declaration) :
    Parallel base (buildUnion s r d) (buildUnion s r' d) := by
  obtain ⟨f, h⟩ := h
  obtain ⟨f', -, hbeside, -⟩ := h.resolve s [] (.named d.pos d.name)
  exact ⟨f', hbeside⟩

end Parallel

/-! ## Classes and top-levels -/

/-- The same properties were read, up to the numbers of their types. -/
def BodiesBeside (base : Graph) (x x' : ClassBody × Reading) : Prop :=
  ∃ f, Beside base f x.2 x'.2 ∧ (∀ p ∈ x.1.properties, p.type < x.2.graph.size) ∧
    x'.1 = ⟨x.1.properties.map fun p => { p with type := f p.type }, x.1.seen⟩

theorem BodiesBeside.addProperty {x x' : ClassBody × Reading} (h : BodiesBeside base x x') (s : UnionScope)
    (pos : Position) (form : Edn.Form) : BodiesBeside base (addProperty s pos x form) (addProperty s pos x' form) := by
  obtain ⟨body, r⟩ := x
  obtain ⟨body', r'⟩ := x'
  obtain ⟨f, hbeside, hlt, hbody⟩ := h
  cases hbody
  unfold Typewright.addProperty
  dsimp only
  split
  · exact ⟨f, hbeside.report _, hlt, rfl⟩
  · next p _ =>
    split
    · exact ⟨f, hbeside.report _, hlt, rfl⟩
    · split
      · exact ⟨f, hbeside.report _, hlt, rfl⟩
      · next optional _ =>
        obtain ⟨hgrows, -, hid⟩ := hbeside.isKnown.resolves s [] p.type
        obtain ⟨f', hsame, hbeside', hanswer⟩ := hbeside.resolve s [] p.type
        have hproperties : (body.properties.map fun q => { q with type := f q.type }) =
            body.properties.map fun q => { q with type := f' q.type } :=
          List.map_congr_left fun q hq => by rw [hsame q.type (hlt q hq)]
        rw [hproperties]
        cases hres : resolve s [] r p.type with
        | mk id r₁ =>
        cases hres' : resolve s [] r' p.type with
        | mk id' r₁' =>
        rw [hres] at hgrows hid hbeside' hanswer
        rw [hres'] at hbeside' hanswer
        have hold : ∀ q ∈ body.properties, q.type < r₁.graph.size := fun q hq => hgrows.graph.lt_size (hlt q hq)
        cases (show id' = id.map f' from hanswer)
        cases id with
        | none => exact ⟨f', hbeside', hold, rfl⟩
        | some id =>
          refine ⟨f', hbeside', List.forall_mem_append.mpr ⟨hold, ?_⟩, ?_⟩
          · exact List.forall_mem_singleton.mpr (hid id (List.mem_singleton_self _))
          · show ClassBody.mk _ _ = ⟨List.map _ (_ ++ [_]), _⟩
            rw [List.map_append]
            rfl

end Reading

namespace Graph.Beside

variable {base g g' : Graph} {f : TypeId → TypeId} {id : TypeId}

/-- A class that is not in `base` gets its properties in both graphs. -/
theorem putProperties (h : base.Beside f g g') (hid : id < g.size) (hnew : base.size ≤ f id) {ps : List Property}
    (hps : ∀ p ∈ ps, p.type < g.size) :
    base.Beside f (g.putProperties id ps) (g'.putProperties (f id) (ps.map fun p => { p with type := f p.type })) := by
  obtain ⟨n, hn⟩ := exists_node? hid
  have hn' := h.node? id n hn
  cases n with
  | record hint old =>
    have hps' : ∀ p ∈ ps.map (fun p => { p with type := f p.type }), p.type < g'.size :=
      List.forall_mem_map.mpr fun p hp => h.lt_size (hps p hp)
    refine ⟨h.wellFormed.putProperties hps, h.built.growsTo (growsTo_putProperties hps'), ?_, fun i m hm => ?_, ?_,
      fun i m hm => ?_⟩
    · rw [size_putProperties]
      exact h.inj
    · rw [node?_putProperties hn] at hm
      rw [node?_putProperties hn']
      split at hm
      · next hi =>
        cases hm
        rw [if_pos (by rw [hi])]
        rfl
      · next hi =>
        rw [if_neg fun hfi => hi (h.inj i id (lt_size_of_node? hm) hid hfi)]
        exact h.node? i m hm
    · rw [tops_putProperties, tops_putProperties]
      exact h.tops
    · rw [node?_putProperties hn', if_neg (Nat.ne_of_lt (Nat.lt_of_lt_of_le (lt_size_of_node? hm) hnew))]
      exact h.old i m hm
  | _ =>
    rw [Graph.putProperties, Graph.putProperties, hn, hn']
    exact h

theorem putTop (h : base.Beside f g g') (name : Bytes) (hid : id < g.size) :
    base.Beside f (g.putTop name id) (g'.putTop name (f id)) := by
  refine ⟨h.wellFormed.putTop hid, h.built.growsTo (growsTo_putTop (h.lt_size hid)), h.inj, h.node?, ?_, h.old⟩
  show g'.tops ++ [_] = base.tops ++ (g.tops ++ [_]).map _
  rw [h.tops, List.map_append, List.append_assoc]
  rfl

end Graph.Beside

namespace Reading.Parallel

variable {base : Graph} {r r' : Reading}

theorem buildClass (h : Parallel base r r') (s : UnionScope) (d : Declaration) :
    Parallel base (buildClass s r d) (buildClass s r' d) := by
  unfold Typewright.buildClass
  split
  · exact h
  · split
    · exact h.report _
    · next f _ _ items _ =>
      obtain ⟨k, h⟩ := h
      have hstart : BodiesBeside base (⟨[], []⟩, r) (⟨[], []⟩, r') :=
        ⟨k, h, fun p hp => absurd hp List.not_mem_nil, rfl⟩
      obtain ⟨k, hbeside, hlt, hbody⟩ := List.foldl_rel (l := items) hstart
        fun form _ x x' hx => hx.addProperty s f.pos form
      dsimp only
      rw [hbody]
      cases hid : (items.foldl (addProperty s f.pos) (⟨[], []⟩, r)).2.built.lookup d.name with
      | none =>
        rw [hbeside.lookup_none hid]
        exact ⟨k, hbeside⟩
      | some id =>
        rw [hbeside.lookup_some hid]
        cases id with
        | none => exact ⟨k, hbeside⟩
        | some id =>
          obtain ⟨hsize, hnew⟩ := hbeside.known d.name id hid
          refine ⟨k, hbeside.withGraph (fun _ _ => rfl) ?_ (hbeside.graph.putProperties hsize hnew hlt)⟩
          rw [Graph.size_putProperties]

theorem addTopLevel (h : Parallel base r r') (s : UnionScope) (pos : Position) (form : Edn.Form) :
    Parallel base (addTopLevel s pos r form) (addTopLevel s pos r' form) := by
  unfold Typewright.addTopLevel
  split
  · exact h.report _
  · next name t _ =>
    obtain ⟨f, h⟩ := h
    obtain ⟨-, -, hid⟩ := h.isKnown.resolves s [] t
    obtain ⟨f', -, hbeside, hanswer⟩ := h.resolve s [] t
    cases hres : resolve s [] r t with
    | mk id r₁ =>
    cases hres' : resolve s [] r' t with
    | mk id' r₁' =>
    rw [hres] at hid hbeside hanswer
    rw [hres'] at hbeside hanswer
    cases (show id' = id.map f' from hanswer)
    cases id with
    | none => exact ⟨f', hbeside⟩
    | some id =>
      exact ⟨f', hbeside.withGraph (fun _ _ => rfl) (Nat.le_refl _)
        (hbeside.graph.putTop name (hid id (List.mem_singleton_self _)))⟩

theorem readTopLevels (h : Parallel base r r') (s : UnionScope) (form : Edn.Form) :
    Parallel base (readTopLevels s r form) (readTopLevels s r' form) := by
  unfold Typewright.readTopLevels
  split
  · exact h.report _
  · exact List.foldl_rel h fun item _ _ _ h => h.addTopLevel s form.pos item

end Reading.Parallel

/-! ## What cannot be reached -/

namespace Graph.Beside

variable {base g g' : Graph} {f : TypeId → TypeId} {id : TypeId}

theorem children (h : base.Beside f g g') (hid : id < g.size) : g'.children (f id) = (g.children id).map f := by
  obtain ⟨n, hn⟩ := exists_node? hid
  rw [children_of_node? hn, children_of_node? (h.node? id n hn), Node.children_rename]

/-- The types of `base` lead to each other only. -/
theorem lt_of_reaches (h : base.Beside f g g') (hbase : base.WellFormed) {a b : TypeId} (ha : a < base.size)
    (hreach : g'.Reaches a b) : b < base.size := by
  induction hreach with
  | refl => exact ha
  | tail _ hc ih =>
    obtain ⟨n, hn⟩ := exists_node? ih
    rw [Leads, children_of_node? (h.old _ n hn)] at hc
    exact (hbase.fits _ n hn).known _ hc

theorem reaches_map (h : base.Beside f g g') {a b : TypeId} (ha : a < g.size) (hreach : g.Reaches a b) :
    b < g.size ∧ g'.Reaches (f a) (f b) := by
  induction hreach with
  | refl => exact ⟨ha, .refl⟩
  | tail _ hc ih =>
    refine ⟨h.wellFormed.children_lt hc, ih.2.tail ?_⟩
    rw [Leads, h.children ih.1]
    exact List.mem_map_of_mem hc

theorem exists_of_reaches (h : base.Beside f g g') {a c : TypeId} (ha : a < g.size) (hreach : g'.Reaches (f a) c) :
    ∃ b < g.size, g.Reaches a b ∧ f b = c := by
  induction hreach with
  | refl => exact ⟨a, ha, .refl, rfl⟩
  | tail _ hc ih =>
    obtain ⟨b, hb, hreach, rfl⟩ := ih
    rw [Leads, h.children hb] at hc
    obtain ⟨d, hd, rfl⟩ := List.mem_map.mp hc
    exact ⟨d, h.wellFormed.children_lt hd, hreach.tail hd, rfl⟩

/-- A type that is not in `base` is reached in both graphs or in neither. -/
theorem reached_iff (h : base.Beside f g g') (hbase : base.WellFormed) (hid : id < g.size) (hnew : base.size ≤ f id) :
    g'.Reached (f id) ↔ g.Reached id := by
  constructor
  · rintro ⟨top, htop, hreach⟩
    rw [h.tops] at htop
    rcases List.mem_append.mp htop with htop | htop
    · exact absurd (h.lt_of_reaches hbase (hbase.tops top htop) hreach) (Nat.not_lt.mpr hnew)
    · obtain ⟨own, hown, rfl⟩ := List.mem_map.mp htop
      obtain ⟨b, hb, hreach, hfb⟩ := h.exists_of_reaches (h.wellFormed.tops own hown) hreach
      rw [h.inj b id hb hid hfb] at hreach
      exact ⟨own, hown, hreach⟩
  · rintro ⟨top, htop, hreach⟩
    refine ⟨⟨top.name, f top.type⟩, ?_, (h.reaches_map (h.wellFormed.tops top htop) hreach).2⟩
    rw [h.tops]
    exact List.mem_append_right _ (List.mem_map.mpr ⟨top, htop, rfl⟩)

end Graph.Beside

theorem Reading.Parallel.unreachable {base : Graph} {r r' : Reading} (h : Parallel base r r') (hbase : base.WellFormed)
    (ds : List Declaration) : unreachable ds r' = unreachable ds r := by
  obtain ⟨f, h⟩ := h
  unfold Typewright.unreachable
  refine congrArg (List.map _) (List.filter_congr fun d _ => ?_)
  cases hid : r.built.lookup d.name with
  | none => rw [h.lookup_none hid]
  | some id =>
    rw [h.lookup_some hid]
    cases id with
    | none => rfl
    | some id =>
      obtain ⟨hlt, hnew⟩ := h.known d.name id hid
      have hmem : f id ∈ r'.graph.marked ↔ id ∈ r.graph.marked := by
        rw [h.graph.built.wellFormed.mem_marked_iff, h.graph.wellFormed.mem_marked_iff,
          h.graph.reached_iff hbase hlt hnew]
      simp [hmem]

/-! ## Descriptions -/

namespace Sections

variable {base : Graph} (s : Sections) (suggests : Bool)

theorem parallel_opening (hbase : base.Built) : Reading.Parallel base (s.opening .empty) (s.opening base) := by
  have hstart : Reading.Beside base (fun id => id) ⟨.empty, [], [], true⟩ ⟨base, [], [], true⟩ := by
    refine ⟨⟨Graph.wellFormed_empty, hbase, fun a b _ _ hab => hab, fun id n hn => ?_, ?_, fun _ _ hn => hn⟩,
      fun name id hid => ?_, fun name => rfl, rfl, rfl⟩
    · obtain ⟨p, rfl, rfl⟩ := Graph.eq_primitive_of_node?_empty hn
      exact hbase.wellFormed.primitives p
    · exact (List.append_nil _).symm
    · cases hid
  exact ⟨fun id => id, hstart.reportAll _⟩

theorem parallel_declarations (hbase : base.Built) :
    (s.declarations base).1 = (s.declarations .empty).1 ∧
      Reading.Parallel base (s.declarations .empty).2 (s.declarations base).2 := by
  unfold declarations
  cases s.get? "types" with
  | none => exact ⟨rfl, s.parallel_opening hbase⟩
  | some f => exact (s.parallel_opening hbase).readDeclarations f

theorem parallel_withTops (hbase : base.Built) :
    Reading.Parallel base (s.withTops suggests .empty) (s.withTops suggests base) := by
  obtain ⟨hds, hdeclarations⟩ := s.parallel_declarations hbase
  have hscope : s.scope suggests base = s.scope suggests .empty := by rw [scope, scope, hds]
  have henums : Reading.Parallel base (s.withEnums .empty) (s.withEnums base) := by
    rw [withEnums, withEnums, hds]
    exact List.foldl_rel hdeclarations fun d _ _ _ h => h.buildEnum d
  have hunions : Reading.Parallel base (s.withUnions suggests .empty) (s.withUnions suggests base) := by
    rw [withUnions, withUnions, hds, hscope]
    exact List.foldl_rel henums fun d _ _ _ h => h.buildUnion _ d
  have hclasses : Reading.Parallel base (s.withClasses suggests .empty) (s.withClasses suggests base) := by
    rw [withClasses, withClasses, hds, hscope]
    exact List.foldl_rel hunions fun d _ _ _ h => h.buildClass _ d
  rw [withTops, withTops, hscope]
  cases s.get? "top-levels" with
  | none => exact hclasses
  | some f => exact hclasses.readTopLevels _ f

end Sections

/-- A description is read into a graph as it is read into an empty one, and what was there is kept. -/
theorem readForm_beside {base : Graph} (hbase : base.Built) (suggests : Bool) (form : Edn.Form) :
    (readForm suggests base form).problems = (readForm suggests .empty form).problems ∧
      (readForm suggests base form).success = (readForm suggests .empty form).success ∧
      (readForm suggests base form).warnings = (readForm suggests .empty form).warnings ∧
      (readForm suggests base form).comments = (readForm suggests .empty form).comments ∧
      (∀ id n, base.node? id = some n → (readForm suggests base form).graph.node? id = some n) ∧
      base.tops <+: (readForm suggests base form).graph.tops := by
  by_cases hhead : form.head? = some (Bytes.ascii "graph")
  · cases hs : form.sections with
    | error p =>
      rw [readForm_of_error suggests base hhead hs, readForm_of_error suggests .empty hhead hs]
      exact ⟨rfl, rfl, rfl, rfl, fun _ _ hn => hn, List.prefix_refl _⟩
    | ok s =>
      rw [readForm_of_sections suggests base hhead hs, readForm_of_sections suggests .empty hhead hs]
      have hparallel := s.parallel_withTops suggests hbase
      have hunreachable := hparallel.unreachable hbase.wellFormed (s.declarations .empty).1
      obtain ⟨f, hbeside⟩ := hparallel
      refine ⟨hbeside.problems, hbeside.success, ?_, rfl, hbeside.graph.old, ?_⟩
      · show _ ++ _ ++ (if (s.withTops suggests base).success then
          unreachable (s.declarations base).1 (s.withTops suggests base) else []) = _
        rw [hbeside.success, (s.parallel_declarations hbase).1, hunreachable]
        rfl
      · rw [Sections.graph_readSections, hbeside.graph.tops]
        exact List.prefix_append _ _
  · rw [readForm_of_head? suggests base hhead, readForm_of_head? suggests .empty hhead]
    exact ⟨rfl, rfl, rfl, rfl, fun _ _ hn => hn, List.prefix_refl _⟩

/-! ## One reader -/

namespace Reader

/-- What a reader keeps is forgotten before it reads. -/
theorem fst_read (k : Reader) (suggests : Bool) (graph : Graph) (f : Edn.Form) :
    (k.read suggests graph f).1 = readForm suggests graph f := rfl

/-- Reads one more description with the same reader, into the same graph. -/
def readNext (state : Reader × Graph) (x : Bool × Edn.Form) : Reader × Graph :=
  let (result, k) := state.1.read x.1 state.2 x.2
  (k, result.graph)

/-- A reader after readings, and the graph they make out of the empty one. Each reading comes with its form, and with
whether unknown names are answered with similar ones. -/
def afterReadings (history : List (Bool × Edn.Form)) : Reader × Graph := history.foldl readNext (new, .empty)

theorem graph_readNext (state : Reader × Graph) (x : Bool × Edn.Form) :
    (readNext state x).2 = (readForm x.1 state.2 x.2).graph := rfl

theorem built_afterReadings (history : List (Bool × Edn.Form)) : (afterReadings history).2.Built := by
  refine List.foldlRecOn (motive := fun state : Reader × Graph => state.2.Built) history readNext ⟨[], rfl⟩ ?_
  intro state hstate x _
  rw [graph_readNext]
  exact hstate.growsTo (growsTo_readForm x.1 hstate.wellFormed x.2)

end Reader

/-- **What is read before makes no difference.** After any readings, accepted or not, a description is answered with the
same report and comments as if it were read alone, and the types and top-levels that are there stay as they are and
where they are. -/
theorem readForm_independent_of_history (history : List (Bool × Edn.Form)) (suggests : Bool) (form : Edn.Form) :
    let before := Reader.afterReadings history
    let next := (before.1.read suggests before.2 form).1
    let alone := (Reader.new.read suggests .empty form).1
    next.report = alone.report ∧ next.comments = alone.comments ∧
      (∀ id n, before.2.node? id = some n → next.graph.node? id = some n) ∧ before.2.tops <+: next.graph.tops := by
  intro before next alone
  obtain ⟨hproblems, hsuccess, hwarnings, hcomments, hnodes, htops⟩ :=
    readForm_beside (Reader.built_afterReadings history) suggests form
  have hnext : next = readForm suggests before.2 form := before.1.fst_read suggests before.2 form
  have halone : alone = readForm suggests .empty form := Reader.new.fst_read suggests .empty form
  rw [hnext, halone]
  refine ⟨?_, hcomments, hnodes, htops⟩
  rw [ReadResult.report, ReadResult.report, hproblems, hsuccess, hwarnings]

end Typewright
