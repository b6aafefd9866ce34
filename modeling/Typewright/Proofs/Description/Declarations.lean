import Typewright.Proofs.Description.Resolution

/-!
# Reading the declarations

* `foldl_declare_eq`, `exists_of_foldl_declare` : the declarations are taken up without problems just if their heads are
  spelled and their names are different and not primitive;
* `buildEnum_eq`, `exists_of_buildEnum` : the same for the cases of enums;
* `Tracks.scope_valid` : if all unions are built, they are valid;
* `Ready.buildUnions`, `buildUnions_passes` : the unions are built without problems just if they are valid.
-/

namespace Typewright

open Edn (Form)
open Relation

/-! ## New names -/

/-- A new type with a name. -/
def Reading.declareNode (r : Reading) (name : Bytes) (n : Node) : Reading :=
  { r with graph := (r.graph.push n).2 }.define name (some r.graph.size)

/-- A class without properties or an enum, and no union of that name. -/
inductive Opens (s : UnionScope) (name : Bytes) : Node → Prop where
  | record : s.unions.lookup name = none → Opens s name (.record name [])
  | enum (cases : List Bytes) : s.unions.lookup name = none → Opens s name (.enum name cases)

/-- A declared name stands for a type. -/
def HasNode (ks : List TypeKey) (g : Graph) (name : Bytes) (n : Node) : Prop :=
  ∃ id, ks[id]? = some (.declared name) ∧ g.node? id = some n

theorem HasNode.mono {ks ks' : List TypeKey} {g g' : Graph} {name : Bytes} {n : Node} (h : HasNode ks g name n)
    (hks : ks <+: ks') (hg : ∀ id n, g.node? id = some n → g'.node? id = some n) : HasNode ks' g' name n := by
  obtain ⟨id, hid, hn⟩ := h
  exact ⟨id, getElem?_mono hks hid, hg id n hn⟩

theorem HasNode.mem {ks : List TypeKey} {g : Graph} {name : Bytes} {n : Node} (h : HasNode ks g name n) :
    .declared name ∈ ks := by
  obtain ⟨id, hid, -⟩ := h
  exact List.mem_of_getElem? hid

section

variable {s : UnionScope} {name : Bytes} {n : Node} {free : Site → Prop} {ks : List TypeKey} {r : Reading}

theorem Opens.nodeOf (h : Opens s name n) (g : Graph) (ks : List TypeKey) : NodeOf s g ks (.declared name) n := by
  cases h with
  | record h => exact .record h
  | enum cases h => exact .enum h

theorem Opens.extends (h : Opens s name n) (g : Graph) : g.Extends (g.push n).2 := by
  cases h with
  | record _ => exact Graph.extends_push (Graph.growsTo_record name)
  | enum cases _ => exact Graph.extends_push (Graph.growsTo_enum name cases)

theorem Ready.declareNode (h : Ready s [] free ks r) (hn : Opens s name n) (hnew : .declared name ∉ ks)
    (hname : name ∈ s.names) : Ready s [] free (ks ++ [.declared name]) (r.declareNode name n) := by
  have hgrow : KeysGrow [] (fun _ => False) ks (ks ++ [.declared name]) :=
    (KeysGrow.refl [] _ ks).snoc (by simp [TypeKey.site?]) (by simp)
  exact h.next hgrow (h.tracks.push_declared (hn.extends _) hnew hname (hn.nodeOf _ _)) (fun _ hf => hf.elim)
    (fun _ hf => hf) fun _ hf => hf.elim

theorem Ready.foldl_declareNode {l : List α} {f : α → Bytes} {k : α → Node} (h : Ready s [] free ks r)
    (hk : ∀ a ∈ l, Opens s (f a) (k a)) (hnodup : (l.map f).Nodup) (hnew : ∀ a ∈ l, .declared (f a) ∉ ks)
    (hname : ∀ a ∈ l, f a ∈ s.names) :
    Ready s [] free (ks ++ l.map fun a => .declared (f a)) (l.foldl (fun r a => r.declareNode (f a) (k a)) r) ∧
      r.graph.Extends (l.foldl (fun r a => r.declareNode (f a) (k a)) r).graph ∧
      ∀ a ∈ l, HasNode (ks ++ l.map fun a => .declared (f a)) (l.foldl (fun r a => r.declareNode (f a) (k a)) r).graph
        (f a) (k a) := by
  induction l generalizing ks r with
  | nil => exact ⟨by simpa using h, .refl _, by simp⟩
  | cons a l ih =>
    simp only [List.mem_cons, forall_eq_or_imp, List.map_cons, List.nodup_cons] at hk hnew hname hnodup
    have hstep := h.declareNode hk.1 hnew.1 hname.1
    have hnew' : ∀ b ∈ l, .declared (f b) ∉ ks ++ [.declared (f a)] := by
      intro b hb hmem
      rcases List.mem_append.mp hmem with hmem | hmem
      · exact hnew.2 b hb hmem
      · refine hnodup.1 ?_
        rw [← (by simpa using hmem : f b = f a)]
        exact List.mem_map_of_mem hb
    obtain ⟨hready, hext, hhas⟩ := ih hstep hk.2 hnodup.2 hnew' hname.2
    rw [List.append_assoc] at hready hhas
    refine ⟨by simpa using hready, (hk.1.extends _).trans hext, ?_⟩
    simp only [List.mem_cons, forall_eq_or_imp, List.map_cons, List.foldl_cons]
    refine ⟨?_, by simpa using hhas⟩
    obtain ⟨id, hid, hn⟩ : HasNode (ks ++ [.declared (f a)]) (r.declareNode (f a) (k a)).graph (f a) (k a) :=
      ⟨r.graph.size, getElem?_concat_eq_some.mpr (.inr ⟨h.tracks.length.symm, rfl⟩), by
        simp [Reading.declareNode, Reading.define, Graph.node?_push]⟩
    exact ⟨id, getElem?_mono ⟨l.map fun a => .declared (f a), by simp⟩ hid, hext.node? id _ hn⟩

end

/-! ## Taking up declarations -/

/-- A form starts a declaration. -/
def Heads (f : Form) (d : Declaration) : Prop :=
  Entry d.kind.word f d.sections ∧ d.sections.Gives "name" SpellsName d.name ∧ d.pos = f.pos

/-- Declarations that may follow others: none has a name that is taken. -/
structure Admissible (before new : List Declaration) : Prop where
  primitive : ∀ d ∈ new, Primitive.ofName? d.name = none
  nodup : (new.map Declaration.name).Nodup
  disjoint : ∀ d ∈ new, ∀ d' ∈ before, d'.name ≠ d.name

/-- A class gets its number when it is declared. -/
def Reading.takeUp (r : Reading) (d : Declaration) : Reading :=
  match d.kind with
  | .record => r.declareNode d.name (.record d.name [])
  | _ => r

theorem declare_of_ok {ds : List Declaration} {r : Reading} {f : Form} (hf : f.Whole) {d : Declaration}
    (h : readDeclaration ds f = .ok d) : declare (ds, r) f = (ds ++ [d], r.takeUp d) := by
  unfold declare Reading.takeUp
  dsimp only
  rw [if_pos hf.isPresent]
  simp only [h]
  cases d.kind <;> rfl

theorem Admissible.cons_iff {before new : List Declaration} {d : Declaration} :
    Admissible before (d :: new) ↔ Primitive.ofName? d.name = none ∧ (∀ d' ∈ before, d'.name ≠ d.name) ∧
      Admissible (before ++ [d]) new := by
  constructor
  · rintro ⟨hp, hn, hd⟩
    simp only [List.mem_cons, forall_eq_or_imp, List.map_cons, List.nodup_cons] at hp hn hd
    refine ⟨hp.1, hd.1, hp.2, hn.2, fun d' hd' b hb => ?_⟩
    rcases List.mem_append.mp hb with hb | hb
    · exact hd.2 d' hd' b hb
    · rw [List.mem_singleton.mp hb]
      intro heq
      exact hn.1 (heq ▸ List.mem_map_of_mem hd')
  · rintro ⟨hp, hd, hp', hn', hd'⟩
    refine ⟨by simpa using ⟨hp, hp'⟩, ?_, ?_⟩
    · rw [List.map_cons, List.nodup_cons]
      refine ⟨fun hmem => ?_, hn'⟩
      obtain ⟨d', hmem', heq⟩ := List.mem_map.mp hmem
      exact hd' d' hmem' d (by simp) heq.symm
    · simp only [List.mem_cons, forall_eq_or_imp]
      exact ⟨hd, fun d' hmem b hb => hd' d' hmem b (by simp [hb])⟩

theorem foldl_declare_eq {items : List Form} {new : List Declaration} (hw : ∀ f ∈ items, f.Whole)
    (hheads : List.Forall₂ Heads items new) {ds : List Declaration} (hadm : Admissible ds new) (r : Reading) :
    items.foldl declare (ds, r) = (ds ++ new, new.foldl Reading.takeUp r) := by
  induction hheads generalizing ds r with
  | nil => simp
  | @cons f d items new hhead _ ih =>
    simp only [List.mem_cons, forall_eq_or_imp] at hw
    obtain ⟨hp, hbefore, hadm⟩ := Admissible.cons_iff.mp hadm
    have hok : readDeclaration ds f = .ok d :=
      (readDeclaration_eq_ok_iff hw.1).mpr ⟨hhead.1, hhead.2.1, hhead.2.2, hp, hbefore⟩
    rw [List.foldl_cons, declare_of_ok hw.1 hok, ih hw.2 hadm]
    simp

theorem exists_of_foldl_declare {items : List Form} (hw : ∀ f ∈ items, f.Whole) {ds : List Declaration} {r : Reading}
    (hr : r.Known) (hp : (items.foldl declare (ds, r)).2.problems = []) :
    ∃ new, List.Forall₂ Heads items new ∧ Admissible ds new := by
  induction items generalizing ds r with
  | nil => exact ⟨[], .nil, by simp, by simp, by simp⟩
  | cons f items ih =>
    simp only [List.mem_cons, forall_eq_or_imp] at hw
    rw [List.foldl_cons] at hp
    have hstep := hr.proceeds_declare ds f
    have hp₁ := Reading.no_problems_before (hstep.known.proceeds_foldl_declare _ items).problems hp
    cases hread : readDeclaration ds f with
    | error e =>
      simp [declare, hw.1.isPresent, hread, Reading.report] at hp₁
    | ok d =>
      rw [declare_of_ok hw.1 hread] at hp hstep
      obtain ⟨new, hheads, hadm⟩ := ih hw.2 hstep.known hp
      obtain ⟨hentry, hname, hpos, hprim, hbefore⟩ := (readDeclaration_eq_ok_iff hw.1).mp hread
      exact ⟨d :: new, .cons ⟨hentry, hname, hpos⟩ hheads, Admissible.cons_iff.mpr ⟨hprim, hbefore, hadm⟩⟩

theorem foldl_takeUp_eq (ds : List Declaration) (r : Reading) :
    ds.foldl Reading.takeUp r =
      (ofKind .record ds).foldl (fun r d => r.declareNode d.name (.record d.name [])) r := by
  induction ds generalizing r with
  | nil => rfl
  | cons d ds ih =>
    rw [List.foldl_cons, ih]
    unfold ofKind
    cases hk : d.kind <;> simp [Reading.takeUp, hk]

/-! ## Enums -/

def Declaration.labels (d : Declaration) : List Bytes :=
  match d.sections.get? "cases" with
  | none => []
  | some f => ((f.vector?.map (readCases f)).getD ([], [])).1

theorem readCases_eq_iff {f : Form} {items : List Form} {cs : List Bytes} :
    readCases f items = (cs, []) ↔ List.Forall₂ SpellsName items cs := by
  unfold readCases SpellsName
  rw [gather_eq_iff]
  refine ⟨fun h => h.imp fun c s hc => ?_, fun h => h.imp fun c s hc => ?_⟩
  · split at hc
    · rename_i s' hs'
      rw [hs', Except.ok.inj hc]
    · cases hc
  · simp only [hc]

theorem buildEnum_eq {d : Declaration} (hd : d.sections.Whole) {cs : List Bytes}
    (h : SpellsBody d.sections .enum (.enum cs)) (r : Reading) :
    d.labels = cs ∧ buildEnum r d = r.declareNode d.name (.enum d.name cs) := by
  cases h with
  | enum h =>
    unfold Sections.GivesOr at h
    unfold Declaration.labels buildEnum
    rw [hd.get?_eq]
    cases hf : d.sections.lookup (Bytes.ascii "cases") with
    | none =>
      rw [hf] at h
      subst h
      exact ⟨rfl, rfl⟩
    | some f =>
      rw [hf] at h
      obtain ⟨items, hitems, hcs⟩ := h
      have hread := (readCases_eq_iff (f := f)).mpr hcs
      refine ⟨by simp [hitems, hread], ?_⟩
      simp [hitems, hread, Reading.reportAll, Reading.declareNode, Reading.push, Graph.push, Reading.define]

theorem exists_of_buildEnum {d : Declaration} (hd : d.sections.Whole) {r : Reading} (hp : (buildEnum r d).problems = []) :
    ∃ cs, SpellsBody d.sections .enum (.enum cs) := by
  unfold buildEnum at hp
  rw [hd.get?_eq] at hp
  have hbody : ∀ cs, (d.sections.GivesOr "cases" (VectorOf SpellsName) [] cs) →
      ∃ cs, SpellsBody d.sections .enum (.enum cs) := fun cs h => ⟨cs, .enum h⟩
  unfold Sections.GivesOr at hbody
  cases hf : d.sections.lookup (Bytes.ascii "cases") with
  | none => exact hbody [] (by rw [hf])
  | some f =>
    simp only [hf] at hp hbody
    cases hitems : f.vector? with
    | none => simp [hitems, Reading.report, Reading.define] at hp
    | some items =>
      have hps : (readCases f items).2 = [] := by
        simp only [hitems, Reading.define, Reading.problems_reportAll] at hp
        exact (List.append_eq_nil_iff.mp hp).2
      exact hbody _ ⟨items, hitems, readCases_eq_iff.mp (Prod.ext rfl hps)⟩

theorem spellsBody_of_foldl_buildEnum {l : List Declaration} (hw : ∀ d ∈ l, d.sections.Whole) {r : Reading} (hr : r.Known)
    (hp : (l.foldl buildEnum r).problems = []) : ∀ d ∈ l, SpellsBody d.sections .enum (.enum d.labels) := by
  induction l generalizing r with
  | nil => simp
  | cons d l ih =>
    simp only [List.mem_cons, forall_eq_or_imp, List.foldl_cons] at hw hp ⊢
    have hstep := hr.proceeds_buildEnum d
    have hp₁ := Reading.no_problems_before
      (hstep.known.proceeds_foldl (fun _ d hr => hr.proceeds_buildEnum d) l).problems hp
    obtain ⟨cs, hcs⟩ := exists_of_buildEnum hw.1 hp₁
    refine ⟨?_, ih hw.2 hstep.known hp⟩
    rw [(buildEnum_eq hw.1 hcs r).1]
    exact hcs

theorem foldl_buildEnum_eq {l : List Declaration} (hw : ∀ d ∈ l, d.sections.Whole)
    (h : ∀ d ∈ l, SpellsBody d.sections .enum (.enum d.labels)) (r : Reading) :
    l.foldl buildEnum r = l.foldl (fun r d => r.declareNode d.name (.enum d.name d.labels)) r := by
  induction l generalizing r with
  | nil => rfl
  | cons d l ih =>
    simp only [List.mem_cons, forall_eq_or_imp] at hw h
    rw [List.foldl_cons, List.foldl_cons, (buildEnum_eq hw.1 h.1 r).2, ih hw.2 h.2]

/-! ## Unions -/

section

variable {s : UnionScope} {free : Site → Prop} {ks : List TypeKey} {r : Reading}

/-- Building a union uses no free places. -/
theorem Ready.buildUnion (hs : s.Whole) (h : Ready s [] free ks r) {d : Declaration}
    (hd : Primitive.ofName? d.name = none) (hp : (buildUnion s r d).problems = []) :
    ∃ ks', ks <+: ks' ∧ Ready s [] free ks' (buildUnion s r d) ∧ .declared d.name ∈ ks' := by
  have hready : Ready s [] (fun _ => False) ks r := h.mono fun _ hf => hf.elim
  obtain ⟨id, term, ks', -, hterm, htracks, hgrow, hk⟩ := resolve_traced hs [] r (.named d.pos d.name) ks ⟨.top 0, []⟩ _
    hready (by simp [TypeForm.isName]) (.named _ _) hp
  obtain rfl := TypeForm.term?_named hd hterm
  rw [TypeTerm.key] at hk
  exact ⟨ks', hgrow.kept, h.next hgrow htracks (fun _ hf => hf.elim) (fun _ hf => hf) fun _ hf => hf.elim,
    List.mem_of_getElem? hk⟩

theorem Ready.buildUnions (hs : s.Whole) (h : Ready s [] free ks r) {l : List Declaration}
    (hl : ∀ d ∈ l, Primitive.ofName? d.name = none) (hp : (l.foldl (Typewright.buildUnion s) r).problems = []) :
    ∃ ks', ks <+: ks' ∧ Ready s [] free ks' (l.foldl (Typewright.buildUnion s) r) ∧
      r.graph.Extends (l.foldl (Typewright.buildUnion s) r).graph ∧ ∀ d ∈ l, .declared d.name ∈ ks' := by
  induction l generalizing ks r with
  | nil => exact ⟨ks, List.prefix_refl ks, h, .refl _, by simp⟩
  | cons d l ih =>
    simp only [List.mem_cons, forall_eq_or_imp, List.foldl_cons] at hl hp ⊢
    have hext := (h.tracks.known.resolves s [] (.named d.pos d.name)).grows.graph
    have hknown := (h.tracks.known.proceeds_buildUnion s d).known
    have hp₁ := Reading.no_problems_before
      (hknown.proceeds_foldl (fun _ d hr => hr.proceeds_buildUnion s d) l).problems hp
    obtain ⟨ks₁, hks₁, hready, hmem⟩ := h.buildUnion hs hl.1 hp₁
    obtain ⟨ks₂, hks₂, hready₂, hext₂, hall⟩ := ih hready hl.2 hp
    exact ⟨ks₂, hks₁.trans hks₂, hready₂, hext.trans hext₂, hks₂.subset hmem, hall⟩

theorem buildUnions_passes (hs : s.Whole) (hv : s.Valid) (h : Ready s [] free ks r) (hbegun : s.Begun ks)
    {l : List Declaration} (hl : ∀ d ∈ l, Primitive.ofName? d.name = none ∧ d.name ∈ s.names) (hp : r.problems = []) :
    (l.foldl (buildUnion s) r).problems = [] := by
  induction l generalizing ks r with
  | nil => exact hp
  | cons d l ih =>
    simp only [List.mem_cons, forall_eq_or_imp, List.foldl_cons] at hl ⊢
    have hterm : (TypeForm.named d.pos d.name).term? = some (.declared d.name) := by
      simp [TypeForm.term?, TypeTerm.ofName, hl.1.1]
    have hready : Ready s [] (fun _ => False) ks r := h.mono fun _ hf => hf.elim
    have hp₁ : (buildUnion s r d).problems = [] := resolve_passes hs hv [] r (.named d.pos d.name) ks ⟨.top 0, []⟩ _ hready
      (by simp [TypeForm.isName]) (.named _ _) hbegun _ hterm (.declared hl.1.2) (fun _ _ _ other ho => by simp at ho) hp
    obtain ⟨ks₁, hks₁, hready, -⟩ := h.buildUnion hs hl.1.1 hp₁
    exact ih hready (hbegun.mono hks₁) hl.2 hp₁

/-- If all unions are built, they are valid. -/
theorem Tracks.scope_valid (h : Tracks s ks r) (hall : ∀ name u, s.unions.lookup name = some u → .declared name ∈ ks) :
    s.Valid where
  terms name u hu := by
    obtain ⟨id, hid⟩ := List.mem_iff_getElem?.mp (hall name u hu)
    obtain ⟨n, -, hof⟩ := h.exists_node hid
    cases hof with
    | record hnone => simp [hnone] at hu
    | enum hnone => simp [hnone] at hu
    | @declared _ ts ids hts hids h₂ =>
      refine ⟨ts, hts, fun t ht => ?_, (h.twoTypes_iff hids).mp h₂⟩
      obtain ⟨m, -, n, hk⟩ := hids.exists_member ht
      exact h.valid_of_key hk
  acyclic name hcycle := by
    -- along `Needs` the numbers go down
    have hdown : ∀ b, TransGen s.Needs name b → ∀ id : TypeId, ks[id]? = some (.declared name) →
        ∃ id' : TypeId, id' < id ∧ ks[id']? = some (.declared b) := by
      intro b hb id hid
      induction hb with
      | single hneeds =>
        obtain ⟨ts, hts, ⟨t, ht, hm⟩, -⟩ := hneeds
        exact h.exists_needed hts ht hm hid
      | tail _ hneeds ih =>
        obtain ⟨id', hlt, hid'⟩ := ih
        obtain ⟨ts, hts, ⟨t, ht, hm⟩, -⟩ := hneeds
        obtain ⟨id'', hlt', hid''⟩ := h.exists_needed hts ht hm hid'
        exact ⟨id'', Nat.lt_trans hlt' hlt, hid''⟩
    have hsome : ∃ ts, s.terms name = some ts := by
      obtain ⟨b, ⟨ts, hts, -⟩, -⟩ := TransGen.head'_iff.mp hcycle
      exact ⟨ts, hts⟩
    obtain ⟨ts, hts⟩ := hsome
    obtain ⟨u, hu⟩ : ∃ u, s.unions.lookup name = some u := by
      cases hu : s.unions.lookup name with
      | none => simp [UnionScope.terms_eq_none hu] at hts
      | some u => exact ⟨u, rfl⟩
    obtain ⟨id, hid⟩ := List.mem_iff_getElem?.mp (hall name u hu)
    obtain ⟨id', hlt, hid'⟩ := hdown name hcycle id hid
    exact Nat.lt_irrefl id (h.eq_of_key hid hid' ▸ hlt)

end

end Typewright
