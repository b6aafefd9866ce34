import Typewright.Proofs.Module.Desk
import Typewright.Proofs.Module.Render

/-!
# Sessions with one renderer

A renderer is used again and again: it renders, with or without success, it is asked for expressions, and the graph
changes in between. At a desk, all that was left behind is still there when the next rendering starts.

* `Desk.Reads`, `Desk.Holds` : what a desk means, between renderings and in the middle of one;
* `AtDesk.Follows` : a computation at a desk ends as one that changes nothing does, with one rule for each kind of step;
* `AtDesk.expr_follows`, `AtDesk.record_follows`, … : each part of a rendering at a desk follows its counterpart;
* `AtDesk.render_follows` : so does the whole, and nothing about the desk at the start is needed for it;
* `Session`, `Session.Kept` : renderings, expressions and changes of the graph in any order, and what they keep;
* `Session.render_independent_of_history` : the next rendering is that of a new renderer.
-/

namespace Typewright

/-! ## Parts of a module -/

section Parts

variable {α β : Type} {c : ExprContext}

theorem ExprContext.tryIn_map (x : Except RenderError α) (f : α → β) : c.tryIn (x.map f) = (c.tryIn x).map f := by
  cases x <;> rfl

theorem ExprContext.tryIn_mapM (k : α → Except RenderError β) (l : List α) :
    c.tryIn (l.mapM k) = l.mapM fun a => c.tryIn (k a) := by
  induction l with
  | nil => rfl
  | cons a l ih =>
    rw [List.mapM_cons, List.mapM_cons, ← ih]
    cases k a with
    | error e => rfl
    | ok r => cases l.mapM k <;> rfl

theorem TypeExpr.importsAll_append (es es' : List TypeExpr) :
    importsAll (es ++ es') = importsAll es ++ importsAll es' := by
  induction es with
  | nil => rfl
  | cons e es ih => rw [List.cons_append, importsAll, importsAll, ih, List.append_assoc]

theorem map_zipWith_field {names : List Bytes} {types : List TypeExpr} (hlen : names.length = types.length) :
    (List.zipWith Field.mk names types).map Field.name = names ∧
      (List.zipWith Field.mk names types).map Field.type = types := by
  induction names generalizing types with
  | nil => exact ⟨rfl, (List.length_eq_zero_iff.mp hlen.symm).symm⟩
  | cons n names ih =>
    cases types with
    | nil => cases hlen
    | cons e types =>
      obtain ⟨hnames, htypes⟩ := ih (Nat.succ.inj hlen)
      exact ⟨congrArg (n :: ·) hnames, congrArg (e :: ·) htypes⟩

theorem Block.write_record (s : Sheet) (name : Bytes) {fields : List Field} (hne : fields ≠ []) :
    write s (.record name fields) =
      (((((s.line (Bytes.ascii "class " ++ name ++ Bytes.ascii ":")).indent.writeLines (fields.map Field.text)).gap
        1).signature fields).indent.writeLines
          ((fields.map Field.name).map fun n => Bytes.ascii "self." ++ n ++ Bytes.ascii " = " ++ n)).dedent.dedent := by
  rw [write, if_neg (by rwa [List.isEmpty_iff]), List.map_map]
  rfl

theorem Module.importLine_congr (library : String) {names needed needed' : List Import}
    (h : ∀ i ∈ names, i ∈ needed ↔ i ∈ needed') :
    importLine library names needed = importLine library names needed' := by
  have hfilter : names.filter (· ∈ needed) = names.filter (· ∈ needed') :=
    List.filter_congr fun i hi => decide_eq_decide.mpr (h i hi)
  rw [importLine, importLine, hfilter]

theorem Graph.aliasTops_eq (g : Graph) (b : Bool) :
    ((g.tops.zipIdx.zip ((g.claims b).map Option.isNone)).filter Prod.snd).map Prod.fst = g.aliasTops b := by
  rw [List.zip_map_right, List.filter_map, List.map_map]
  rfl

end Parts

/-! ## Desks and contexts -/

namespace Desk

variable {d : Desk} {c : ExprContext} {b : Bool}

/-- What a desk holds is read as a context. -/
structure Reads (d : Desk) (declareUnions : Bool) (c : ExprContext) : Prop where
  names : d.names.Agrees c.names
  declareUnions : c.declareUnions = declareUnions
  eager : d.eager = c.eager
  bound : d.bound = c.bound
  place : d.place = c.place

def Noted (d : Desk) : Import → Prop
  | .any => .any ∈ d.typing
  | .optional => .optional ∈ d.typing
  | .union => .union ∈ d.typing
  | .date => .date ∈ d.datetime
  | .datetime => .datetime ∈ d.datetime
  | .time => .time ∈ d.datetime
  | .enum => d.usesEnum = true

theorem note_eq (d : Desk) (i : Import) :
    d.note i =
      { d with typing := (d.note i).typing, datetime := (d.note i).datetime, usesEnum := (d.note i).usesEnum } := by
  cases i <;> rfl

theorem Reads.note (h : d.Reads b c) (i : Import) : (d.note i).Reads b c := by
  rw [note_eq]
  exact ⟨h.names, h.declareUnions, h.eager, h.bound, h.place⟩

theorem Reads.noteAll (h : d.Reads b c) (is : List Import) : (d.noteAll is).Reads b c := by
  induction is generalizing d with
  | nil => exact h
  | cons i is ih => exact ih (h.note i)

theorem Reads.write (h : d.Reads b c) (f : Sheet → Sheet) : (d.write f).Reads b c :=
  ⟨h.names, h.declareUnions, h.eager, h.bound, h.place⟩

theorem Reads.goTo (h : d.Reads b c) (place : Option Place) : (d.goTo place).Reads b { c with place } :=
  ⟨h.names, h.declareUnions, h.eager, h.bound, rfl⟩

theorem noteAll_append (d : Desk) (is is' : List Import) : d.noteAll (is ++ is') = (d.noteAll is).noteAll is' :=
  List.foldl_append

theorem noted_note (d : Desk) (i j : Import) : (d.note i).Noted j ↔ d.Noted j ∨ j = i := by
  cases i <;> cases j <;> simp [note, Noted, or_comm]

/-- In the middle of a rendering: what is read, written and noted. -/
structure Holds (d : Desk) (g : Graph) (o : Options) (c : ExprContext) (s : Sheet) (is : List Import) : Prop where
  reads : d.Reads o.declareUnions c
  ordered : d.ordered = g.orderedFor o
  aliased : d.aliased = (g.claims o.declareUnions).map Option.isNone
  sheet : d.sheet = s
  noted : ∀ i, d.Noted i ↔ i ∈ is

namespace Holds

variable {u : CharacterData} {g : Graph} {o : Options} {s : Sheet} {is : List Import}

theorem note (h : d.Holds g o c s is) (i : Import) : (d.note i).Holds g o c s (is ++ [i]) := by
  refine ⟨h.reads.note i, ?_, ?_, ?_, fun j => ?_⟩
  · rw [note_eq]
    exact h.ordered
  · rw [note_eq]
    exact h.aliased
  · rw [note_eq]
    exact h.sheet
  · rw [noted_note, h.noted, List.mem_append, List.mem_singleton]

theorem noteAll (h : d.Holds g o c s is) (is' : List Import) : (d.noteAll is').Holds g o c s (is ++ is') := by
  induction is' generalizing d is with
  | nil => rwa [List.append_nil]
  | cons i is' ih =>
    rw [List.append_cons]
    exact ih (h.note i)

theorem write (h : d.Holds g o c s is) (f : Sheet → Sheet) : (d.write f).Holds g o c (f s) is :=
  ⟨h.reads.write f, h.ordered, h.aliased, congrArg f h.sheet, h.noted⟩

theorem goTo (h : d.Holds g o c s is) (place : Option Place) : (d.goTo place).Holds g o { c with place } s is :=
  ⟨h.reads.goTo place, h.ordered, h.aliased, h.sheet, h.noted⟩

theorem atPlace (h : (d.goTo none).Holds g o c s is) (p : Place) : (d.goTo (some p)).Holds g o (c.atPlace p) s is :=
  h.goTo (some p)

theorem leave {p : Option Place} (h : d.Holds g o { c with place := p } s is) (hplace : c.place = none) :
    (d.goTo none).Holds g o c s is := by
  have hc : { c with place := none } = c := by rw [← hplace]
  rw [← hc]
  exact h.goTo none

theorem setEager (h : d.Holds g o c s is) (eager : Bool) : { d with eager }.Holds g o { c with eager } s is :=
  ⟨⟨h.reads.names, h.reads.declareUnions, rfl, h.reads.bound, h.reads.place⟩, h.ordered, h.aliased, h.sheet, h.noted⟩

theorem setBound (h : d.Holds g o c s is) (id : TypeId) :
    { d with bound := id :: d.bound }.Holds g o { c with bound := id :: c.bound } s is :=
  ⟨⟨h.reads.names, h.reads.declareUnions, h.reads.eager, congrArg (id :: ·) h.reads.bound, h.reads.place⟩, h.ordered,
    h.aliased, h.sheet, h.noted⟩

theorem congr {is' : List Import} (h : d.Holds g o c s is) (his : ∀ i, i ∈ is ↔ i ∈ is') : d.Holds g o c s is' :=
  ⟨h.reads, h.ordered, h.aliased, h.sheet, fun i => (h.noted i).trans (his i)⟩

end Holds

end Desk

/-! ## Side by side with computations that change nothing -/

namespace AtDesk

variable {α α' β β' γ : Type} {d : Desk} {c : ExprContext} {b : Bool}

theorem on_bind (x : AtDesk α) (k : α → AtDesk α') :
    (x >>= k).on d =
      match x.on d with
      | (.ok a, d') => (k a).on d'
      | (.error e, d') => (.error e, d') := by
  show StateT.run (ExceptT.run (x >>= k)) d = _
  rw [ExceptT.run_bind, StateT.run_bind]
  unfold on
  rcases StateT.run (ExceptT.run x) d with ⟨_ | a, d'⟩
  · rfl
  · rfl

/-- A computation at a desk ends as one elsewhere does. If it stops, then for the same reason, and the desk is left in the
context in which the other one stopped. -/
def Follows (b : Bool) (x : AtDesk α) (d : Desk) (y : Except Stopped β) (Q : α → Desk → β → Prop) : Prop :=
  Ends y (fun stopped => ∃ d', x.on d = (.error stopped.error, d') ∧ d'.Reads b stopped.context)
    (fun r => ∃ a d', x.on d = (.ok a, d') ∧ Q a d' r)

namespace Follows

variable {x : AtDesk α} {y : Except Stopped β} {Q : α → Desk → β → Prop} {R : α' → Desk → β' → Prop}

theorem bind {k : α → AtDesk α'} {k' : β → Except Stopped β'} (h : Follows b x d y Q)
    (hk : ∀ a d' r, Q a d' r → Follows b (k a) d' (k' r) R) : Follows b (x >>= k) d (y >>= k') R := by
  cases y with
  | error stopped =>
    obtain ⟨d', hx, hreads⟩ := h
    exact ⟨d', by rw [on_bind, hx], hreads⟩
  | ok r =>
    obtain ⟨a, d', hx, hQ⟩ := h
    have hon : (x >>= k).on d = (k a).on d' := by rw [on_bind, hx]
    unfold Follows
    rw [hon]
    exact hk a d' r hQ

theorem mono {R : α → Desk → β → Prop} (h : Follows b x d y Q) (hQ : ∀ a d' r, Q a d' r → R a d' r) :
    Follows b x d y R := by
  refine Ends.mono h (fun stopped hstopped => hstopped) fun r hr => ?_
  obtain ⟨a, d', hx, hr⟩ := hr
  exact ⟨a, d', hx, hQ a d' r hr⟩

theorem map {k : α → AtDesk α'} {f : β → β'} (h : Follows b x d y Q)
    (hk : ∀ a d' r, Q a d' r → Follows b (k a) d' (.ok (f r)) R) : Follows b (x >>= k) d (y.map f) R :=
  h.bind hk

theorem map_right {R : α → Desk → β' → Prop} {f : β → β'} (h : Follows b x d y Q)
    (hQ : ∀ a d' r, Q a d' r → R a d' (f r)) : Follows b x d (y.map f) R :=
  Ends.map (h.mono hQ)

theorem of_pure {a : α} {r : β} (h : Q a d r) : Follows b (pure a) d (.ok r) Q := ⟨a, d, rfl, h⟩

theorem of_throw {e : RenderError} (h : d.Reads b c) : Follows b (throw e) d (c.tryIn (.error e)) Q := ⟨d, rfl, h⟩

/-- A change at the desk has no counterpart. -/
theorem modify_bind {f : Desk → Desk} {k : Unit → AtDesk α} (h : Follows b (k ()) (f d) y Q) :
    Follows b (modify f >>= k) d y Q := h

theorem of_modify {f : Desk → Desk} {Q : Unit → Desk → β → Prop} {r : β} (h : Q () (f d) r) :
    Follows b (modify f) d (.ok r) Q := ⟨(), f d, rfl, h⟩

theorem get_bind {k : Desk → AtDesk α} (h : Follows b (k d) d y Q) : Follows b (get >>= k) d y Q := h

theorem of_look {f : NameTable → Except NameError α} (hd : d.Reads b c) (hf : f d.names = f c.names) :
    Follows b (look f) d (c.tryIn ((f c.names).mapError .unnamed)) fun a d' r => a = r ∧ f c.names = .ok r ∧ d' = d := by
  unfold AtDesk.look
  apply get_bind
  rw [hf]
  cases f c.names with
  | error e => exact of_throw hd
  | ok a => exact of_pure ⟨rfl, rfl, rfl⟩

/-- A loop that gives a value for each step. What holds after some steps depends on the values so far. -/
theorem mapM {f : γ → AtDesk β} {k : γ → Except Stopped β} {I : List β → Desk → Prop} {l : List γ} (rs : List β)
    (h : ∀ t ∈ l, ∀ rs d, I rs d → Follows b (f t) d (k t) fun a d' r => a = r ∧ I (rs ++ [r]) d') (hd : I rs d) :
    Follows b (l.mapM f) d (l.mapM k) fun as d' rs' => as = rs' ∧ rs'.length = l.length ∧ I (rs ++ rs') d' := by
  induction l generalizing rs d with
  | nil =>
    rw [List.mapM_nil, List.mapM_nil]
    exact of_pure ⟨rfl, rfl, (List.append_nil rs).symm ▸ hd⟩
  | cons t l ih =>
    rw [List.mapM_cons, List.mapM_cons]
    refine (h t List.mem_cons_self rs d hd).bind fun a d' r ha => ?_
    refine (ih _ (fun t' ht' => h t' (List.mem_cons_of_mem t ht')) ha.2).bind fun as d'' rs' has => ?_
    refine of_pure ⟨congrArg₂ List.cons ha.1 has.1, congrArg (· + 1) has.2.1, ?_⟩
    rw [List.append_cons]
    exact has.2.2

/-- A loop without values. -/
theorem forM {f : γ → AtDesk Unit} {k : γ → Except Stopped β} {I : List β → Desk → Prop} {l : List γ} (rs : List β)
    (h : ∀ t ∈ l, ∀ rs d, I rs d → Follows b (f t) d (k t) fun _ d' r => I (rs ++ [r]) d') (hd : I rs d) :
    Follows b (l.forM f) d (l.mapM k) fun _ d' rs' => rs'.length = l.length ∧ I (rs ++ rs') d' := by
  induction l generalizing rs d with
  | nil =>
    rw [List.mapM_nil]
    exact of_pure ⟨rfl, (List.append_nil rs).symm ▸ hd⟩
  | cons t l ih =>
    rw [List.mapM_cons]
    change Follows b (f t >>= fun _ => l.forM f) d _ _
    refine (h t List.mem_cons_self rs d hd).bind fun a d' r ha => ?_
    have hrest := ih _ (fun t' ht' => h t' (List.mem_cons_of_mem t ht')) ha
    rw [← bind_pure (l.forM f)]
    refine hrest.bind fun _ d'' rs' hrs => ?_
    refine of_pure ⟨congrArg (· + 1) hrs.1, ?_⟩
    rw [List.append_cons]
    exact hrs.2

end Follows

/-! ## Expressions -/

/-- An expression was made as it is elsewhere, and its imports were noted. -/
def Takes (d : Desk) (e : TypeExpr) (d' : Desk) (r : TypeExpr) : Prop := e = r ∧ d' = d.noteAll r.imports

/-- An expression around another one that needs no import of its own. -/
theorem Follows.wrap {x : AtDesk TypeExpr} {y : Except RenderError TypeExpr} {f : TypeExpr → TypeExpr}
    (h : Follows b x d (c.tryIn y) (Takes d)) (hf : ∀ r, (f r).imports = r.imports) :
    Follows b (x >>= fun e => pure (f e)) d (c.tryIn (y.map f)) (Takes d) := by
  rw [ExprContext.tryIn_map]
  refine h.map fun e d' r he => ?_
  rw [he.1, he.2, ← hf]
  exact Follows.of_pure ⟨rfl, rfl⟩

theorem named_follows (id : TypeId) (hd : d.Reads b c) :
    Follows b (AtDesk.look (·.type id) >>= fun name => pure (TypeExpr.named name)) d
      (c.tryIn ((c.typeName id).map .named)) (Takes d) := by
  rw [ExprContext.tryIn_map]
  refine (Follows.of_look hd (hd.names.type id)).map fun name d' r hr => ?_
  rw [hr.1, hr.2.2]
  exact Follows.of_pure ⟨rfl, rfl⟩

/-- Several expressions, one after the other. -/
theorem exprs_follow {f : TypeId → AtDesk TypeExpr} {k : TypeId → Except RenderError TypeExpr} (hd : d.Reads b c)
    (h : ∀ t {d : Desk}, d.Reads b c → Follows b (f t) d (c.tryIn (k t)) (Takes d)) (ts : List TypeId) :
    Follows b (ts.mapM f) d (c.tryIn (ts.mapM k)) fun es d' rs =>
      es = rs ∧ rs.length = ts.length ∧ d' = d.noteAll (TypeExpr.importsAll rs) := by
  rw [ExprContext.tryIn_mapM]
  refine Follows.mapM (I := fun rs d' => d' = d.noteAll (TypeExpr.importsAll rs)) [] (fun t _ rs d' hd' => ?_) rfl
  rw [hd']
  refine (h t (hd.noteAll _)).mono fun e d'' r he => ⟨he.1, ?_⟩
  rw [he.2, ← Desk.noteAll_append, TypeExpr.importsAll_append, TypeExpr.importsAll, TypeExpr.importsAll, List.append_nil]

theorem expr_follows (g : Graph) (id : TypeId) (hd : d.Reads b c) :
    Follows b (expr b g id) d (c.tryIn (typeExpr c g id)) (Takes d) := by
  induction id using Nat.strongRecOn generalizing d with
  | ind id ih =>
    -- the parts of a type are made at the desk that the parts before them leave, so the desk is general here
    have hpart (t : TypeId) {d : Desk} (hd : d.Reads b c) :
        Follows b (if t < id then expr b g t else throw (.unknownType t)) d
          (c.tryIn (if t < id then typeExpr c g t else .error (.unknownType t))) (Takes d) := by
      by_cases ht : t < id
      · rw [if_pos ht, if_pos ht]
        exact ih t ht hd
      · rw [if_neg ht, if_neg ht]
        exact Follows.of_throw hd
    rw [expr, typeExpr]
    cases hn : g.node? id with
    | none => exact Follows.of_throw hd
    | some n =>
      cases n with
      | primitive p =>
        cases hp : Builtin.ofPrimitive? p with
        | none =>
          simp only [hp]
          apply Follows.get_bind
          rw [hd.place]
          exact Follows.of_throw hd
        | some u =>
          simp only [hp]
          exact Follows.modify_bind (Follows.of_pure ⟨rfl, rfl⟩)
      | array items => exact (hpart items hd).wrap fun r => rfl
      | map values => exact (hpart values hd).wrap fun r => rfl
      | record hint ps => exact named_follows id hd
      | enum hint cs => exact named_follows id hd
      | union hint ms =>
        cases hnull : g.nullableInner? id with
        | some inner =>
          simp only [ExprContext.tryIn_map]
          apply Follows.modify_bind
          refine (hpart inner (hd.note .optional)).map fun e d' r he => ?_
          rw [he.1, he.2]
          exact Follows.of_pure ⟨rfl, rfl⟩
        | none =>
          simp only
          cases b with
          | true =>
            rw [if_pos rfl, if_pos hd.declareUnions, ExprContext.tryIn_map]
            refine (Follows.of_look hd (hd.names.type id)).map fun name d' r hr => ?_
            apply Follows.get_bind
            rw [hr.1, hr.2.2, hd.eager, hd.bound]
            split
            · exact Follows.of_pure ⟨rfl, rfl⟩
            · exact Follows.of_pure ⟨rfl, rfl⟩
          | false =>
            rw [if_neg Bool.false_ne_true, if_neg (ne_true_of_eq_false hd.declareUnions), ExprContext.tryIn_map]
            refine (exprs_follow hd hpart ms).map fun es d' rs hes => ?_
            rw [hes.1, hes.2.2]
            exact Follows.of_pure ⟨rfl, rfl⟩

/-! ## Declarations -/

variable {u : CharacterData} {g : Graph} {o : Options} {s : Sheet} {is : List Import} {t : TypeId}

theorem property_follows (h : d.Holds g o c s is) (p : Property) :
    Follows o.declareUnions (property o.declareUnions g p) d (c.tryIn (propertyExpr c g p)) fun e d' r =>
      e = r ∧ d'.Holds g o c s (is ++ r.imports) := by
  unfold property propertyExpr
  rw [ExprContext.tryIn_map]
  refine (expr_follows g p.type h.reads).map fun e d' r he => ?_
  rw [he.1, he.2]
  split
  · refine Follows.modify_bind (Follows.of_pure ⟨rfl, ?_⟩)
    refine ((h.noteAll r.imports).note .optional).congr fun i => ?_
    simp only [TypeExpr.imports, List.mem_append, List.mem_cons, List.not_mem_nil, or_false]
    tauto
  · exact Follows.of_pure ⟨rfl, h.noteAll r.imports⟩

theorem properties_follow (name : Bytes) (ps : List Property) (h : (d.goTo none).Holds g o c s is)
    (hplace : c.place = none) :
    Follows o.declareUnions
      (ps.mapM fun p => do
        modify (·.goTo (some (.property p.name name)))
        property o.declareUnions g p) d
      (ps.mapM fun p =>
        let c := c.atPlace (.property p.name name)
        c.tryIn (propertyExpr c g p))
      fun es d' rs =>
        es = rs ∧ rs.length = ps.length ∧ (d'.goTo none).Holds g o c s (is ++ rs.flatMap TypeExpr.imports) := by
  refine Follows.mapM (I := fun rs d' => (d'.goTo none).Holds g o c s (is ++ rs.flatMap TypeExpr.imports)) []
    (fun p _ rs d' hd' => ?_) (by simpa using h)
  apply Follows.modify_bind
  refine (property_follows (hd'.atPlace _) p).mono fun e d'' r he => ⟨he.1, ?_⟩
  rw [List.flatMap_append, List.flatMap_singleton, ← List.append_assoc]
  exact he.2.leave hplace

theorem record_follows {ps : List Property} (h : d.Holds g o c s is) (hplace : c.place = none)
    (hlen : ∀ names, c.names.propertiesOf t = .ok names → names.length = ps.length) :
    Follows o.declareUnions (record o.declareUnions g t ps) d (recordBlock c g t ps) fun _ d' r =>
      d'.Holds g o c (Block.write s r) (is ++ r.imports) := by
  unfold record recordBlock
  refine (Follows.of_look h.reads (h.reads.names.type t)).bind fun _ _ name hname => ?_
  rw [hname.1, hname.2.2]
  refine (Follows.of_look h.reads (h.reads.names.propertiesOf t)).bind fun _ _ names hnames => ?_
  rw [hnames.1, hnames.2.2]
  have hnames := hlen names hnames.2.1
  apply Follows.modify_bind
  -- the head of the class is on the sheet now, also if one of its properties stops the rendering
  have h := h.write fun s => (s.line (Bytes.ascii "class " ++ name ++ Bytes.ascii ":")).indent
  by_cases hps : ps = []
  · subst hps
    rw [List.length_eq_zero_iff.mp hnames]
    rw [List.mapM_nil]
    apply Follows.of_modify
    refine (h.write fun s => (s.line (Bytes.ascii "pass")).dedent).congr fun i => ?_
    simp [Block.imports]
  · rw [if_neg (by rwa [List.isEmpty_iff])]
    refine (properties_follow name ps (h.leave hplace) hplace).bind fun es d' types htypes => ?_
    obtain ⟨hes, htypes, h'⟩ := htypes
    obtain ⟨hname, htype⟩ := map_zipWith_field (hnames.trans htypes.symm)
    have hne : List.zipWith Field.mk names types ≠ [] := by
      intro hnil
      rw [hnil] at hname
      exact hps (List.length_eq_zero_iff.mp (hnames ▸ hname ▸ rfl))
    rw [hes]
    apply Follows.modify_bind
    apply Follows.modify_bind
    apply Follows.of_modify
    rw [Block.write_record _ _ hne, hname, Block.imports, ← List.flatMap_map Field.type TypeExpr.imports, htype]
    exact (h'.write _).write _

theorem enum_follows {cs : List Bytes} (h : d.Holds g o c s is)
    (hlen : ∀ names, c.names.casesOf t = .ok names → names.length = cs.length) :
    Follows o.declareUnions (enum t cs) d (enumBlock c t) fun _ d' r =>
      d'.Holds g o c (Block.write s r) (is ++ r.imports) := by
  unfold enum enumBlock
  apply Follows.modify_bind
  have h := h.note .enum
  refine (Follows.of_look h.reads (h.reads.names.type t)).bind fun _ _ name hname => ?_
  rw [hname.1, hname.2.2]
  apply Follows.modify_bind
  apply Follows.modify_bind
  have h := (h.write fun s => (s.line (Bytes.ascii "class " ++ name ++ Bytes.ascii "(Enum):")).indent).write fun s =>
    if cs.isEmpty then s.line (Bytes.ascii "pass") else s
  refine (Follows.of_look h.reads (h.reads.names.casesOf t)).bind fun _ _ names hnames => ?_
  rw [hnames.1, hnames.2.2]
  have hempty : cs.isEmpty = names.isEmpty := by
    rw [Bool.eq_iff_iff, List.isEmpty_iff_length_eq_zero, List.isEmpty_iff_length_eq_zero, hlen names hnames.2.1]
  rw [hempty] at h ⊢
  apply Follows.of_modify
  exact h.write _

theorem block_follows (h : d.Holds g o c s is) (hplace : c.place = none) (hc : c.names = .ofGraph u o g)
    (ht : t ∈ g.declared o.declareUnions) :
    Follows o.declareUnions (block o.declareUnions g t) d (block? c g t) fun _ d' r =>
      d'.Holds g o c (r.elim s (Block.write (s.gap 2))) (is ++ r.elim [] Block.imports) := by
  have hnone : d.Holds g o c s (is ++ []) := by rwa [List.append_nil]
  unfold block block?
  cases hn : g.node? t with
  | none => exact Follows.of_pure hnone
  | some n =>
    cases n with
    | record hint ps =>
      apply Follows.modify_bind
      refine (record_follows (h.write (·.gap 2)) hplace fun names hnames => ?_).map_right fun _ d' r hr => hr
      rw [hc, NameTable.propertiesOf_record ht hn] at hnames
      rw [← Except.ok.inj hnames, length_propertyNames]
    | enum hint cs =>
      apply Follows.modify_bind
      refine (enum_follows (h.write (·.gap 2)) fun names hnames => ?_).map_right fun _ d' r hr => hr
      rw [hc, NameTable.casesOf_enum ht hn] at hnames
      rw [← Except.ok.inj hnames, length_caseNames]
    | primitive p => exact Follows.of_pure hnone
    | array items => exact Follows.of_pure hnone
    | map values => exact Follows.of_pure hnone
    | union hint ms => exact Follows.of_pure hnone

theorem blocks_follow {ids : List TypeId} (h : d.Holds g o c s is) (hplace : c.place = none)
    (hc : c.names = .ofGraph u o g) (hids : ∀ id ∈ ids, id ∈ g.declared o.declareUnions) :
    Follows o.declareUnions (ids.forM (block o.declareUnions g)) d (ids.mapM (block? c g)) fun _ d' rs =>
      rs.length = ids.length ∧ d'.Holds g o c ((rs.filterMap id).foldl (fun s r => Block.write (s.gap 2) r) s)
        (is ++ (rs.filterMap id).flatMap Block.imports) := by
  refine Follows.forM (I := fun rs d' => d'.Holds g o c ((rs.filterMap id).foldl (fun s r => Block.write (s.gap 2) r) s)
    (is ++ (rs.filterMap id).flatMap Block.imports)) [] (fun t ht rs d' hd' => ?_) (by simpa using h)
  refine (block_follows hd' hplace hc (hids t ht)).mono fun _ d'' r hr => ?_
  cases r with
  | none => simpa using hr
  | some r => simpa using hr

/-! ## Unions and aliases -/

theorem members_follow (ms : List TypeId) (h : d.Holds g o c s is) :
    Follows o.declareUnions
      (ms.forM fun m => do
        let e ← expr o.declareUnions g m
        modify (·.write (·.line (e.text ++ Bytes.ascii ",")))) d
      (ms.mapM fun m => c.tryIn (typeExpr c g m))
      fun _ d' rs => rs.length = ms.length ∧ d'.Holds g o c (s.writeLines (rs.map fun e => e.text ++ Bytes.ascii ","))
        (is ++ TypeExpr.importsAll rs) := by
  refine Follows.forM (I := fun rs d' => d'.Holds g o c (s.writeLines (rs.map fun e => e.text ++ Bytes.ascii ","))
    (is ++ TypeExpr.importsAll rs)) [] (fun m _ rs d' hd' => ?_) (by simpa [TypeExpr.importsAll, Sheet.writeLines] using h)
  rw [← bind_pure (c.tryIn _)]
  refine (expr_follows g m hd'.reads).bind fun e d'' r he => ?_
  rw [he.1, he.2]
  apply Follows.of_modify
  have h := (hd'.noteAll r.imports).write (·.line (r.text ++ Bytes.ascii ","))
  simpa [TypeExpr.importsAll_append, TypeExpr.importsAll, Sheet.writeLines] using h

theorem union_follows (h : d.Holds g o c s is) (hplace : c.place = none) :
    Follows o.declareUnions (union o.declareUnions g t) d (unionBlock c g t) fun _ d' r =>
      d'.Holds g o { c with bound := t :: c.bound } (UnionBlock.write (s.gap 2) r) (is ++ r.imports) := by
  unfold union unionBlock
  apply Follows.modify_bind
  apply Follows.modify_bind
  have h := (h.write (·.gap 2)).note .union
  refine (Follows.of_look h.reads (h.reads.names.type t)).bind fun _ _ name hname => ?_
  rw [hname.1, hname.2.2]
  apply Follows.modify_bind
  apply Follows.modify_bind
  refine (members_follow (g.children t) ((h.goTo (some (.union name))).write _)).bind fun _ d' ms hms => ?_
  apply Follows.modify_bind
  apply Follows.modify_bind
  apply Follows.of_modify
  rw [UnionBlock.imports, List.append_cons]
  exact ((hms.2.write _).leave hplace).setBound t

theorem unions_follow (ids : List TypeId) (h : d.Holds g o c s is) (hplace : c.place = none) :
    Follows o.declareUnions (ids.forM (union o.declareUnions g)) d (unionBlocks g c ids) fun _ d' r =>
      r.2.place = none ∧ d'.Holds g o r.2 (r.1.foldl (fun s u => UnionBlock.write (s.gap 2) u) s)
        (is ++ r.1.flatMap UnionBlock.imports) := by
  induction ids generalizing d c s is with
  | nil => exact Follows.of_pure ⟨hplace, by simpa using h⟩
  | cons t ids ih =>
    unfold unionBlocks
    change Follows o.declareUnions (union o.declareUnions g t >>= fun _ => ids.forM (union o.declareUnions g)) d _ _
    refine (union_follows h hplace).bind fun _ d' u hu => ?_
    rw [← bind_pure (ids.forM _)]
    refine (ih hu hplace).bind fun _ d'' r hr => Follows.of_pure ⟨hr.1, ?_⟩
    simpa using hr.2

theorem topAlias_follows (top : TopLevel × Nat) (h : (d.goTo none).Holds g o c s is) (hplace : c.place = none) :
    Follows o.declareUnions (topAlias o.declareUnions g top) d (aliasFor c g top.1 top.2) fun _ d' r =>
      (d'.goTo none).Holds g o c (s.line r.text) (is ++ r.type.imports) := by
  unfold topAlias aliasFor
  apply Follows.modify_bind
  have h := h.atPlace (.topLevel top.1.name)
  refine (Follows.of_look h.reads (h.reads.names.topLevel top.2)).bind fun _ _ name hname => ?_
  rw [hname.1, hname.2.2]
  refine (expr_follows g top.1.type h.reads).bind fun e d' r he => ?_
  rw [he.1, he.2]
  apply Follows.of_modify
  exact ((h.noteAll r.imports).write _).leave hplace

theorem topAliases_follow (tops : List (TopLevel × Nat)) (h : (d.goTo none).Holds g o c s is) (hplace : c.place = none) :
    Follows o.declareUnions (tops.forM (topAlias o.declareUnions g)) d
      (tops.mapM fun top => aliasFor c g top.1 top.2) fun _ d' rs =>
      rs.length = tops.length ∧
        (d'.goTo none).Holds g o c (s.writeLines (rs.map Alias.text)) (is ++ rs.flatMap fun r => r.type.imports) := by
  refine Follows.forM (I := fun rs d' => (d'.goTo none).Holds g o c (s.writeLines (rs.map Alias.text))
    (is ++ rs.flatMap fun r => r.type.imports)) [] (fun top _ rs d' hd' => ?_) (by simpa [Sheet.writeLines] using h)
  refine (topAlias_follows top hd' hplace).mono fun _ d'' r hr => ?_
  simpa [Sheet.writeLines] using hr

theorem aliases_follow (h : d.Holds g o c s is) (hplace : c.place = none) :
    Follows o.declareUnions (aliases o.declareUnions g) d
      ((g.aliasTops o.declareUnions).mapM fun top => aliasFor c g top.1 top.2) fun _ d' rs =>
      d'.Holds g o c (if rs.isEmpty then s else (s.gap 2).writeLines (rs.map Alias.text))
        (is ++ rs.flatMap fun r => r.type.imports) := by
  unfold aliases
  apply Follows.get_bind
  rw [h.aliased, Graph.aliasTops_eq]
  apply Follows.modify_bind
  rw [← bind_pure (List.mapM _ _)]
  refine (topAliases_follow _ ((h.write _).leave hplace) hplace).bind fun _ d' rs hrs => ?_
  have hempty : (g.aliasTops o.declareUnions).isEmpty = rs.isEmpty := by
    rw [Bool.eq_iff_iff, List.isEmpty_iff_length_eq_zero, List.isEmpty_iff_length_eq_zero, hrs.1]
  apply Follows.of_modify
  have hd' := hrs.2
  rw [hempty] at hd'
  cases rs with
  | nil => exact hd'
  | cons r rs => exact hd'

/-! ## Renderings -/

/-- What is noted at the end is what the module imports. -/
theorem header_eq {m : Module} (h : d.Holds g o c s m.imports) (hcomments : m.comments = o.comments)
    (hpostponed : m.postponed = needsPostponed g (g.orderedFor o) o.declareUnions) : d.header o g = m.header := by
  have hdatetime : ∀ i ∈ [Import.date, .datetime, .time], i ∈ d.datetime ↔ i ∈ m.imports :=
    List.forall_mem_cons.mpr ⟨h.noted .date, List.forall_mem_cons.mpr ⟨h.noted .datetime,
      List.forall_mem_singleton.mpr (h.noted .time)⟩⟩
  have htyping : ∀ i ∈ [Import.any, .optional, .union], i ∈ d.typing ↔ i ∈ m.imports :=
    List.forall_mem_cons.mpr ⟨h.noted .any, List.forall_mem_cons.mpr ⟨h.noted .optional,
      List.forall_mem_singleton.mpr (h.noted .union)⟩⟩
  have henum : ∀ i ∈ [Import.enum], i ∈ (if d.usesEnum then [Import.enum] else []) ↔ i ∈ m.imports := by
    rw [List.forall_mem_singleton, ← h.noted .enum, Desk.Noted]
    cases d.usesEnum <;> simp
  rw [Desk.header, Module.header, Module.importLines, h.ordered, hcomments, hpostponed,
    Module.importLine_congr "datetime" hdatetime, Module.importLine_congr "enum" henum,
    Module.importLine_congr "typing" htyping]
  rfl

theorem holds_clear (hnames : d.names.Agrees (.ofGraph u o g)) (hordered : d.ordered = g.orderedFor o)
    (haliased : d.aliased = (g.claims o.declareUnions).map Option.isNone) (hsheet : d.sheet = s) :
    d.clear.Holds g o (g.context u o false []) s [] := by
  refine ⟨⟨hnames, rfl, rfl, rfl, rfl⟩, hordered, haliased, hsheet, fun i => ?_⟩
  cases i <;> simp [Desk.Noted, Desk.clear]

theorem writeModule_follows (hg : g.WellFormed) (h : d.clear.Holds g o (g.context u o false []) (.blank fourSpaces) []) :
    Follows o.declareUnions (writeModule o g) d (g.module u o) fun _ d' r =>
      d'.Reads o.declareUnions r.2 ∧ d'.sheet = r.1.body.putFirst r.1.headerLines := by
  unfold writeModule Graph.module
  apply Follows.modify_bind
  apply Follows.get_bind
  rw [h.ordered]
  refine (blocks_follow h rfl rfl fun t ht => hg.mem_order_iff.mp ht).bind fun _ d₁ rs h₁ => ?_
  apply Follows.modify_bind
  refine (unions_follow _ (h₁.2.setEager true) rfl).bind fun _ d₂ us h₂ => ?_
  obtain ⟨us, c₂⟩ := us
  refine (aliases_follow h₂.2 h₂.1).bind fun _ d₃ as h₃ => ?_
  apply Follows.modify_bind
  apply Follows.get_bind
  apply Follows.of_modify
  let m : Module := ⟨o.comments, needsPostponed g (g.orderedFor o) o.declareUnions, rs.filterMap id, us, as⟩
  have h₄ : Desk.Holds { d₃ with eager := false } g o { c₂ with eager := false } m.body m.imports := h₃.setEager false
  refine ⟨h₄.reads.write _, ?_⟩
  change Sheet.putFirst _ _ = m.body.putFirst m.headerLines
  rw [header_eq h₄ rfl rfl, h₄.sheet]
  rfl

/-- **Whatever a desk holds, a rendering at it ends as any other one does**, and is left in the same context. -/
theorem render_follows (hg : g.WellFormed) (d : Desk) :
    Follows o.declareUnions (render u o g) d (g.module u o) fun lines d' r =>
      lines = r.1.lines ∧ d'.Reads o.declareUnions r.2 := by
  unfold render
  apply Follows.modify_bind
  apply Follows.modify_bind
  apply Follows.modify_bind
  apply Follows.modify_bind
  -- the names, the order, the aliases and the sheet are new by now; the rest is cleared before it is read
  rw [← bind_pure (g.module u o)]
  refine (writeModule_follows hg (holds_clear (NameTable.fill_agrees hg) rfl rfl rfl)).bind fun _ d' r hr => ?_
  apply Follows.get_bind
  apply Follows.modify_bind
  refine Follows.of_pure ⟨?_, hr.1.write _⟩
  rw [hr.2]
  rfl

theorem on_render (hg : g.WellFormed) (u : CharacterData) (r : Renderer) (d : Desk) :
    ((render u r.options g).on d).1 = (r.render u g).1.result ∧
      ((render u r.options g).on d).2.Reads r.options.declareUnions (r.render u g).2.context := by
  have h := render_follows (u := u) (o := r.options) hg d
  unfold Renderer.render
  cases hm : g.module u r.options with
  | error stopped =>
    obtain ⟨d', hon, hreads⟩ := Ends.of_error h hm
    rw [hon]
    exact ⟨rfl, hreads⟩
  | ok m =>
    obtain ⟨lines, d', hon, hlines, hreads⟩ := Ends.of_ok h hm
    rw [hon, hlines]
    exact ⟨rfl, hreads⟩

theorem on_source {r : Renderer} (h : d.Reads r.options.declareUnions r.context) (id : TypeId) :
    ((source r.options g id).on d).1 = r.source g id ∧
      ((source r.options g id).on d).2.Reads r.options.declareUnions r.context := by
  have hsource : Follows r.options.declareUnions (source r.options g id) d (r.context.tryIn (r.source g id))
      fun text d' e => text = e ∧ d'.Reads r.options.declareUnions r.context := by
    unfold source Renderer.source
    rw [ExprContext.tryIn_map]
    refine (expr_follows g id h).map fun e d' e' he => ?_
    rw [he.1, he.2]
    exact Follows.of_pure ⟨rfl, h.noteAll _⟩
  cases hr : r.source g id with
  | error e =>
    rw [hr] at hsource
    obtain ⟨d', hon, hreads⟩ := hsource
    rw [hon]
    exact ⟨rfl, hreads⟩
  | ok text =>
    rw [hr] at hsource
    obtain ⟨_, d', hon, htext, hreads⟩ := hsource
    rw [hon, htext]
    exact ⟨rfl, hreads⟩

end AtDesk

/-! ## Sessions -/

theorem Renderer.options_render (u : CharacterData) (r : Renderer) (g : Graph) :
    (r.render u g).2.options = r.options := by
  unfold Renderer.render
  split
  · rfl
  · rfl

/-- What can happen between two renderings. -/
inductive Use where
  | graph (c : Call)
  | render
  | source (id : TypeId)

/-- A graph, a renderer, and the desk of a renderer that works in place. -/
structure Session where
  graph : Graph
  renderer : Renderer
  desk : Desk

namespace Session

def start (o : Options) : Session := ⟨.empty, .new o, .new⟩

/-- A session goes on, whether what is done succeeds or not. -/
def after (u : CharacterData) (s : Session) : Use → Session
  | .graph c => { s with graph := s.graph.after c }
  | .render =>
    { s with
      renderer := (s.renderer.render u s.graph).2
      desk := ((AtDesk.render u s.renderer.options s.graph).on s.desk).2 }
  | .source id => { s with desk := ((AtDesk.source s.renderer.options s.graph id).on s.desk).2 }

/-- What is kept in a session with some options. -/
structure Kept (s : Session) (o : Options) : Prop where
  wellFormed : s.graph.WellFormed
  options : s.renderer.options = o
  reads : s.desk.Reads o.declareUnions s.renderer.context

variable {u : CharacterData} {s : Session} {o : Options}

theorem kept_start (o : Options) : (start o).Kept o :=
  ⟨Graph.wellFormed_empty, rfl, ⟨fun _ => rfl, fun _ => rfl, fun _ => rfl, fun _ => rfl⟩, rfl, rfl, rfl, rfl⟩

theorem Kept.after (h : s.Kept o) (use : Use) : (s.after u use).Kept o := by
  obtain ⟨hg, rfl, hreads⟩ := h
  cases use with
  | graph c => exact ⟨hg.after c, rfl, hreads⟩
  | render => exact ⟨hg, Renderer.options_render u s.renderer s.graph, (AtDesk.on_render hg u s.renderer s.desk).2⟩
  | source id => exact ⟨hg, rfl, (AtDesk.on_source hreads id).2⟩

theorem kept_foldl (h : s.Kept o) (uses : List Use) : (uses.foldl (Session.after u) s).Kept o := by
  induction uses generalizing s with
  | nil => exact h
  | cons use uses ih => exact ih (h.after use)

/-- **The next rendering does not depend on what was done before.** At a desk that any uses have left behind it gives
the lines, or stops with the error, of a rendering at a new desk. The renderer that keeps no more than a context answers
the same, as a new one does; and the expressions that the two give between renderings are the same as well. -/
theorem render_independent_of_history (u : CharacterData) (o : Options) (uses : List Use) :
    let s := uses.foldl (Session.after u) (start o)
    ((AtDesk.render u o s.graph).on s.desk).1 = ((AtDesk.render u o s.graph).on .new).1 ∧
      ((AtDesk.render u o s.graph).on s.desk).1 = (s.renderer.render u s.graph).1.result ∧
      (s.renderer.render u s.graph).1.result = (s.graph.render u o).result ∧
      ∀ id, ((AtDesk.source o s.graph id).on s.desk).1 = s.renderer.source s.graph id := by
  intro s
  obtain ⟨hg, hoptions, hreads⟩ : s.Kept o := kept_foldl (kept_start o) uses
  have hdesk := (AtDesk.on_render hg u s.renderer s.desk).1
  have hnew := (AtDesk.on_render hg u (.new o) .new).1
  have hrenderer := (AtDesk.on_render hg u s.renderer .new).1
  have hsource id := (AtDesk.on_source (g := s.graph) (hoptions.symm ▸ hreads) id).1
  rw [hoptions] at hdesk hrenderer
  exact ⟨hdesk.trans hrenderer.symm, hdesk, hrenderer.symm.trans hnew, hoptions ▸ hsource⟩

end Session

end Typewright
