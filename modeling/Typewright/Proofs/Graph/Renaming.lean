import Typewright.Proofs.Graph.Order

/-!
# Walks over renamed types

* `Carries f S …` : on the numbers in `S`, `f` carries one list of successors over to another;
* `Carries.preorder`, `Carries.postorder` : then it carries the walks over, step by step;
* `Node.rename`, `Graph.Renames f g g'` : `f` renames what can be reached in `g` into what can be reached in `g'`;
* `Graph.Renames.declared`, `Graph.Renames.dependencies`, `Graph.Renames.order` : the declarations, what they depend
  on and their order are renamed with the types.
-/

namespace Typewright

open Relation

/-! ## Walks -/

/-- On the numbers in `S`, which are below both bounds, `f` is injective and turns the successors along `next` into
those along `next'`. -/
structure Carries (f : Nat → Nat) (S : Nat → Prop) (next : Nat → List Nat) (bound : Nat) (next' : Nat → List Nat)
    (bound' : Nat) : Prop where
  inj : ∀ a b, S a → S b → f a = f b → a = b
  lt : ∀ a, S a → a < bound
  lt' : ∀ a, S a → f a < bound'
  closed : ∀ a, S a → ∀ b ∈ next a, S b
  next_eq : ∀ a, S a → next' (f a) = (next a).map f

theorem mem_map_iff_of_inj {f : Nat → Nat} {S : Nat → Prop} (hinj : ∀ a b, S a → S b → f a = f b → a = b)
    {l : List Nat} (hl : ∀ b ∈ l, S b) {a : Nat} (ha : S a) : f a ∈ l.map f ↔ a ∈ l := by
  constructor
  · intro h
    obtain ⟨b, hb, hba⟩ := List.mem_map.mp h
    rwa [← hinj b a (hl b hb) ha hba]
  · exact List.mem_map_of_mem

def Frame.rename (f : Nat → Nat) (frame : Frame) : Frame := ⟨f frame.id, frame.pending.map f⟩

def Frame.Within (S : Nat → Prop) (frame : Frame) : Prop := S frame.id ∧ ∀ a ∈ frame.pending, S a

theorem Frame.Within.look {S : Nat → Prop} {id d : Nat} {pending : List Nat} {stack : List Frame}
    (h : ∀ frame ∈ ⟨id, d :: pending⟩ :: stack, frame.Within S) : ∀ frame ∈ ⟨id, pending⟩ :: stack, frame.Within S := by
  obtain ⟨hid, hpending⟩ := h _ List.mem_cons_self
  rintro frame (_ | ⟨_, hframe⟩)
  · exact ⟨hid, fun a ha => hpending a (List.mem_cons_of_mem d ha)⟩
  · exact h frame (List.mem_cons_of_mem _ hframe)

namespace Carries

variable {f : Nat → Nat} {S : Nat → Prop} {next next' : Nat → List Nat} {bound bound' : Nat}

/-- The pre-order walk over renamed numbers enters the renamed numbers. -/
theorem preorder (h : Carries f S next bound next' bound') (seen stack : List Nat) (hseen : ∀ a ∈ seen, S a)
    (hstack : ∀ a ∈ stack, S a) :
    preorder next' bound' (seen.map f) (stack.map f) = (preorder next bound seen stack).map f := by
  induction seen, stack using preorder.induct next bound with
  | case1 seen => simp [Typewright.preorder]
  | case2 seen id rest hskip ih =>
    have hid : S id := hstack id List.mem_cons_self
    have hmem : id ∈ seen := hskip.resolve_right (Nat.not_le.mpr (h.lt id hid))
    rw [Typewright.preorder, if_pos hskip, List.map_cons, Typewright.preorder,
      if_pos (Or.inl (List.mem_map_of_mem hmem))]
    exact ih hseen fun a ha => hstack a (List.mem_cons_of_mem id ha)
  | case3 seen id rest hskip ih =>
    have hid : S id := hstack id List.mem_cons_self
    have hnot : ¬ (f id ∈ seen.map f ∨ bound' ≤ f id) := by
      rw [mem_map_iff_of_inj h.inj hseen hid]
      rintro (hmem | hle)
      · exact hskip (Or.inl hmem)
      · exact absurd (h.lt' id hid) (Nat.not_lt.mpr hle)
    have hseen' : ∀ a ∈ id :: seen, S a := by
      rintro a (_ | ⟨_, ha⟩)
      · exact hid
      · exact hseen a ha
    have hstack' : ∀ a ∈ next id ++ rest, S a := by
      intro a ha
      rcases List.mem_append.mp ha with ha | ha
      · exact h.closed id hid a ha
      · exact hstack a (List.mem_cons_of_mem id ha)
    have hrest := ih hseen' hstack'
    rw [List.map_cons, List.map_append] at hrest
    rw [Typewright.preorder, if_neg hskip, List.map_cons, Typewright.preorder, if_neg hnot, h.next_eq id hid, hrest,
      List.map_cons]

theorem done_iff (h : Carries f S next bound next' bound') {done : List Nat} (hdone : ∀ a ∈ done, S a) {a : Nat}
    (ha : S a) : (f a ∈ done.map f ∨ bound' ≤ f a) ↔ (a ∈ done ∨ bound ≤ a) := by
  have hlt := h.lt a ha
  have hlt' := h.lt' a ha
  rw [mem_map_iff_of_inj h.inj hdone ha]
  constructor
  · exact Or.imp_right fun hle => absurd hlt' (Nat.not_lt.mpr hle)
  · exact Or.imp_right fun hle => absurd hlt (Nat.not_lt.mpr hle)

theorem back_iff (h : Carries f S next bound next' bound') {id d : Nat} {stack : List Frame} (hid : S id) (hd : S d)
    (hstack : ∀ frame ∈ stack, frame.Within S) :
    (f d = f id ∨ f d ∈ (stack.map (Frame.rename f)).map Frame.id) ↔ (d = id ∨ d ∈ stack.map Frame.id) := by
  have hids : ∀ a ∈ stack.map Frame.id, S a := by
    intro a ha
    obtain ⟨frame, hframe, rfl⟩ := List.mem_map.mp ha
    exact (hstack frame hframe).1
  have hmap : (stack.map (Frame.rename f)).map Frame.id = (stack.map Frame.id).map f := by
    rw [List.map_map, List.map_map]
    rfl
  rw [hmap, mem_map_iff_of_inj h.inj hids hd]
  constructor
  · exact Or.imp_left (h.inj d id hd hid)
  · exact Or.imp_left (congrArg f)

/-- The post-order walk over renamed numbers finishes the renamed numbers, and notes the renamed edges. -/
theorem postorder (h : Carries f S next bound next' bound') (roots : List Nat) (stack : List Frame) (done : List Nat)
    (back : List (Nat × Nat)) (hroots : ∀ a ∈ roots, S a) (hstack : ∀ frame ∈ stack, frame.Within S)
    (hdone : ∀ a ∈ done, S a) :
    postorder next' bound' (roots.map f) (stack.map (Frame.rename f)) (done.map f) (back.map (Prod.map f f)) =
      ⟨(postorder next bound roots stack done back).order.map f,
        (postorder next bound roots stack done back).backEdges.map (Prod.map f f)⟩ := by
  induction roots, stack, done, back using postorder.induct next bound with
  | case1 done back => simp [Typewright.postorder]
  | case2 done back r roots hskip ih =>
    have hr : S r := hroots r List.mem_cons_self
    rw [Typewright.postorder, if_pos hskip]
    rw [List.map_nil, List.map_cons, Typewright.postorder, if_pos ((h.done_iff hdone hr).mpr hskip)]
    exact ih (fun a ha => hroots a (List.mem_cons_of_mem r ha)) hstack hdone
  | case3 done back r roots hskip ih =>
    have hr : S r := hroots r List.mem_cons_self
    have hstack' : ∀ frame ∈ [(⟨r, next r⟩ : Frame)], frame.Within S := by
      intro frame hframe
      rw [List.mem_singleton.mp hframe]
      exact ⟨hr, h.closed r hr⟩
    have hrest := ih (fun a ha => hroots a (List.mem_cons_of_mem r ha)) hstack' hdone
    rw [Typewright.postorder, if_neg hskip]
    rw [List.map_nil, List.map_cons, Typewright.postorder, if_neg (mt (h.done_iff hdone hr).mp hskip), h.next_eq r hr]
    exact hrest
  | case4 roots done back id stack ih =>
    have hdone' : ∀ a ∈ id :: done, S a := by
      rintro a (_ | ⟨_, ha⟩)
      · exact (hstack _ List.mem_cons_self).1
      · exact hdone a ha
    rw [Typewright.postorder]
    rw [List.map_cons, Frame.rename, List.map_nil, Typewright.postorder]
    exact ih hroots (fun frame hframe => hstack frame (List.mem_cons_of_mem _ hframe)) hdone'
  | case5 roots done back id d pending stack hback ih =>
    obtain ⟨hid, hpending⟩ := hstack _ List.mem_cons_self
    have hback' := (h.back_iff hid (hpending d List.mem_cons_self)
      fun frame hframe => hstack frame (List.mem_cons_of_mem _ hframe)).mpr hback
    rw [Typewright.postorder, if_pos hback]
    rw [List.map_cons, Frame.rename, List.map_cons, Typewright.postorder, if_pos hback']
    exact ih hroots (Frame.Within.look hstack) hdone
  | case6 roots done back id d pending stack hback hskip ih =>
    obtain ⟨hid, hpending⟩ := hstack _ List.mem_cons_self
    have hd : S d := hpending d List.mem_cons_self
    have hback' := mt (h.back_iff hid hd fun frame hframe => hstack frame (List.mem_cons_of_mem _ hframe)).mp hback
    rw [Typewright.postorder, if_neg hback, if_pos hskip]
    rw [List.map_cons, Frame.rename, List.map_cons, Typewright.postorder, if_neg hback',
      if_pos ((h.done_iff hdone hd).mpr hskip)]
    exact ih hroots (Frame.Within.look hstack) hdone
  | case7 roots done back id d pending stack hback hskip ih =>
    obtain ⟨hid, hpending⟩ := hstack _ List.mem_cons_self
    have hd : S d := hpending d List.mem_cons_self
    have hback' := mt (h.back_iff hid hd fun frame hframe => hstack frame (List.mem_cons_of_mem _ hframe)).mp hback
    have hstack' : ∀ frame ∈ (⟨d, next d⟩ : Frame) :: ⟨id, pending⟩ :: stack, frame.Within S := by
      rintro frame (_ | ⟨_, hframe⟩)
      · exact ⟨hd, h.closed d hd⟩
      · exact Frame.Within.look hstack frame hframe
    have hrest := ih hroots hstack' hdone
    rw [Typewright.postorder, if_neg hback, if_neg hskip]
    rw [List.map_cons, Frame.rename, List.map_cons, Typewright.postorder, if_neg hback',
      if_neg (mt (h.done_iff hdone hd).mp hskip), h.next_eq d hd]
    exact hrest

end Carries

/-! ## Graphs -/

def Node.rename (f : TypeId → TypeId) : Node → Node
  | .primitive p => .primitive p
  | .array items => .array (f items)
  | .map values => .map (f values)
  | .record hint properties => .record hint (properties.map fun p => { p with type := f p.type })
  | .enum hint cases => .enum hint cases
  | .union hint members => .union hint (members.map f)

namespace Node

variable (f : TypeId → TypeId) (n : Node)

theorem children_rename : (n.rename f).children = n.children.map f := by
  cases n <;> simp [rename, children]

theorem hint_rename : (n.rename f).hint = n.hint := by
  cases n <;> rfl

theorem isRecord_rename : (n.rename f).isRecord = n.isRecord := by
  cases n <;> rfl

theorem isUnion_rename : (n.rename f).isUnion = n.isUnion := by
  cases n <;> rfl

theorem rename_id : n.rename (fun id => id) = n := by
  cases n <;> simp [rename]

theorem rename_eq_primitive {p : Primitive} : n.rename f = .primitive p ↔ n = .primitive p := by
  cases n <;> simp [rename]

end Node

namespace Graph

/-- `f` renames the types that can be reached in `g` into those that can be reached in `g'`: it pairs them off, takes
each top-level to the one at its place, and keeps all that a type says apart from the numbers in it. -/
structure Renames (f : TypeId → TypeId) (g g' : Graph) : Prop where
  bijOn : Set.BijOn f {id | g.Reached id} {id | g'.Reached id}
  tops : g'.tops = g.tops.map fun t => ⟨t.name, f t.type⟩
  node? : ∀ id, g.Reached id → g'.node? (f id) = (g.node? id).map (Node.rename f)

namespace Renames

variable {f : TypeId → TypeId} {g g' : Graph} {b : Bool} {id : TypeId}

/-- Types that are renamed one by one are renamed along every path, so only injectivity has to be asked for. -/
theorem of_injOn (hinj : Set.InjOn f {id | g.Reached id}) (htops : g'.tops = g.tops.map fun t => ⟨t.name, f t.type⟩)
    (hnode : ∀ id, g.Reached id → g'.node? (f id) = (g.node? id).map (Node.rename f)) : Renames f g g' := by
  have hchildren : ∀ id, g.Reached id → g'.children (f id) = (g.children id).map f := by
    intro id hid
    unfold Graph.children
    rw [hnode id hid]
    cases g.node? id with
    | none => rfl
    | some n => exact n.children_rename f
  refine ⟨⟨?_, hinj, ?_⟩, htops, hnode⟩
  · rintro id ⟨t, ht, hpath⟩
    have htop : (⟨t.name, f t.type⟩ : TopLevel) ∈ g'.tops := by
      rw [htops]
      exact List.mem_map.mpr ⟨t, ht, rfl⟩
    refine ⟨_, htop, ?_⟩
    induction hpath with
    | refl => exact .refl
    | tail hpath hc ih =>
      refine ih.tail ?_
      rw [Leads, hchildren _ ⟨t, ht, hpath⟩]
      exact List.mem_map_of_mem hc
  · rintro id' ⟨t', ht', hpath⟩
    rw [htops] at ht'
    obtain ⟨t, ht, rfl⟩ := List.mem_map.mp ht'
    induction hpath with
    | refl => exact ⟨t.type, ⟨t, ht, .refl⟩, rfl⟩
    | tail _ hc ih =>
      obtain ⟨id, hid, rfl⟩ := ih
      rw [Leads, hchildren id hid] at hc
      obtain ⟨c, hchild, rfl⟩ := List.mem_map.mp hc
      exact ⟨c, hid.child hchild, rfl⟩

/-- A graph with the same top-levels and the same types behind them. -/
theorem of_agree (htops : g'.tops = g.tops) (hnode : ∀ id, g.Reached id → g'.node? id = g.node? id) :
    Renames (fun id => id) g g' := by
  refine of_injOn (fun a _ c _ hac => hac) ?_ fun id hid => ?_
  · rw [htops]
    exact (List.map_id _).symm
  · rw [hnode id hid]
    cases g.node? id with
    | none => rfl
    | some n => exact congrArg some (n.rename_id).symm

theorem inj (h : Renames f g g') {a c : TypeId} (ha : g.Reached a) (hc : g.Reached c) (hac : f a = f c) : a = c :=
  h.bijOn.injOn ha hc hac

theorem reached (h : Renames f g g') (hid : g.Reached id) : g'.Reached (f id) := h.bijOn.mapsTo hid

theorem reached_of_mem_tops {t : TopLevel} (ht : t ∈ g.tops) : g.Reached t.type := ⟨t, ht, .refl⟩

theorem children (h : Renames f g g') (hid : g.Reached id) : g'.children (f id) = (g.children id).map f := by
  unfold Graph.children
  rw [h.node? id hid]
  cases g.node? id with
  | none => rfl
  | some n => exact n.children_rename f

theorem isPrimitive (h : Renames f g g') (p : Primitive) (hid : g.Reached id) :
    g'.isPrimitive p (f id) = g.isPrimitive p id := by
  unfold Graph.isPrimitive
  rw [h.node? id hid]
  cases g.node? id with
  | none => rfl
  | some n => simp [Node.rename_eq_primitive]

theorem nullableInner? (h : Renames f g g') (hid : g.Reached id) :
    g'.nullableInner? (f id) = (g.nullableInner? id).map f := by
  unfold Graph.nullableInner?
  rw [h.node? id hid]
  cases hn : g.node? id with
  | none => rfl
  | some n =>
    have hchild : ∀ c ∈ n.children, g.Reached c := fun c hc => hid.child (by rwa [children_of_node? hn])
    cases n with
    | union hint members =>
      match members with
      | [] => rfl
      | [_] => rfl
      | [a, c] =>
        have ha := h.isPrimitive .null (hchild a List.mem_cons_self)
        have hc := h.isPrimitive .null (hchild c (List.mem_cons_of_mem a List.mem_cons_self))
        simp only [Option.map_some, Node.rename, List.map_cons, List.map_nil, ha, hc]
        split
        · rfl
        · split
          · rfl
          · rfl
      | _ :: _ :: _ :: _ => rfl
    | _ => rfl

theorem isDeclared (h : Renames f g g') (hid : g.Reached id) : g'.isDeclared b (f id) = g.isDeclared b id := by
  unfold Graph.isDeclared
  rw [h.node? id hid, h.nullableInner? hid]
  cases g.node? id with
  | none => rfl
  | some n => cases n <;> simp [Node.rename]

theorem hint_eq (h : Renames f g g') (hid : g.Reached id) :
    ((g'.node? (f id)).map Node.hint).getD [] = ((g.node? id).map Node.hint).getD [] := by
  rw [h.node? id hid, Option.map_map]
  exact congrArg (fun k => ((g.node? id).map k).getD []) (funext (Node.hint_rename f))

theorem isUnionAt (h : Renames f g g') (hid : g.Reached id) : g'.isUnionAt (f id) = g.isUnionAt id := by
  unfold Graph.isUnionAt
  rw [h.node? id hid, Option.map_map]
  exact congrArg (fun k => ((g.node? id).map k).getD false) (funext (Node.isUnion_rename f))

/-! ## Declarations, dependencies and their order -/

variable (hg : g.WellFormed) (hg' : g'.WellFormed)

include hg hg'

theorem carries_children (h : Renames f g g') : Carries f g.Reached g.children g.size g'.children g'.size where
  inj _ _ ha hc := h.inj ha hc
  lt _ ha := hg.reached_lt ha
  lt' _ ha := hg'.reached_lt (h.reached ha)
  closed _ ha _ hc := ha.child hc
  next_eq _ ha := h.children ha

theorem reachable (h : Renames f g g') : g'.reachable = g.reachable.map f := by
  have hstack : ∀ a ∈ g.tops.map TopLevel.type, g.Reached a := by
    intro a ha
    obtain ⟨t, ht, rfl⟩ := List.mem_map.mp ha
    exact reached_of_mem_tops ht
  have hwalk := (h.carries_children hg hg').preorder [] _ (fun a ha => by cases ha) hstack
  rw [List.map_map] at hwalk
  unfold Graph.reachable
  rw [h.tops, List.map_map]
  exact hwalk

theorem declared (h : Renames f g g') : g'.declared b = (g.declared b).map f := by
  unfold Graph.declared
  rw [h.reachable hg hg', List.filter_map]
  refine congrArg (List.map f) (List.filter_congr fun a ha => ?_)
  exact h.isDeclared (hg.mem_reachable_iff.mp ha)

theorem carries_lookThrough (h : Renames f g g') :
    Carries f g.Reached (g.lookThrough b) g.size (g'.lookThrough b) g'.size where
  inj _ _ ha hc := h.inj ha hc
  lt _ ha := hg.reached_lt ha
  lt' _ ha := hg'.reached_lt (h.reached ha)
  closed _ ha _ hc := ha.child (mem_children_of_mem_lookThrough hc)
  next_eq a ha := by
    unfold Graph.lookThrough
    rw [h.isDeclared ha, h.children ha]
    split
    · rfl
    · rfl

theorem dependencies (h : Renames f g g') (hid : g.Reached id) :
    g'.dependencies b (f id) = (g.dependencies b id).map f := by
  have hchild : ∀ a ∈ g.children id, g.Reached a := fun a ha => hid.child ha
  have hwalk := (h.carries_lookThrough hg hg' (b := b)).preorder [] _ (fun a ha => by cases ha) hchild
  unfold Graph.dependencies
  rw [h.children hid]
  rw [List.map_nil] at hwalk
  rw [hwalk, List.filter_map]
  refine congrArg (List.map f) (List.filter_congr fun a ha => ?_)
  obtain ⟨c, hc, hca⟩ := exists_path_of_mem_preorder ha
  obtain ⟨top, htop, hreach⟩ := hchild c hc
  exact h.isDeclared ⟨top, htop, hreach.trans (Shows.reaches hca)⟩

/-- The lists of dependencies that are used for the order are renamed with the types. -/
theorem getD_dependencyLists (h : Renames f g g') (hid : id ∈ g.declared b) :
    (g'.dependencyLists b (g'.declared b)).getD (f id) [] =
      ((g.dependencyLists b (g.declared b)).getD id []).map f := by
  have hreached := (hg.mem_declared_iff.mp hid).1
  have hid' : f id ∈ g'.declared b := by
    rw [h.declared hg hg']
    exact List.mem_map_of_mem hid
  rw [Graph.getD_dependencyLists hid (hg.reached_lt hreached),
    Graph.getD_dependencyLists hid' (hg'.reached_lt (h.reached hreached)), h.dependencies hg hg' hreached]

/-- The order of the declarations is renamed with them, and the same dependencies close a cycle. -/
theorem order (h : Renames f g g') :
    (g'.order b .dependenciesFirst (g'.declared b)).order =
        (g.order b .dependenciesFirst (g.declared b)).order.map f ∧
      (g'.order b .dependenciesFirst (g'.declared b)).backEdges =
        (g.order b .dependenciesFirst (g.declared b)).backEdges.map (Prod.map f f) := by
  have hcarries : Carries f (· ∈ g.declared b) (fun a => (g.dependencyLists b (g.declared b)).getD a []) g.size
      (fun a => (g'.dependencyLists b (g'.declared b)).getD a []) g'.size :=
    { inj := fun a c ha hc => h.inj (hg.mem_declared_iff.mp ha).1 (hg.mem_declared_iff.mp hc).1
      lt := fun a ha => hg.lt_size_of_mem_declared ha
      lt' := fun a ha => hg'.reached_lt (h.reached (hg.mem_declared_iff.mp ha).1)
      closed := fun a ha c hc => by
        rw [Graph.getD_dependencyLists ha (hg.lt_size_of_mem_declared ha)] at hc
        exact hg.mem_declared_of_depends ha hc
      next_eq := fun a ha => h.getD_dependencyLists hg hg' ha }
  have hwalk := hcarries.postorder (g.declared b) [] [] [] (fun a ha => ha) (fun frame hframe => by cases hframe)
    (fun a ha => by cases ha)
  rw [← h.declared hg hg'] at hwalk
  exact ⟨congrArg Finished.order hwalk, congrArg Finished.backEdges hwalk⟩

end Renames

end Graph

end Typewright
