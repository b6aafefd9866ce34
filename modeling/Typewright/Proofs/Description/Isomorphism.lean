import Typewright.Proofs.Description.Acceptance
import Typewright.Proofs.Graph.Renaming

/-!
# Readings of one description have the same graph

* `SameKey ks ks' i j` : a type of one reading and a type of another have the same key;
* `Elaborates.exists_match` : such types say the same, up to the numbers in them;
* `Elaborates.exists_renames` : the graphs of two readings that hold the same are equal on the types that can be reached,
  up to their numbers.
-/

namespace Typewright

/-! ## Lists side by side -/

theorem forall₂_of_common {R : γ → α → Prop} {S : γ → β → Prop} {l : List γ} {as : List α} {bs : List β}
    (h : List.Forall₂ R l as) (h' : List.Forall₂ S l bs) : List.Forall₂ (fun a b => ∃ c, R c a ∧ S c b) as bs := by
  induction h generalizing bs with
  | nil =>
    cases h'
    exact .nil
  | cons hR _ ih =>
    cases h' with
    | cons hS h' => exact .cons ⟨_, hR, hS⟩ (ih h')

theorem map_eq_map_of_forall₂ {f : α → γ} {g : β → γ} {l : List α} {l' : List β}
    (h : List.Forall₂ (fun a b => f a = g b) l l') : l.map f = l'.map g := by
  induction h with
  | nil => rfl
  | cons hab _ ih => rw [List.map_cons, List.map_cons, hab, ih]

theorem forall₂_distinct {S : TypeId → TypeId → Prop} (hS : ∀ a b c e, S a b → S c e → (c = a ↔ e = b))
    {l l' : List TypeId} (h : List.Forall₂ S l l') : List.Forall₂ S (distinct l) (distinct l') := by
  induction h with
  | nil => exact .nil
  | cons hab _ ih =>
    refine .cons hab (List.rel_filter (fun c e hce => ?_) ih)
    simpa using (hS _ _ _ _ hab hce).not

/-! ## Types that say the same -/

/-- Types of two readings have the same key. -/
def SameKey (ks ks' : List TypeKey) (i j : TypeId) : Prop := ∃ k, ks[i]? = some k ∧ ks'[j]? = some k

/-- Two types say the same, where `S` relates the numbers in them. The hints of unions are the same if those of the
members are. -/
inductive NodesMatch (S : TypeId → TypeId → Prop) (g g' : Graph) : Node → Node → Prop where
  | primitive (p : Primitive) : NodesMatch S g g' (.primitive p) (.primitive p)
  | array {a b : TypeId} : S a b → NodesMatch S g g' (.array a) (.array b)
  | map {a b : TypeId} : S a b → NodesMatch S g g' (.map a) (.map b)
  | record {hint : Bytes} {ps ps' : List Property} :
    List.Forall₂ (fun p p' => p'.name = p.name ∧ p'.optional = p.optional ∧ S p.type p'.type) ps ps' →
    NodesMatch S g g' (.record hint ps) (.record hint ps')
  | enum (hint : Bytes) (cases : List Bytes) : NodesMatch S g g' (.enum hint cases) (.enum hint cases)
  | union {hint hint' : Bytes} {members members' : List TypeId} : List.Forall₂ S members members' →
    (List.Forall₂ (fun a b => g'.memberHint b = g.memberHint a) members members' → hint' = hint) →
    NodesMatch S g g' (.union hint members) (.union hint' members')

/-- Unions with members that have the same keys. -/
theorem NodesMatch.of_distinct {S : TypeId → TypeId → Prop} (hS : ∀ a b c e, S a b → S c e → (c = a ↔ e = b))
    {g g' : Graph} {ids ids' : List TypeId} (h : List.Forall₂ S ids ids') (hint : Bytes) :
    NodesMatch S g g' (.union (g.unionHint hint (distinct ids)) (distinct ids))
      (.union (g'.unionHint hint (distinct ids')) (distinct ids')) := by
  refine .union (forall₂_distinct hS h) fun hhints => ?_
  unfold Graph.unionHint
  rw [map_eq_map_of_forall₂ (hhints.imp fun _ _ hab => hab.symm)]

theorem NodesMatch.exists_child {S : TypeId → TypeId → Prop} {g g' : Graph} {n n' : Node} (h : NodesMatch S g g' n n')
    {c : TypeId} (hc : c ∈ n.children) : ∃ c', S c c' := by
  cases h with
  | primitive p => simp [Node.children] at hc
  | array h =>
    rw [List.mem_singleton.mp hc]
    exact ⟨_, h⟩
  | map h =>
    rw [List.mem_singleton.mp hc]
    exact ⟨_, h⟩
  | record h =>
    obtain ⟨p, hp, rfl⟩ := List.mem_map.mp hc
    obtain ⟨p', -, -, -, hS⟩ := exists_of_forall₂_left h hp
    exact ⟨_, hS⟩
  | enum hint cases => simp [Node.children] at hc
  | union h _ =>
    obtain ⟨c', -, hS⟩ := exists_of_forall₂_left h hc
    exact ⟨c', hS⟩

/-- Types that say the same are renamed into each other. -/
theorem NodesMatch.eq_rename {S : TypeId → TypeId → Prop} {g g' : Graph} {n n' : Node} (h : NodesMatch S g g' n n')
    {f : TypeId → TypeId} (hf : ∀ a b, S a b → b = f a) (hhint : ∀ a b, S a b → g'.memberHint b = g.memberHint a) :
    n' = n.rename f := by
  cases h with
  | primitive p => rfl
  | array h => rw [hf _ _ h, Node.rename]
  | map h => rw [hf _ _ h, Node.rename]
  | @record hint ps ps' h =>
    have hps : ps.map (fun p => { p with type := f p.type }) = ps'.map fun p => p := by
      refine map_eq_map_of_forall₂ (h.imp ?_)
      rintro p ⟨name, type, optional⟩ ⟨rfl, rfl, hS⟩
      obtain rfl : type = f p.type := hf _ _ hS
      rfl
    rw [Node.rename, hps, List.map_id']
  | enum hint cases => rfl
  | @union hint hint' members members' h hhints =>
    have hmembers : members.map f = members'.map fun id => id :=
      map_eq_map_of_forall₂ (h.imp fun a b hS => (hf a b hS).symm)
    rw [Node.rename, hmembers, List.map_id', hhints (h.imp fun a b => hhint a b)]

/-! ## Two readings -/

/-- Descriptions that say the same of every name. -/
structure Description.Agrees (d d' : Description) : Prop where
  unions : d'.unions = d.unions
  types : ∀ t ∈ d.types, t ∈ d'.types
  tops : d'.tops = d.tops

namespace Elaborates

variable {d d' : Description} {sc sc' : UnionScope} {ks ks' : List TypeKey} {r r' : Reading}

theorem sameKey_inj (h : Elaborates d sc ks r) (h' : Elaborates d' sc' ks' r') (a b c e : TypeId)
    (hab : SameKey ks ks' a b) (hce : SameKey ks ks' c e) : c = a ↔ e = b := by
  obtain ⟨k, ha, hb⟩ := hab
  obtain ⟨l, hc, he⟩ := hce
  constructor
  · rintro rfl
    obtain rfl := Option.some.inj (ha.symm.trans hc)
    exact h'.tracks.eq_of_key he hb
  · rintro rfl
    obtain rfl := Option.some.inj (hb.symm.trans he)
    exact h.tracks.eq_of_key hc ha

theorem forall₂_sameKey {ids ids' : List TypeId} {l : List TypeKey} (hids : HasKeys ks ids l)
    (hids' : HasKeys ks' ids' l) : List.Forall₂ (SameKey ks ks') ids ids' :=
  forall₂_of_common hids.flip hids'.flip

theorem node_of_hasNode (h : Elaborates d sc ks r) {name : Bytes} {i : TypeId} (hi : ks[i]? = some (.declared name))
    {n : Node} (hn : HasNode ks r.graph name n) : r.graph.node? i = some n := by
  obtain ⟨id, hid, hn⟩ := hn
  rwa [h.tracks.eq_of_key hi hid]

/-- The types of a declared name say the same. -/
theorem exists_match_declared (h : Elaborates d sc ks r) (h' : Elaborates d' sc' ks' r') (hd : d.Agrees d')
    {name : Bytes} {i j : TypeId} (hi : ks[i]? = some (.declared name)) (hj : ks'[j]? = some (.declared name)) :
    ∃ n n', r.graph.node? i = some n ∧ r'.graph.node? j = some n' ∧
      NodesMatch (SameKey ks ks') r.graph r'.graph n n' := by
  have hname := h.tracks.names name (List.mem_of_getElem? hi)
  rw [h.names] at hname
  obtain ⟨t, ht, rfl⟩ := List.mem_map.mp hname
  have hbuilds := h.types t ht
  have hbuilds' := h'.types t (hd.types t ht)
  rw [hd.unions] at hbuilds'
  cases hbuilds with
  | record hn hprops =>
    cases hbuilds' with
    | record hn' hprops' =>
      refine ⟨_, _, h.node_of_hasNode hi hn, h'.node_of_hasNode hj hn', .record ?_⟩
      refine (forall₂_of_common hprops hprops').imp ?_
      rintro p p' ⟨q, hp, hp'⟩
      exact ⟨hp'.name.trans hp.name.symm, hp'.optional.trans hp.optional.symm, _, hp.type, hp'.type⟩
  | enum hn =>
    cases hbuilds' with
    | enum hn' => exact ⟨_, _, h.node_of_hasNode hi hn, h'.node_of_hasNode hj hn', .enum _ _⟩
  | union hids hn =>
    cases hbuilds' with
    | union hids' hn' =>
      exact ⟨_, _, h.node_of_hasNode hi hn, h'.node_of_hasNode hj hn',
        .of_distinct (h.sameKey_inj h') (forall₂_sameKey hids hids') _⟩

/-- Types with the same key say the same. -/
theorem exists_match (h : Elaborates d sc ks r) (h' : Elaborates d' sc' ks' r') (hd : d.Agrees d') {i j : TypeId}
    (hij : SameKey ks ks' i j) : ∃ n n', r.graph.node? i = some n ∧ r'.graph.node? j = some n' ∧
      NodesMatch (SameKey ks ks') r.graph r'.graph n n' := by
  obtain ⟨k, hi, hj⟩ := hij
  obtain ⟨n, hn, hof⟩ := h.tracks.exists_node hi
  obtain ⟨n', hn', hof'⟩ := h'.tracks.exists_node hj
  cases k with
  | declared name => exact h.exists_match_declared h' hd hi hj
  | primitive p =>
    cases hof
    cases hof'
    exact ⟨_, _, hn, hn', .primitive p⟩
  | array k =>
    cases hof with
    | array hk =>
      cases hof' with
      | array hk' => exact ⟨_, _, hn, hn', .array ⟨k, hk, hk'⟩⟩
  | map k =>
    cases hof with
    | map hk =>
      cases hof' with
      | map hk' => exact ⟨_, _, hn, hn', .map ⟨k, hk, hk'⟩⟩
  | nullable site k =>
    cases hof with
    | nullable hk =>
      cases hof' with
      | nullable hk' =>
        have hnull : SameKey ks ks' Primitive.null.id Primitive.null.id :=
          ⟨_, h.tracks.key_primitive .null, h'.tracks.key_primitive .null⟩
        exact ⟨_, _, hn, hn', .union (.cons ⟨k, hk, hk'⟩ (.cons hnull .nil)) fun _ => rfl⟩
  | union site l =>
    cases hof with
    | union hids _ =>
      cases hof' with
      | union hids' _ =>
        exact ⟨_, _, hn, hn', .of_distinct (h.sameKey_inj h') (forall₂_sameKey hids hids') _⟩

/-- Types with the same key have the same hint. -/
theorem memberHint_eq (h : Elaborates d sc ks r) (h' : Elaborates d' sc' ks' r') (hd : d.Agrees d') {i j : TypeId}
    (hij : SameKey ks ks' i j) : r'.graph.memberHint j = r.graph.memberHint i := by
  -- on the number of the first type: the types in it have smaller ones
  induction i using Nat.strong_induction_on generalizing j with
  | _ i ih =>
    obtain ⟨n, n', hn, hn', hmatch⟩ := h.exists_match h' hd hij
    have hlt := h.tracks.child_lt hn
    have hlt' := h'.tracks.child_lt hn'
    rw [Graph.memberHint, Graph.memberHint, hn, hn']
    cases hmatch with
    | primitive p => cases p <;> rfl
    | array hab =>
      have ha := hlt rfl List.mem_cons_self
      simp only [if_pos ha, if_pos (hlt' rfl List.mem_cons_self), ih _ ha hab]
    | map hab =>
      have ha := hlt rfl List.mem_cons_self
      simp only [if_pos ha, if_pos (hlt' rfl List.mem_cons_self), ih _ ha hab]
    | record _ => rfl
    | enum _ _ => rfl
    | union hmembers hhints =>
      refine hhints (((List.forall₂_and_left _ _).mpr ⟨fun a ha => hlt rfl ha, hmembers⟩).imp ?_)
      rintro a b ⟨ha, hab⟩
      exact ih a ha hab

/-- The graphs are equal on the types that can be reached, up to their numbers. -/
theorem exists_renames (h : Elaborates d sc ks r) (h' : Elaborates d' sc' ks' r') (hd : d.Agrees d') :
    ∃ f, Graph.Renames f r.graph r'.graph := by
  have hchoice : ∀ i, ∃ j, ∀ j', SameKey ks ks' i j' → j' = j := by
    intro i
    by_cases hi : ∃ j, SameKey ks ks' i j
    · obtain ⟨j, hij⟩ := hi
      exact ⟨j, fun j' hij' => (h.sameKey_inj h' i j i j' hij hij').mp rfl⟩
    · exact ⟨0, fun j' hij' => absurd ⟨j', hij'⟩ hi⟩
  choose f hf using hchoice
  have hsame : ∀ {i j}, SameKey ks ks' i j → SameKey ks ks' i (f i) := fun {i j} hij => hf i j hij ▸ hij
  have htops : List.Forall₂ (fun t t' => t'.name = t.name ∧ SameKey ks ks' t.type t'.type) r.graph.tops r'.graph.tops := by
    have hcommon := h'.tops
    rw [hd.unions, hd.tops] at hcommon
    refine (forall₂_of_common h.tops hcommon).imp ?_
    rintro t t' ⟨q, hq, hq'⟩
    exact ⟨hq'.1.trans hq.1.symm, _, hq.2, hq'.2⟩
  have hreached : ∀ id, r.graph.Reached id → SameKey ks ks' id (f id) := by
    rintro id ⟨t, ht, hpath⟩
    induction hpath with
    | refl =>
      obtain ⟨t', -, -, hS⟩ := exists_of_forall₂_left htops ht
      exact hsame hS
    | tail _ hc ih =>
      obtain ⟨n, n', hn, -, hmatch⟩ := h.exists_match h' hd ih
      rw [Leads, Graph.children_of_node? hn] at hc
      obtain ⟨c', hS⟩ := hmatch.exists_child hc
      exact hsame hS
  refine ⟨f, .of_injOn (fun a ha b hb hab => ?_) ?_ fun id hid => ?_⟩
  · have hb' := hreached b hb
    rw [← hab] at hb'
    exact (h.sameKey_inj h' b (f a) a (f a) hb' (hreached a ha)).mpr rfl
  · have heq : r.graph.tops.map (fun t => TopLevel.mk t.name (f t.type)) = r'.graph.tops.map fun t => t := by
      refine map_eq_map_of_forall₂ (htops.imp ?_)
      rintro t ⟨name, type⟩ ⟨rfl, hS⟩
      rw [← hf t.type type hS]
    rw [heq, List.map_id']
  · obtain ⟨n, n', hn, hn', hmatch⟩ := h.exists_match h' hd (hreached id hid)
    rw [hn, hn', hmatch.eq_rename hf fun a b => h.memberHint_eq h' hd]
    rfl

end Elaborates

end Typewright
