import Typewright.Proofs.Module.Lines
import Typewright.Proofs.Module.Rank

/-!
# Names are bound before they are used

* `Module.Renders.spelled` : a rendered module is spelled with names;
* `Module.Renders.boundBefore_iff` : a name is bound before a declaration just if its own declaration comes earlier;
* `Graph.Built.bound_before_use` : in unions and aliases a declared type is mentioned without quotation marks only where
  it is bound, and with them only in a union, for a later union, in a cycle.
-/

namespace Typewright

open Relation

variable {u : CharacterData} {g : Graph} {o : Options} {m : Module} {id c d : TypeId} {eager : Bool}
  {bound : List TypeId} {e : TypeExpr}

/-! ## Words of a rendering -/

namespace ExprContext

theorem Writes.isName (hu : u.Standard) (h : (g.context u o eager bound).Writes g id e) :
    ∀ w ∈ e.mentions, IsName w.word := by
  intro w hw
  rcases h.sound w hw with ⟨hplain, -⟩ | ⟨d, -, -, hname, -⟩
  · exact isName_of_mem_plainWords hplain
  · exact NameTable.isName_of_type hu hname

theorem Writes.mentions_text (hu : u.Standard) (h : (g.context u o eager bound).Writes g id e) :
    Bytes.mentions e.text = e.mentions :=
  TypeExpr.mentions_text (h.isName hu)

/-- Where the name of a declared type is mentioned the type is met. -/
theorem Writes.shows (hu : u.Standard) (h : (g.context u o eager bound).Writes g id e) {w : Mention}
    (hw : w ∈ Bytes.mentions e.text) (hname : (NameTable.ofGraph u o g).type d = .ok w.word) :
    g.Shows o.declareUnions id d ∧ w.quoted = (g.context u o eager bound).quotes g d := by
  rw [h.mentions_text hu] at hw
  rcases h.sound w hw with ⟨hplain, -⟩ | ⟨d', hshows, -, hname', hquoted⟩
  · exact absurd (reserved_of_mem_plainWords hplain) (NameTable.not_reserved_of_type hname)
  · rw [NameTable.type_injective hname hname']
    exact ⟨hshows, hquoted⟩

/-- A declared type is mentioned where it is met. -/
theorem Writes.exists_mention (hu : u.Standard) (h : g.WellFormed) (hw : (g.context u o eager bound).Writes g id e)
    (hd : d ∈ g.declared o.declareUnions) (hshows : g.Shows o.declareUnions id d) :
    ∃ w ∈ Bytes.mentions e.text, (NameTable.ofGraph u o g).type d = .ok w.word := by
  obtain ⟨name, hname⟩ := NameTable.exists_type hd
  refine ⟨⟨name, (g.context u o eager bound).quotes g d⟩, ?_, hname⟩
  rw [hw.mentions_text hu]
  exact hw.complete _ ⟨d, hshows, (h.mem_declared_iff.mp hd).2, hname, rfl⟩

/-- The text of an expression is not the beginning of a union. -/
theorem Writes.text_ne_union (hu : u.Standard) (h : (g.context u o eager bound).Writes g id e) :
    e.text ≠ Bytes.ascii "Union[" := by
  intro htext
  have hmentions : Bytes.mentions (Bytes.ascii "Union[") = [⟨Bytes.ascii "Union", false⟩] := by decide
  have hmem : (⟨Bytes.ascii "Union", false⟩ : Mention) ∈ e.mentions := by
    rw [← h.mentions_text hu, htext, hmentions]
    exact List.mem_cons_self
  rcases h.sound _ hmem with ⟨hplain, -⟩ | ⟨d, -, -, hname, -⟩
  · exact absurd (mem_plainWords_typeImports hplain) (by decide)
  · exact NameTable.not_reserved_of_type hname (by decide +kernel)

end ExprContext

/-! ## The declarations of a rendering -/

namespace Module.Renders

theorem length_blocks (hm : m.Renders u g o) : m.blocks.length = (g.blockOrder o).length := hm.blocks.length_eq.symm

theorem exists_block (hm : m.Renders u g o) (hid : id ∈ g.blockOrder o) :
    ∃ b, m.blocks[g.rank o id]? = some b ∧ b.Declares u g o id := by
  have hlt := List.idxOf_lt_length_of_mem hid
  rw [Graph.WellFormed.rank_of_mem_blockOrder hid]
  refine getElem?_of_forall₂ hm.blocks ?_
  rw [List.getElem?_eq_getElem hlt, List.getElem_idxOf hlt]

theorem exists_union (h : g.WellFormed) (hm : m.Renders u g o) (hid : id ∈ g.unionOrder o) :
    ∃ i union, g.rank o id = m.blocks.length + i ∧ m.unions[i]? = some union ∧
      union.Declares u g o ((g.unionOrder o).take i).reverse id := by
  have hlt := List.idxOf_lt_length_of_mem hid
  have hlt' : (g.unionOrder o).idxOf id < m.unions.length := hm.length_unions ▸ hlt
  refine ⟨(g.unionOrder o).idxOf id, m.unions[(g.unionOrder o).idxOf id], ?_, List.getElem?_eq_getElem hlt', ?_⟩
  · rw [h.rank_of_mem_unionOrder hid, hm.length_blocks]
  · refine hm.unions _ id _ ?_ (List.getElem?_eq_getElem hlt')
    rw [List.getElem?_eq_getElem hlt, List.getElem_idxOf hlt]

/-- The name of a type is that of the declaration at its place. -/
theorem getElem?_declNames (h : g.WellFormed) (hm : m.Renders u g o) (hid : id ∈ g.declared o.declareUnions) {n : Bytes}
    (hn : (NameTable.ofGraph u o g).type id = .ok n) : m.declNames[g.rank o id]? = some n := by
  cases hunion : g.isUnionAt id with
  | false =>
    obtain ⟨b, hb, hdecl⟩ := hm.exists_block (h.mem_blockOrder_iff.mpr ⟨hid, hunion⟩)
    have hname : (NameTable.ofGraph u o g).type id = .ok b.name := by
      cases b with
      | record name fields => exact hdecl.1
      | enum name cases => exact hdecl.1
    rw [getElem?_declNames_block hb, Except.ok.inj (hname.symm.trans hn)]
  | true =>
    obtain ⟨i, union, hrank, hget, hdecl⟩ := hm.exists_union h (h.mem_unionOrder_iff.mpr ⟨hid, hunion⟩)
    rw [hrank, getElem?_declNames_union hget, Except.ok.inj (hdecl.name.symm.trans hn)]

theorem length_declarations (hm : m.Renders u g o) : m.declarations.length = (g.layout o).length := by
  rw [declarations, List.length_append, List.length_map, List.length_map, hm.length_blocks, hm.length_unions,
    Graph.layout, List.length_append]

theorem rank_lt (h : g.WellFormed) (hm : m.Renders u g o) (hid : id ∈ g.declared o.declareUnions) :
    g.rank o id < m.declarations.length := by
  rw [hm.length_declarations]
  exact List.idxOf_lt_length_of_mem (h.mem_layout_iff.mpr hid)

/-- A declaration has the name of the type at its place. -/
theorem rank_of_getElem?_declNames (h : g.WellFormed) (hm : m.Renders u g o) {n : Bytes}
    (hn : (NameTable.ofGraph u o g).type id = .ok n) {i : Nat} (hi : m.declNames[i]? = some n) : g.rank o id = i := by
  have hlt : i < (g.layout o).length := by
    rw [← hm.length_declarations, ← length_declNames]
    exact (List.getElem?_eq_some_iff.mp hi).1
  have hmem : (g.layout o)[i] ∈ g.declared o.declareUnions := h.mem_layout_iff.mp (List.getElem_mem hlt)
  have hrank : g.rank o (g.layout o)[i] = i := h.rank_of_getElem? (List.getElem?_eq_getElem hlt)
  obtain ⟨n', hn'⟩ := NameTable.exists_type hmem
  have hdecl := hm.getElem?_declNames h hmem hn'
  rw [hrank, hi] at hdecl
  rw [NameTable.type_injective hn (Option.some.inj hdecl ▸ hn'), hrank]

theorem spelled (hu : u.Standard) (hm : m.Renders u g o) : m.Spelled where
  blocks b hb := by
    obtain ⟨id, -, hdecl⟩ := exists_of_forall₂_right hm.blocks hb
    cases b with
    | record name fields => exact NameTable.isName_of_type hu hdecl.1
    | enum name cases => exact NameTable.isName_of_type hu hdecl.1
  fields name fields hb f hf := by
    obtain ⟨id, -, -, hint, ps, -, hnames, -⟩ := exists_of_forall₂_right hm.blocks hb
    exact isName_of_mem_propertyNames hu o ps f.name (hnames ▸ List.mem_map_of_mem hf)
  unions union hmem := by
    obtain ⟨i, hi⟩ := List.getElem?_of_mem hmem
    have hlt : i < (g.unionOrder o).length := hm.length_unions ▸ (List.getElem?_eq_some_iff.mp hi).1
    exact NameTable.isName_of_type hu (hm.unions i _ union (List.getElem?_eq_getElem hlt) hi).name
  aliases a ha := by
    obtain ⟨top, -, hnames⟩ := exists_of_forall₂_right hm.aliases ha
    exact NameTable.isName_of_topLevel hu hnames.name
  not_union a ha := by
    obtain ⟨top, -, hnames⟩ := exists_of_forall₂_right hm.aliases ha
    exact hnames.type.text_ne_union hu

/-- **A name is bound before a declaration just if its own declaration comes earlier.** -/
theorem boundBefore_iff (hu : u.Standard) (h : g.WellFormed) (hm : m.Renders u g o)
    (hd : d ∈ g.declared o.declareUnions) {n : Bytes} (hn : (NameTable.ofGraph u o g).type d = .ok n)
    (hc : c ∈ g.declared o.declareUnions) :
    BoundBefore m.lines n (m.declLine (g.rank o c)) ↔ g.rank o d < g.rank o c := by
  constructor
  · intro hbound
    obtain ⟨i, hi, hline⟩ := (hm.spelled hu).exists_of_boundBefore (NameTable.isName_of_type hu hn) hbound
    rw [← hm.rank_of_getElem?_declNames h hn hi] at hline
    by_contra hge
    rcases Nat.lt_or_eq_of_le (Nat.le_of_not_lt hge) with hrank | hrank
    · have hle := declLine_add_length_lt (List.getElem?_eq_getElem (hm.rank_lt h hc)) hrank (hm.rank_lt h hd)
      omega
    · rw [hrank] at hline
      exact Nat.lt_irrefl _ hline
  · intro hrank
    exact (hm.spelled hu).boundBefore_of_lt (hm.getElem?_declNames h hd hn) hrank (hm.rank_lt h hc) (Nat.le_refl _)

/-- A class or enum is that of the type at its place. -/
theorem exists_declared (h : g.WellFormed) (hm : m.Renders u g o) {i : Nat} {b : Block} (hb : m.blocks[i]? = some b) :
    ∃ id ∈ g.blockOrder o, g.rank o id = i ∧ b.Declares u g o id := by
  have hlt : i < (g.blockOrder o).length := hm.length_blocks ▸ (List.getElem?_eq_some_iff.mp hb).1
  have hmem : (g.blockOrder o)[i] ∈ g.blockOrder o := List.getElem_mem hlt
  have hrank : g.rank o (g.blockOrder o)[i] = i := by
    rw [Graph.WellFormed.rank_of_mem_blockOrder hmem, h.nodup_blockOrder.idxOf_getElem i hlt]
  obtain ⟨b', hb', hdecl⟩ := hm.exists_block hmem
  rw [hrank, hb] at hb'
  exact ⟨_, hmem, hrank, Option.some.inj hb' ▸ hdecl⟩

/-! ## Unions and aliases -/

/-- A declared type that is not quoted comes before the union that is being written. -/
theorem rank_lt_of_quotes_eq_false (h : g.WellFormed) (hd : d ∈ g.declared o.declareUnions) {i : Nat}
    (hq : (g.context u o true ((g.unionOrder o).take i).reverse).quotes g d = false) :
    g.rank o d < (g.blockOrder o).length + i := by
  cases hunion : g.isUnionAt d with
  | false => exact Nat.lt_add_right i ((h.rank_lt_length_blockOrder_iff hd).mpr hunion)
  | true =>
    have hmem : d ∈ (g.unionOrder o).take i := by
      simpa [ExprContext.quotes, Graph.context, hunion] using hq
    have hidx : (g.unionOrder o).idxOf d < i := by
      rw [← List.take_append_drop i (g.unionOrder o), List.idxOf_append_of_mem hmem]
      exact lt_of_lt_of_le (List.idxOf_lt_length_of_mem hmem) (List.length_take_le i _)
    rw [h.rank_of_mem_unionOrder (h.mem_unionOrder_iff.mpr ⟨hd, hunion⟩)]
    exact Nat.add_lt_add_left hidx _

/-- A declared type that is quoted is a union, and it comes after the union that is being written or is that union. -/
theorem le_rank_of_quotes_eq_true (h : g.WellFormed) (hd : d ∈ g.declared o.declareUnions) {i : Nat}
    (hq : (g.context u o true ((g.unionOrder o).take i).reverse).quotes g d = true) :
    g.isUnionAt d = true ∧ (g.blockOrder o).length + i ≤ g.rank o d := by
  have hboth : g.isUnionAt d = true ∧ d ∉ (g.unionOrder o).take i := by
    simpa [ExprContext.quotes, Graph.context] using hq
  obtain ⟨hunion, hnot⟩ := hboth
  have hmem := h.mem_unionOrder_iff.mpr ⟨hd, hunion⟩
  refine ⟨hunion, ?_⟩
  rw [h.rank_of_mem_unionOrder hmem]
  refine Nat.add_le_add_left (Nat.le_of_not_lt fun hlt => hnot ?_) _
  rw [List.mem_take_iff_getElem]
  have hlen := List.idxOf_lt_length_of_mem hmem
  exact ⟨(g.unionOrder o).idxOf d, by omega, List.getElem_idxOf hlen⟩

/-- A member of a union is written before the union is bound. -/
theorem exists_member (h : g.WellFormed) (hm : m.Renders u g o) {i : Nat} {union : UnionBlock}
    (hget : m.unions[i]? = some union) {x : TypeExpr} (hx : x ∈ union.members) :
    ∃ id ∈ g.unionOrder o, g.rank o id = m.blocks.length + i ∧
      ∃ t ∈ g.children id, (g.context u o true ((g.unionOrder o).take i).reverse).Writes g t x := by
  have hlt : i < (g.unionOrder o).length := hm.length_unions ▸ (List.getElem?_eq_some_iff.mp hget).1
  have hmem : (g.unionOrder o)[i] ∈ g.unionOrder o := List.getElem_mem hlt
  obtain ⟨t, ht, hwrites⟩ := exists_of_forall₂_right (hm.unions i _ union (List.getElem?_eq_getElem hlt) hget).members hx
  refine ⟨(g.unionOrder o)[i], hmem, ?_, t, ht, hwrites⟩
  rw [h.rank_of_mem_unionOrder hmem, hm.length_blocks, h.nodup_unionOrder.idxOf_getElem i hlt]

theorem mem_declared_of_member (h : g.WellFormed) (hid : id ∈ g.unionOrder o) {t : TypeId} (ht : t ∈ g.children id)
    (hshows : g.Shows o.declareUnions t d) (hdecl : g.isDeclared o.declareUnions d = true) :
    d ∈ g.declared o.declareUnions ∧ g.Depends o.declareUnions id d := by
  have hdep : g.Depends o.declareUnions id d := h.mem_dependencies_iff.mpr ⟨⟨t, ht, hshows⟩, hdecl⟩
  exact ⟨h.mem_declared_of_depends (h.mem_unionOrder_iff.mp hid).1 hdep, hdep⟩

theorem boundBefore_of_memberLine (hu : u.Standard) (h : g.WellFormed) (hm : m.Renders u g o) {k : Nat}
    {union e : Bytes} (hline : MemberLine m.lines union k e) (hd : d ∈ g.declared o.declareUnions) {n : Bytes}
    (hn : (NameTable.ofGraph u o g).type d = .ok n) (hmem : ⟨n, false⟩ ∈ Bytes.mentions e) : BoundBefore m.lines n k := by
  obtain ⟨i, union, r, x, hget, -, hx, rfl, rfl⟩ := (hm.spelled hu).memberLine hline
  obtain ⟨id, hid, hrank, t, -, hwrites⟩ := hm.exists_member h hget (List.mem_of_getElem? hx)
  have hlt := rank_lt_of_quotes_eq_false h hd (hwrites.shows hu hmem hn).2.symm
  refine (hm.spelled hu).boundBefore_of_lt (hm.getElem?_declNames h hd hn) ?_
    (List.getElem?_eq_some_iff.mp (getElem?_declarations_union hget)).1 (Nat.le_add_right _ _)
  rwa [hm.length_blocks]

theorem boundBefore_of_aliasLine (hu : u.Standard) (h : g.WellFormed) (hm : m.Renders u g o) {k : Nat} {a e : Bytes}
    (hline : AliasLine m.lines a k e) (hd : d ∈ g.declared o.declareUnions) {n : Bytes}
    (hn : (NameTable.ofGraph u o g).type d = .ok n) : BoundBefore m.lines n k := by
  obtain ⟨i, a, ha, -, -, rfl⟩ := (hm.spelled hu).aliasLine hline
  have hpos : 0 < m.aliases.length := Nat.zero_lt_of_lt (List.getElem?_eq_some_iff.mp ha).1
  exact (hm.spelled hu).boundBefore_aliasLine (hm.getElem?_declNames h hd hn) (List.getElem?_eq_getElem hpos)
    (Nat.le_add_right _ _)

theorem quotes_aliases (h : g.WellFormed) (hd : d ∈ g.declared o.declareUnions) :
    (g.context u o true (g.unionOrder o).reverse).quotes g d = false := by
  cases hunion : g.isUnionAt d with
  | false => simp [ExprContext.quotes, hunion]
  | true => simp [ExprContext.quotes, Graph.context, h.mem_unionOrder_iff.mpr ⟨hd, hunion⟩]

/-- Nothing is quoted in an alias. -/
theorem quoted_alias (h : g.WellFormed) (hm : m.Renders u g o) {a : Alias} (ha : a ∈ m.aliases) :
    ∀ w ∈ a.type.mentions, w.quoted = false := by
  obtain ⟨⟨t, i⟩, htop, hnames⟩ := exists_of_forall₂_right hm.aliases ha
  intro w hw
  rcases hnames.type.sound w hw with ⟨-, hq⟩ | ⟨d, hshows, hdecl, -, hq⟩
  · exact hq
  · have hreach : g.Reaches t.type d := hshows.reaches
    have hd : d ∈ g.declared o.declareUnions :=
      h.mem_declared_iff.mpr ⟨⟨t, List.mem_of_getElem? (Graph.getElem?_of_mem_aliasTops htop), hreach⟩, hdecl⟩
    rw [hq, quotes_aliases h hd]

/-- What is quoted in a union is a union that is declared later, and then dependencies form a cycle. -/
theorem quoted_member (h : g.WellFormed) (hm : m.Renders u g o) {i r : Nat} {union : UnionBlock}
    (hget : m.unions[i]? = some union) {x : TypeExpr} (hx : union.members[r]? = some x) {word : Bytes}
    (hw : ⟨word, true⟩ ∈ x.mentions) :
    (g.orderedFor o).hasCycles = true ∧ ∃ d ∈ g.declared o.declareUnions, g.isUnionAt d = true ∧
      (NameTable.ofGraph u o g).type d = .ok word ∧
      m.declLine (m.blocks.length + i) + (r + 1) < m.declLine (g.rank o d) := by
  obtain ⟨id, hid, hrank, t, ht, hwrites⟩ := hm.exists_member h hget (List.mem_of_getElem? hx)
  rcases hwrites.sound _ hw with ⟨-, hq⟩ | ⟨d, hshows, hdecl, hname, hq⟩
  · cases hq
  obtain ⟨hd, hdep⟩ := mem_declared_of_member h hid ht hshows hdecl
  obtain ⟨hunion, hle⟩ := le_rank_of_quotes_eq_true h hd hq.symm
  obtain ⟨hid', hunion'⟩ := h.mem_unionOrder_iff.mp hid
  have hlt : g.rank o id < g.rank o d := by
    -- A union does not depend on itself, since its members have smaller numbers.
    obtain ⟨hint, ms, hn⟩ := Graph.isUnionAt_iff.mp hunion'
    refine lt_of_le_of_ne (by rwa [hrank, hm.length_blocks]) fun heq => ?_
    have hsame := (h.getElem?_rank hid').symm.trans (heq ▸ h.getElem?_rank hd)
    have hself := h.dependency_lt hn hdep
    rw [Option.some.inj hsame] at hself
    exact Nat.lt_irrefl _ hself
  refine ⟨h.hasCycles_of_rank_le hid' hdep (hunion.trans hunion'.symm) hlt.le, d, hd, hunion, hname, ?_⟩
  have hr : r < union.members.length := (List.getElem?_eq_some_iff.mp hx).1
  have hline := declLine_add_length_lt (getElem?_declarations_union hget) (hrank ▸ hlt) (hm.rank_lt h hd)
  rw [union.length_lines] at hline
  omega

end Module.Renders

/-! ## Quotation marks -/

theorem Field.quote_not_mem_text {f : Field} (hname : IsName f.name) (htype : Bytes.quote ∉ f.type.text) :
    Bytes.quote ∉ f.text := by
  rw [Field.text, List.mem_append, List.mem_append]
  rintro ((hq | hq) | hq)
  · exact hname.quote_not_mem hq
  · exact absurd hq (by decide)
  · exact htype hq

theorem quote_not_mem_join {sep : Bytes} (hsep : Bytes.quote ∉ sep) {l : List Bytes} (hl : ∀ s ∈ l, Bytes.quote ∉ s) :
    Bytes.quote ∉ Bytes.join sep l := by
  intro hq
  exact Bytes.forall_mem_join (P := (· ≠ Bytes.quote)) (fun b hb => ne_of_mem_of_not_mem hb hsep)
    (fun s hs b hb => ne_of_mem_of_not_mem hb (hl s hs)) _ hq rfl

theorem quote_not_mem_signatureLines {fields : List Field} (h : ∀ f ∈ fields, Bytes.quote ∉ f.text) :
    ∀ l ∈ signatureLines fields, Bytes.quote ∉ l := by
  have hjoin : Bytes.quote ∉ Bytes.join (Bytes.ascii ", ") (Bytes.ascii "self" :: fields.map Field.text) := by
    refine quote_not_mem_join (by decide) fun s hs => ?_
    rcases List.mem_cons.mp hs with rfl | hs
    · decide
    · obtain ⟨f, hf, rfl⟩ := List.mem_map.mp hs
      exact h f hf
  intro l hl
  simp only [signatureLines] at hl
  split at hl
  · rw [List.mem_singleton.mp hl]
    simp only [List.mem_append, hjoin, or_false]
    decide
  · simp only [List.cons_append, List.mem_cons, List.mem_append, List.mem_map, List.not_mem_nil, or_false] at hl
    rcases hl with rfl | rfl | ⟨f, hf, rfl⟩ | rfl
    · decide
    · decide
    · simp only [List.mem_append, h f hf, false_or]
      decide
    · decide

theorem Block.quote_not_mem_record {name : Bytes} {fields : List Field} (hname : IsName name)
    (hfields : ∀ f ∈ fields, IsName f.name ∧ Bytes.quote ∉ f.type.text) :
    ∀ l ∈ (Block.record name fields).lines, Bytes.quote ∉ l := by
  have htexts : ∀ f ∈ fields, Bytes.quote ∉ f.text := fun f hf =>
    Field.quote_not_mem_text (hfields f hf).1 (hfields f hf).2
  intro l hl
  rw [lines] at hl
  rcases List.mem_cons.mp hl with rfl | hl
  · simp only [List.mem_append, hname.quote_not_mem, or_false]
    decide
  split at hl
  · rw [List.mem_singleton.mp hl]
    decide
  · rcases List.mem_append.mp hl with hl | hl
    · obtain ⟨f, hf, rfl⟩ := List.mem_map.mp hl
      simp only [List.mem_append, htexts f hf, or_false]
      decide
    · rcases List.mem_cons.mp hl with rfl | hl
      · exact List.not_mem_nil
      · rcases List.mem_append.mp hl with hl | hl
        · exact quote_not_mem_signatureLines htexts l hl
        · obtain ⟨f, hf, rfl⟩ := List.mem_map.mp hl
          simp only [List.mem_append, (hfields f hf).1.quote_not_mem, or_false]
          decide

theorem Block.quote_not_mem_enum {name : Bytes} {cases : List Bytes} (hname : IsName name)
    (hcases : ∀ c ∈ cases, IsName c) : ∀ l ∈ (Block.enum name cases).lines, Bytes.quote ∉ l := by
  intro l hl
  rw [lines] at hl
  rcases List.mem_cons.mp hl with rfl | hl
  · simp only [List.mem_append, hname.quote_not_mem, or_false]
    decide
  rcases List.mem_append.mp hl with hl | hl
  · split at hl
    · rw [List.mem_singleton.mp hl]
      decide
    · cases hl
  · obtain ⟨⟨c, i⟩, hc, rfl⟩ := List.mem_map.mp hl
    have hnumber : Bytes.quote ∉ caseNumber i := by
      intro hq
      rcases Bytes.eq_minus_or_isDigit_of_mem_decimalInt _ _ hq with hminus | hdigit
      · exact absurd hminus (by decide)
      · exact absurd hdigit (by decide)
    simp only [List.mem_append, (hcases c (List.fst_mem_of_mem_zipIdx hc)).quote_not_mem, hnumber, or_false]
    decide

namespace Module.Renders

/-- Nothing is quoted in the annotations of a class. -/
theorem quoted_annotation (h : (g.context u o false bound).Writes g id e) : ∀ w ∈ e.mentions, w.quoted = false := by
  intro w hw
  rcases h.sound w hw with ⟨-, hq⟩ | ⟨d, -, -, -, hq⟩
  · exact hq
  · exact hq

theorem quote_not_mem_block (hu : u.Standard) (hm : m.Renders u g o) {b : Block} (hb : b ∈ m.blocks) :
    ∀ l ∈ b.lines, Bytes.quote ∉ l := by
  have hname := (hm.spelled hu).blocks b hb
  obtain ⟨id, -, hdecl⟩ := exists_of_forall₂_right hm.blocks hb
  cases b with
  | record name fields =>
    obtain ⟨-, hint, ps, -, -, hfields⟩ := hdecl
    refine Block.quote_not_mem_record hname fun f hf => ⟨(hm.spelled hu).fields name fields hb f hf, ?_⟩
    obtain ⟨p, -, hwrites⟩ := exists_of_forall₂_right hfields hf
    exact f.type.quote_not_mem_text fun w hw => ⟨hwrites.isName hu w hw, quoted_annotation hwrites w hw⟩
  | enum name cases =>
    obtain ⟨-, hint, cs, -, rfl⟩ := hdecl
    exact Block.quote_not_mem_enum hname (isName_of_mem_caseNames hu o cs)

theorem quote_not_mem_importLines {l : Bytes} (hl : l ∈ m.importLines) : Bytes.quote ∉ l := by
  obtain ⟨library, hlibrary, used, rfl⟩ := m.mem_importLines hl
  have hnames : Bytes.quote ∉ Bytes.join (Bytes.ascii ", ") (used.map Import.name) := by
    refine quote_not_mem_join (by decide) fun s hs => ?_
    obtain ⟨i, -, rfl⟩ := List.mem_map.mp hs
    cases i <;> decide
  have hlibrary' : Bytes.quote ∉ Bytes.ascii library := by
    simp only [List.mem_cons, List.not_mem_nil, or_false] at hlibrary
    rcases hlibrary with rfl | rfl | rfl <;> decide
  simp only [importOf, List.mem_append, hnames, hlibrary', or_false]
  decide

/-- Apart from comments, only members of unions have quotation marks. -/
theorem comment_or_member_of_quote_mem (hu : u.Standard) (h : g.WellFormed) (hm : m.Renders u g o) {k : Nat} {l : Bytes}
    (hl : m.lines[k]? = some l) (hq : Bytes.quote ∈ l) :
    (∃ text, l = Bytes.ascii "# " ++ text) ∨ ∃ i union r x, m.unions[i]? = some union ∧
      union.members[r]? = some x ∧ l = fourSpaces ++ (x.text ++ Bytes.ascii ",") ∧
        k = m.declLine (m.blocks.length + i) + (r + 1) := by
  rcases cases_line hl with rfl | hheader | ⟨i, p, r, hi, hr, rfl⟩ | ⟨i, a, ha, rfl, rfl⟩
  · cases hq
  · rcases m.mem_header hheader with rfl | hcomment | ⟨rfl, -⟩ | himport
    · cases hq
    · exact Or.inl hcomment
    · exact absurd hq (by decide)
    · exact absurd hq (quote_not_mem_importLines himport)
  · rcases cases_declaration hi with ⟨b, hb, rfl⟩ | ⟨j, union, rfl, hget, rfl⟩
    · exact absurd hq (hm.quote_not_mem_block hu (List.mem_of_getElem? hb) l (List.mem_of_getElem? hr))
    · rcases UnionBlock.cases_line hr with ⟨-, rfl⟩ | ⟨r, x, rfl, hx, rfl⟩ | rfl
      · rw [unionHead, List.mem_append] at hq
        rcases hq with hq | hq
        · exact absurd hq ((hm.spelled hu).unions union (List.mem_of_getElem? hget)).quote_not_mem
        · exact absurd hq (by decide)
      · exact Or.inr ⟨j, union, r, x, hget, hx, rfl, rfl⟩
      · exact absurd hq (by decide)
  · have hmem := List.mem_of_getElem? ha
    obtain ⟨top, -, hnames⟩ := exists_of_forall₂_right hm.aliases hmem
    have htype : Bytes.quote ∉ a.type.text := a.type.quote_not_mem_text fun w hw =>
      ⟨hnames.type.isName hu w hw, hm.quoted_alias h hmem w hw⟩
    rw [Alias.text, List.mem_append, List.mem_append] at hq
    rcases hq with (hq | hq) | hq
    · exact absurd hq ((hm.spelled hu).aliases a hmem).quote_not_mem
    · exact absurd hq (by decide)
    · exact absurd hq htype

end Module.Renders

/-- The words of a member are those of its line. -/
theorem mentions_memberLine {x : TypeExpr} (hx : ∀ w ∈ x.mentions, IsName w.word) :
    Bytes.mentions (fourSpaces ++ (x.text ++ Bytes.ascii ",")) = x.mentions := by
  have hscan := x.scan_text hx (Bytes.apart_cons (show Bytes.isNameByte (Bytes.byte ',') = false by decide) [])
  exact hscan.trans (List.append_nil _)

namespace Graph

/-- **Unions and aliases use what is bound.** The members of a union and the alias of a top-level mention a declared
type without quotation marks only if its declaration is complete on an earlier line. Apart from comments a name is
quoted only in a member of a union, it is the name of a union that comes later, and then the dependencies of the graph
have a cycle; no alias has a quoted name. Every declared union and every alias can be read in the lines, and mentions
all declared types that are met when it is written. -/
theorem Built.bound_before_use (hu : u.Standard) (hg : g.Built) (o : Options) (hnone : ¬ g.NoneReachable) :
    let names := NameTable.ofGraph u o g
    ∃ lines, (g.render u o).result = .ok lines ∧
      (∀ k e, (∃ union, MemberLine lines union k e) ∨ (∃ name, AliasLine lines name k e) →
        ∀ id ∈ g.declared o.declareUnions, ∀ name, names.type id = .ok name → ⟨name, false⟩ ∈ Bytes.mentions e →
          BoundBefore lines name k) ∧
      (∀ (k : Nat) l word, lines[k]? = some l → ⟨word, true⟩ ∈ Bytes.mentions l →
        (∃ text, l = Bytes.ascii "# " ++ text) ∨
          (∃ union e, MemberLine lines union k e ∧ ⟨word, true⟩ ∈ Bytes.mentions e) ∧
          (∃ id ∈ g.declared o.declareUnions, g.isUnionAt id = true ∧ names.type id = .ok word) ∧
          (∃ j > k, lines[j]? = some (unionHead word)) ∧ ¬ BoundBefore lines word k ∧
          (g.orderedFor o).hasCycles = true) ∧
      (∀ name k e, AliasLine lines name k e → ∀ w ∈ Bytes.mentions e, w.quoted = false) ∧
      (∀ id ∈ g.declared o.declareUnions, g.isUnionAt id = true → ∃ union, names.type id = .ok union ∧
        ∃ first, lines[first]? = some (unionHead union) ∧ ∀ (r : Nat) t, (g.children id)[r]? = some t →
          ∃ e, MemberLine lines union (first + (r + 1)) e ∧ ∀ d ∈ g.declared o.declareUnions,
            g.Shows o.declareUnions t d → ∃ w ∈ Bytes.mentions e, names.type d = .ok w.word) ∧
      ∀ top ∈ g.aliasTops o.declareUnions, ∃ name, names.topLevel top.2 = .ok name ∧
        ∃ k e, AliasLine lines name k e ∧ ∀ d ∈ g.declared o.declareUnions,
          g.Shows o.declareUnions top.1.type d → ∃ w ∈ Bytes.mentions e, names.type d = .ok w.word := by
  intro names
  have h := hg.wellFormed
  obtain ⟨m, hm, hresult⟩ := h.exists_module u o hnone
  refine ⟨m.lines, hresult, ?_, ?_, ?_, ?_, ?_⟩
  · rintro k e (⟨union, hline⟩ | ⟨name, hline⟩) id hid name' hname hmem
    · exact hm.boundBefore_of_memberLine hu h hline hid hname hmem
    · exact hm.boundBefore_of_aliasLine hu h hline hid hname
  · intro k l word hl hmem
    rcases hm.comment_or_member_of_quote_mem hu h hl (Bytes.quote_mem_of_mem_mentions hmem) with
      hcomment | ⟨i, union, r, x, hget, hx, rfl, rfl⟩
    · exact Or.inl hcomment
    · obtain ⟨id, -, -, t, -, hwrites⟩ := hm.exists_member h hget (List.mem_of_getElem? hx)
      rw [mentions_memberLine (hwrites.isName hu)] at hmem
      obtain ⟨hcycle, d, hd, hunion, hname, hlater⟩ := hm.quoted_member h hget hx hmem
      refine Or.inr
        ⟨⟨union.name, x.text, ?_, ?_⟩, ⟨d, hd, hunion, hname⟩, ⟨m.declLine (g.rank o d), hlater, ?_⟩, ?_, hcycle⟩
      · exact Module.memberLine_of_getElem? (hm.spelled hu) hget hx
      · rwa [hwrites.mentions_text hu]
      · obtain ⟨j, v, hrank, hv, hdecl⟩ := hm.exists_union h (h.mem_unionOrder_iff.mpr ⟨hd, hunion⟩)
        rw [hrank, Except.ok.inj (hname.symm.trans hdecl.name)]
        exact Module.getElem?_unionHead hv
      · intro hbound
        obtain ⟨j, hj, hlt⟩ := (hm.spelled hu).exists_of_boundBefore (NameTable.isName_of_type hu hname) hbound
        rw [← hm.rank_of_getElem?_declNames h hname hj] at hlt
        omega
  · intro name k e hline w hw
    obtain ⟨i, a, ha, -, rfl, -⟩ := (hm.spelled hu).aliasLine hline
    have hmem := List.mem_of_getElem? ha
    obtain ⟨top, -, hnames⟩ := exists_of_forall₂_right hm.aliases hmem
    exact hm.quoted_alias h hmem w (hnames.type.mentions_text hu ▸ hw)
  · intro id hid hunion
    obtain ⟨i, union, -, hget, hdecl⟩ := hm.exists_union h (h.mem_unionOrder_iff.mpr ⟨hid, hunion⟩)
    refine ⟨union.name, hdecl.name, m.declLine (m.blocks.length + i), Module.getElem?_unionHead hget, fun r t ht => ?_⟩
    obtain ⟨x, hx, hwrites⟩ := getElem?_of_forall₂ hdecl.members ht
    exact ⟨x.text, Module.memberLine_of_getElem? (hm.spelled hu) hget hx, fun d => hwrites.exists_mention hu h⟩
  · intro top htop
    obtain ⟨i, hi⟩ := List.getElem?_of_mem htop
    obtain ⟨a, ha, hnames⟩ := getElem?_of_forall₂ hm.aliases hi
    exact ⟨a.name, hnames.name, _, a.type.text, Module.aliasLine_of_getElem? (hm.spelled hu) ha,
      fun d => hnames.type.exists_mention hu h⟩

/-- The first union of the knot has the second one as a member, which it quotes. -/
theorem knot_quotes_later_union :
    knot.Built ∧ ¬ knot.NoneReachable ∧ ∃ lines, (knot.render .ascii ⟨true, false, []⟩).result = .ok lines ∧
      ∃ union k e word, MemberLine lines union k e ∧ ⟨word, true⟩ ∈ Bytes.mentions e ∧
        (∃ j > k, lines[j]? = some (unionHead word)) ∧ ¬ BoundBefore lines word k := by
  have hu := CharacterData.standard_ascii
  have h := built_knot.wellFormed
  obtain ⟨m, hm, hresult⟩ := h.exists_module .ascii ⟨true, false, []⟩ not_noneReachable_knot
  obtain ⟨lines, hlines, -, hquoted, -⟩ := built_knot.bound_before_use hu ⟨true, false, []⟩ not_noneReachable_knot
  cases hresult.symm.trans hlines
  have horder : knot.unionOrder ⟨true, false, []⟩ = [12, 11] := by cbv
  have hfirst : 0 < m.unions.length := by rw [hm.length_unions, horder]; decide
  have hget : m.unions[0]? = some m.unions[0] := List.getElem?_eq_getElem hfirst
  have hmember : (knot.children 12)[0]? = some 11 := by cbv
  obtain ⟨x, hx, hwrites⟩ := getElem?_of_forall₂ (hm.unions 0 12 _ (by rw [horder]; rfl) hget).members hmember
  have hmentions : Bytes.mentions (fourSpaces ++ (x.text ++ Bytes.ascii ",")) = Bytes.mentions x.text := by
    rw [mentions_memberLine (hwrites.isName hu), hwrites.mentions_text hu]
  have hdeclared : 11 ∈ knot.declared true := by
    rw [declared_knot]
    decide
  obtain ⟨⟨word, quoted⟩, hw, hname⟩ := hwrites.exists_mention hu h hdeclared Relation.ReflTransGen.refl
  have hunion : knot.isUnionAt 11 = true := by cbv
  have hmark : quoted = true := by
    refine (hwrites.shows hu hw hname).2.trans ?_
    simp [ExprContext.quotes, context, hunion]
  subst hmark
  have hline := Module.memberLine_of_getElem? (hm.spelled hu) hget hx
  rcases hquoted _ _ word hline.line (hmentions ▸ hw) with ⟨text, hcomment⟩ | ⟨-, -, hlater, hbound, -⟩
  · cases hcomment
  · exact ⟨built_knot, not_noneReachable_knot, m.lines, hresult, _, _, _, word, hline, hw, hlater, hbound⟩

end Graph

end Typewright
