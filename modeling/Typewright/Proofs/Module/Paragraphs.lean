import Typewright.Proofs.Module.Imports
import Typewright.Proofs.Module.NameContract

/-!
# The layout of a module

* `Framed` : lines of which neither the first nor the last is empty;
* `SignatureText`, `BlockText`, `UnionText`, `AliasText` : the lines of a declaration and of an alias, said by the
  names that were given and by the texts of types;
* `Module.Parts`, `Module.Layout` : which parts a module has and what stands in them;
* `Graph.Built.module_layout` : the lines of a rendering are laid out that way.
-/

namespace Typewright

/-! ## Lines between parts -/

theorem spaced_eq_intercalate (ps : List (List Bytes)) : spaced ps = [[], []].intercalate ps := by
  induction ps using spaced.induct with
  | case1 => rw [spaced, List.intercalate_nil]
  | case2 p => rw [spaced, List.intercalate_singleton]
  | case3 p q ps ih =>
    rw [spaced, List.intercalate_cons_cons, ih, List.append_assoc]
    rfl

theorem append_flatMap_eq_intercalate (group : List Bytes) (groups : List (List Bytes)) :
    group ++ groups.flatMap ([] :: ·) = [[]].intercalate (group :: groups) := by
  induction groups generalizing group with
  | nil => rw [List.flatMap_nil, List.append_nil, List.intercalate_singleton]
  | cons next groups ih =>
    rw [List.flatMap_cons, List.intercalate_cons_cons, ← ih, List.append_assoc]
    rfl

theorem joinGroups_eq_intercalate (groups : List (List Bytes)) :
    Module.joinGroups groups = [[]].intercalate (groups.filter fun group => !group.isEmpty) := by
  unfold Module.joinGroups
  split
  · next hnil => rw [hnil, List.intercalate_nil]
  · next group rest hcons => rw [hcons, append_flatMap_eq_intercalate]

/-- Some lines, of which neither the first nor the last is empty. -/
structure Framed (p : List Bytes) : Prop where
  ne_nil : p ≠ []
  first : p.head? ≠ some []
  last : p.getLast? ≠ some []

theorem Framed.of_solid {p : List Bytes} (h : Solid p) (hfirst : p.head? ≠ some []) : Framed p := by
  refine ⟨h.ne_nil, hfirst, fun hnil => ?_⟩
  obtain ⟨front, last, rfl, hlast⟩ := h
  rw [List.getLast?_concat] at hnil
  exact hlast (Option.some.inj hnil)

theorem Framed.of_forall {p : List Bytes} (hp : p ≠ []) (h : ∀ l ∈ p, l ≠ []) : Framed p :=
  .of_solid (.of_forall hp h) fun hnil => h [] (List.mem_of_head? hnil) rfl

theorem Framed.append {p q : List Bytes} (hp : Framed p) (sep : List Bytes) (hq : Framed q) :
    Framed (p ++ sep ++ q) := by
  refine ⟨List.append_ne_nil_of_right_ne_nil _ hq.ne_nil, ?_, ?_⟩
  · rw [List.append_assoc, List.head?_append_of_ne_nil p hp.ne_nil]
    exact hp.first
  · rw [List.getLast?_append_of_ne_nil _ hq.ne_nil]
    exact hq.last

theorem Framed.intercalate (sep : List Bytes) {ps : List (List Bytes)} (hne : ps ≠ []) (h : ∀ p ∈ ps, Framed p) :
    Framed (sep.intercalate ps) := by
  induction ps with
  | nil => exact absurd rfl hne
  | cons p ps ih =>
    obtain ⟨hp, hps⟩ := List.forall_mem_cons.mp h
    cases ps with
    | nil =>
      rw [List.intercalate_singleton]
      exact hp
    | cons q ps =>
      rw [List.intercalate_cons_cons]
      exact hp.append sep (ih (List.cons_ne_nil q ps) hps)

/-! ## The lines of a declaration -/

/-- A field or a parameter with its type. -/
def annotated (name type : Bytes) : Bytes := name ++ Bytes.ascii ": " ++ type

def signatureLine (params : List Bytes) : Bytes :=
  fourSpaces ++ (Bytes.ascii "def __init__(" ++ Bytes.join (Bytes.ascii ", ") (Bytes.ascii "self" :: params)
    ++ Bytes.ascii ") -> None:")

/-- The signature of a constructor with some parameters behind `self`: one line of at most 79 bytes, or if that is
not enough a line for each parameter. -/
inductive SignatureText (params : List Bytes) : List Bytes → Prop where
  | oneLine (fits : (signatureLine params).length ≤ 79) : SignatureText params [signatureLine params]
  | exploded (wide : 79 < (signatureLine params).length) : SignatureText params
      ((fourSpaces ++ Bytes.ascii "def __init__(") ::
        ((Bytes.ascii "self" :: params).map (fun p => fourSpaces ++ fourSpaces ++ (p ++ Bytes.ascii ","))
          ++ [fourSpaces ++ Bytes.ascii ") -> None:"]))

variable {u : CharacterData} {g : Graph} {o : Options} {id : TypeId}

/-- The text of the type of a property in the declaration of a class. -/
def PropertyText (u : CharacterData) (g : Graph) (o : Options) (className : Bytes) (p : Property)
    (text : Bytes) : Prop :=
  ∃ e : TypeExpr, propertyExpr ((g.context u o false []).atPlace (.property p.name className)) g p = .ok e ∧
    text = e.text

/-- The text of a type at a place where the unions `bound` are declared before. -/
def TypeText (u : CharacterData) (g : Graph) (o : Options) (bound : List TypeId) (place : Place) (id : TypeId)
    (text : Bytes) : Prop :=
  ∃ e : TypeExpr, typeExpr ((g.context u o true bound).atPlace place) g id = .ok e ∧ text = e.text

/-- The lines of the declaration of a class or of an enum. The cases of an enum have their numbers, from zero on, as far
as these fit in 32 bits. -/
inductive BlockText (u : CharacterData) (g : Graph) (o : Options) (id : TypeId) : List Bytes → Prop where
  | emptyClass {name hint : Bytes} (node : g.node? id = some (.record hint []))
      (named : (NameTable.ofGraph u o g).type id = .ok name) : BlockText u g o id
      [classHead name, fourSpaces ++ Bytes.ascii "pass"]
  | record {name hint : Bytes} {ps : List Property} {names types : List Bytes} {signature : List Bytes}
      (node : g.node? id = some (.record hint ps)) (ne : ps ≠ [])
      (named : (NameTable.ofGraph u o g).type id = .ok name)
      (names_eq : (NameTable.ofGraph u o g).propertiesOf id = .ok names) (length_names : names.length = ps.length)
      (types_eq : List.Forall₂ (PropertyText u g o name) ps types)
      (signed : SignatureText (List.zipWith annotated names types) signature) : BlockText u g o id
      (classHead name ::
        ((List.zipWith annotated names types).map (fourSpaces ++ ·) ++ [] :: (signature
          ++ names.map fun n => fourSpaces ++ fourSpaces ++ (Bytes.ascii "self." ++ n ++ Bytes.ascii " = " ++ n))))
  | emptyEnum {name hint : Bytes} (node : g.node? id = some (.enum hint []))
      (named : (NameTable.ofGraph u o g).type id = .ok name) : BlockText u g o id
      [enumHead name, fourSpaces ++ Bytes.ascii "pass"]
  | enum {name hint : Bytes} {cases names : List Bytes} (node : g.node? id = some (.enum hint cases))
      (ne : cases ≠ []) (named : (NameTable.ofGraph u o g).type id = .ok name)
      (names_eq : (NameTable.ofGraph u o g).casesOf id = .ok names) (length_names : names.length = cases.length)
      {number : Nat → Bytes} (number_eq : ∀ i < 2 ^ 31, number i = Bytes.decimal i) : BlockText u g o id
      (enumHead name :: names.zipIdx.map fun n => fourSpaces ++ (n.1 ++ Bytes.ascii " = " ++ number n.2))

/-- The lines of the declaration of a union if the unions `bound` are declared before it. -/
inductive UnionText (u : CharacterData) (g : Graph) (o : Options) (bound : List TypeId) (id : TypeId) :
    List Bytes → Prop where
  | union {name hint : Bytes} {members : List TypeId} {types : List Bytes}
      (node : g.node? id = some (.union hint members)) (named : (NameTable.ofGraph u o g).type id = .ok name)
      (types_eq : List.Forall₂ (TypeText u g o bound (.union name)) members types) :
      UnionText u g o bound id
      (unionHead name ::
        (types.map (fun t => fourSpaces ++ (t ++ Bytes.ascii ",")) ++ [Bytes.ascii "]"]))

/-- The line of the alias for a top-level if the unions `bound` are declared before it. -/
inductive AliasText (u : CharacterData) (g : Graph) (o : Options) (bound : List TypeId) (top : TopLevel × Nat) :
    Bytes → Prop where
  | alias {name type : Bytes} (named : (NameTable.ofGraph u o g).topLevel top.2 = .ok name)
      (type_eq : TypeText u g o bound (.topLevel top.1.name) top.1.type type) :
      AliasText u g o bound top (name ++ Bytes.ascii " = " ++ type)

/-! ## Declarations as they are written -/

theorem signatureText_signatureLines (fields : List Field) :
    SignatureText (fields.map Field.text) (signatureLines fields) := by
  have hlength : (signatureLine (fields.map Field.text)).length = fourSpaces.length + _ := List.length_append
  unfold signatureLines
  dsimp only
  split
  · next hfits => exact .oneLine (hlength ▸ hfits)
  · next hwide =>
    have htext : SignatureText (fields.map Field.text) _ := .exploded (hlength ▸ Nat.lt_of_not_le hwide)
    rwa [List.map_cons, List.map_map] at htext

theorem Block.lines_record {fields : List Field} (name : Bytes) (hne : fields ≠ []) :
    (Block.record name fields).lines = classHead name ::
      ((fields.map Field.text).map (fourSpaces ++ ·) ++ [] :: (signatureLines fields ++ (fields.map Field.name).map
        fun n => fourSpaces ++ fourSpaces ++ (Bytes.ascii "self." ++ n ++ Bytes.ascii " = " ++ n))) := by
  rw [Block.lines, if_neg (by rwa [List.isEmpty_iff]), List.map_map, List.map_map]
  rfl

theorem map_text_zipWith (names : List Bytes) (types : List TypeExpr) :
    (List.zipWith Field.mk names types).map Field.text = List.zipWith annotated names (types.map TypeExpr.text) := by
  rw [List.map_zipWith, List.zipWith_map_right]
  rfl

theorem eq_ok_of_mapError {ε ε' α : Type} {x : Except ε α} {f : ε → ε'} {a : α} (h : x.mapError f = .ok a) :
    x = .ok a := by
  cases x with
  | error e => cases h
  | ok a' => exact congrArg Except.ok (Except.ok.inj h)

/-- What is returned in a context is what is returned. -/
theorem ExprContext.tryIn_ends (c : ExprContext) {α : Type} (x : Except RenderError α) :
    Ends (c.tryIn x) (fun _ => True) (fun a => x = .ok a) := by
  cases x with
  | error e => trivial
  | ok a => rfl

theorem recordBlock_text (hid : id ∈ g.declared o.declareUnions) {hint : Bytes} {ps : List Property}
    (hn : g.node? id = some (.record hint ps)) :
    Ends (recordBlock (g.context u o false []) g id ps) (fun _ => True) (fun b => BlockText u g o id b.lines) := by
  have hnames : (g.context u o false []).names.propertiesOf id = .ok (propertyNames u o ps) :=
    NameTable.propertiesOf_record hid hn
  unfold recordBlock
  refine (typeName_context false [] hid).bind fun name _ hname => ?_
  rw [hnames]
  refine (Ends.mapM fun p _ => ExprContext.tryIn_ends ((g.context u o false []).atPlace (.property p.name name))
    (propertyExpr _ g p)).bind fun types _ htypes => ?_
  have hlength := length_propertyNames u o ps
  obtain ⟨hfields, -⟩ := forall₂_zipWith_field hlength htypes
  by_cases hps : ps = []
  · subst hps
    cases htypes
    change BlockText u g o id (Block.record name (List.zipWith Field.mk _ [])).lines
    rw [List.zipWith_nil_right]
    exact .emptyClass hn hname
  · have hne : List.zipWith Field.mk (propertyNames u o ps) types ≠ [] := by
      intro hnil
      rw [hnil, List.map_nil] at hfields
      rw [← hfields, List.length_nil, eq_comm, List.length_eq_zero_iff] at hlength
      exact hps hlength
    change BlockText u g o id (Block.record name _).lines
    have htexts : List.Forall₂ (PropertyText u g o name) ps (types.map TypeExpr.text) :=
      List.forall₂_map_right_iff.mpr (htypes.imp fun p e he => ⟨e, he, rfl⟩)
    have hsigned := signatureText_signatureLines (List.zipWith Field.mk (propertyNames u o ps) types)
    rw [map_text_zipWith] at hsigned
    rw [Block.lines_record name hne, hfields, map_text_zipWith]
    exact .record hn hps hname hnames hlength htexts hsigned

theorem caseNumber_eq_decimal {i : Nat} (h : i < 2 ^ 31) : caseNumber i = Bytes.decimal i := by
  rw [caseNumber, Int32.toInt_ofNat_of_lt h]
  rfl

theorem enumBlock_text (hid : id ∈ g.declared o.declareUnions) {hint : Bytes} {cs : List Bytes}
    (hn : g.node? id = some (.enum hint cs)) :
    Ends (enumBlock (g.context u o false []) id) (fun _ => True) (fun b => BlockText u g o id b.lines) := by
  have hnames : (g.context u o false []).names.casesOf id = .ok (caseNames u o cs) := NameTable.casesOf_enum hid hn
  have hlength := length_caseNames u o cs
  unfold enumBlock
  refine (typeName_context false [] hid).bind fun name _ hname => ?_
  rw [hnames]
  change BlockText u g o id (Block.enum name (caseNames u o cs)).lines
  by_cases hcs : cs = []
  · subst hcs
    rw [List.eq_nil_of_length_eq_zero hlength]
    exact .emptyEnum hn hname
  · have hne : caseNames u o cs ≠ [] := by
      intro hnil
      rw [hnil, List.length_nil, eq_comm, List.length_eq_zero_iff] at hlength
      exact hcs hlength
    rw [Block.lines, if_neg (by rwa [List.isEmpty_iff])]
    exact .enum hn hcs hname hnames hlength fun _ => caseNumber_eq_decimal

theorem unionBlock_text (bound : List TypeId) (hid : id ∈ g.declared o.declareUnions)
    (hunion : g.isUnionAt id = true) :
    Ends (unionBlock (g.context u o true bound) g id) (fun _ => True)
      (fun union => UnionText u g o bound id union.lines) := by
  obtain ⟨hint, members, hn⟩ := Graph.isUnionAt_iff.mp hunion
  have hchildren : g.children id = members := Graph.children_of_node? hn
  unfold unionBlock
  refine (typeName_context true bound hid).bind fun name _ hname => ?_
  rw [hchildren]
  refine (Ends.mapM fun m _ => ExprContext.tryIn_ends ((g.context u o true bound).atPlace (.union name))
    (typeExpr _ g m)).bind fun types _ htypes => ?_
  have htext : UnionText u g o bound id _ := .union hn hname
    (List.forall₂_map_right_iff.mpr (htypes.imp fun m e he => ⟨e, he, rfl⟩))
  rwa [List.map_map] at htext

theorem aliasFor_text (bound : List TypeId) (top : TopLevel × Nat) :
    Ends (aliasFor (g.context u o true bound) g top.1 top.2) (fun _ => True)
      (fun a => AliasText u g o bound top a.text) := by
  unfold aliasFor
  refine (ExprContext.tryIn_ends _ _).bind fun name _ hname => ?_
  refine (ExprContext.tryIn_ends _ _).bind fun type _ htype => ?_
  exact .alias (eq_ok_of_mapError hname) ⟨type, htype, rfl⟩

/-! ## The parts of a module -/

namespace Module

/-- The lines of a module part by part; the header and the aliases may be missing. -/
structure Parts where
  header : List Bytes
  blocks : List (List Bytes)
  unions : List (List Bytes)
  aliases : List Bytes

def Parts.paragraphs (p : Parts) : List (List Bytes) :=
  (p.header :: (p.blocks ++ p.unions ++ [p.aliases])).filter fun q => !q.isEmpty

/-- What stands in the parts of a module. Comments, the switch for annotations and the imports make the header. Each
type that is to be declared has one part, classes and enums before unions and otherwise dependencies first. The last
part has a line for each top-level that does not introduce its type, in their order. -/
structure Layout (u : CharacterData) (g : Graph) (o : Options) (lines : List Bytes) (p : Parts) : Prop where
  lines_eq : lines = [[], []].intercalate p.paragraphs
  framed : ∀ q ∈ p.paragraphs, Framed q
  ends : lines.head? ≠ some [] ∧ lines.getLast? ≠ some []
  header : ∃ entries, ImportTable (g.Needs o) entries ∧ p.header = [[]].intercalate ([
    commentLines (Bytes.ascii "# ") o.comments,
    if needsPostponed g (g.orderedFor o) o.declareUnions then [futureImport] else [],
    entries.map fun e => importOf e.1 e.2].filter fun group => !group.isEmpty)
  declared : (g.blockOrder o ++ g.unionOrder o).Nodup ∧
    (g.blockOrder o ++ g.unionOrder o).Perm (g.declared o.declareUnions)
  blocks : List.Forall₂ (BlockText u g o) (g.blockOrder o) p.blocks
  length_unions : p.unions.length = (g.unionOrder o).length
  unions : ∀ i id ls, (g.unionOrder o)[i]? = some id → p.unions[i]? = some ls →
    UnionText u g o ((g.unionOrder o).take i).reverse id ls
  aliases : List.Forall₂ (AliasText u g o (g.unionOrder o).reverse) (g.aliasTops o.declareUnions) p.aliases
  tops : (g.aliasTops o.declareUnions).Sublist g.tops.zipIdx ∧ ∀ t i, (t, i) ∈ g.aliasTops o.declareUnions ↔
    g.tops[i]? = some t ∧ ¬ g.Introduces o.declareUnions i t.type

def parts (m : Module) : Parts :=
  ⟨m.header, m.blocks.map Block.lines, m.unions.map UnionBlock.lines, m.aliases.map Alias.text⟩

variable (m : Module)

theorem framed_header (hne : m.header ≠ []) : Framed m.header := by
  have heq : m.header = [[]].intercalate _ := joinGroups_eq_intercalate _
  rw [heq] at hne ⊢
  refine Framed.intercalate _ (fun hnil => hne (by rw [hnil, List.intercalate_nil])) fun group hgroup => ?_
  obtain ⟨hgroup, hnil⟩ := List.mem_filter.mp hgroup
  exact .of_forall (by simpa using hnil) (m.ne_nil_of_mem_group group hgroup)

theorem framed_declarations : ∀ q ∈ m.declarations, Framed q := by
  have hhead : ∀ b : Block, b.lines.head? ≠ some [] := by
    intro b
    cases b with
    | record name fields => simp [Block.lines, Bytes.ascii]
    | enum name cases => simp [Block.lines, Bytes.ascii]
  intro q hq
  rcases List.mem_append.mp hq with hq | hq
  · obtain ⟨b, -, rfl⟩ := List.mem_map.mp hq
    exact .of_solid b.solid_lines (hhead b)
  · obtain ⟨u, -, rfl⟩ := List.mem_map.mp hq
    exact .of_solid u.solid_lines (by simp [UnionBlock.lines, Bytes.ascii])

theorem framed_aliases (hne : m.aliases.map Alias.text ≠ []) : Framed (m.aliases.map Alias.text) :=
  .of_forall hne (List.forall_mem_map.mpr fun a _ => a.text_ne_nil)

theorem framed_parts : ∀ q ∈ m.parts.paragraphs, Framed q := by
  intro q hq
  obtain ⟨hq, hne⟩ := List.mem_filter.mp hq
  have hne : q ≠ [] := by simpa using hne
  rcases List.mem_cons.mp hq with rfl | hq
  · exact m.framed_header hne
  · rcases List.mem_append.mp hq with hq | hq
    · exact m.framed_declarations q hq
    · obtain rfl := List.mem_singleton.mp hq
      exact m.framed_aliases hne

theorem paragraphs_parts : m.parts.paragraphs = m.paragraphs := by
  have hdeclarations : (m.declarations.filter fun q => !q.isEmpty) = m.declarations :=
    List.filter_eq_self.mpr fun q hq => by simpa using (m.framed_declarations q hq).ne_nil
  have hsingle : ∀ q : List Bytes, ([q].filter fun q => !q.isEmpty) = if q.isEmpty then [] else [q] := by
    intro q
    cases q with
    | nil => rfl
    | cons l q => rfl
  have hsplit : m.parts.paragraphs = ([m.header].filter fun q => !q.isEmpty) ++
      ((m.declarations.filter fun q => !q.isEmpty) ++ [m.aliases.map Alias.text].filter fun q => !q.isEmpty) := by
    rw [← List.filter_append, ← List.filter_append]
    rfl
  rw [hsplit, hdeclarations, hsingle, hsingle, List.isEmpty_map]
  rfl

theorem lines_eq_intercalate : m.lines = [[], []].intercalate m.parts.paragraphs := by
  rw [m.lines_eq, spaced_eq_intercalate, paragraphs_parts]

theorem lines_ends : m.lines.head? ≠ some [] ∧ m.lines.getLast? ≠ some [] := by
  rw [lines_eq_intercalate]
  by_cases hnil : m.parts.paragraphs = []
  · rw [hnil, List.intercalate_nil]
    exact ⟨by simp, by simp⟩
  · have hframed := Framed.intercalate [[], []] hnil m.framed_parts
    exact ⟨hframed.first, hframed.last⟩

end Module

/-! ## Renderings -/

namespace Graph

theorem aliasTops_sublist (g : Graph) (b : Bool) : (g.aliasTops b).Sublist g.tops.zipIdx := by
  have hsub := (List.filter_sublist (l := g.tops.zipIdx.zip (g.claims b))
    (p := fun x => x.2.isNone)).map Prod.fst
  rw [List.map_fst_zip (by rw [List.length_zipIdx, length_claims])] at hsub
  exact hsub

/-- The parts of the module of a graph have their lines. -/
theorem WellFormed.module_text (h : g.WellFormed) (o : Options) :
    Ends (g.module u o) (fun _ => True) (fun r => r.1.Assembled g o (fun id b => BlockText u g o id b.lines)
      (fun bound id union => UnionText u g o bound id union.lines)
      fun top a => AliasText u g o (g.unionOrder o).reverse top a.text) := by
  refine (h.module_assembled (E := fun _ => True) (fun id hid hint ps => recordBlock_text hid)
    (fun id hid hint cs => enumBlock_text hid) (fun id hid hunion bound => unionBlock_text bound hid hunion)
    fun top _ bound => aliasFor_text bound top).mono (fun _ he => he) fun r hr => hr.2

/-- Two top-levels for the same class, which has an enum that may be missing, and one for a list of a union. -/
def diaryCalls : List Call := [
  .enum (Bytes.ascii "mood") [Bytes.ascii "good", Bytes.ascii "bad"],
  .record (Bytes.ascii "entry") [⟨Bytes.ascii "day", 7, false⟩, ⟨Bytes.ascii "mood", 10, true⟩],
  .record (Bytes.ascii "gap") [],
  .union (Bytes.ascii "page") [11, 12],
  .array 13,
  .topLevel (Bytes.ascii "entry") 11,
  .topLevel (Bytes.ascii "first entry") 11,
  .topLevel (Bytes.ascii "diary") 14]

def diary : Graph := diaryCalls.foldl after empty

theorem built_diary : diary.Built := ⟨diaryCalls, rfl⟩

theorem not_noneReachable_diary : ¬ diary.NoneReachable := by
  intro h
  obtain ⟨top, htop, hreach⟩ := h
  have hmem := built_diary.wellFormed.mem_reachable_iff.mpr ⟨top, htop, hreach⟩
  have hlist : diary.reachable = [11, 7, 10, 14, 13, 12] := by cbv
  rw [hlist] at hmem
  exact absurd hmem (by decide)

end Graph

end Typewright
