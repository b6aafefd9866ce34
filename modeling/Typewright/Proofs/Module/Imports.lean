import Mathlib
import Typewright.Proofs.Module.Binding
import Typewright.Proofs.Module.NameContract
import Typewright.Proofs.Module.Needs

/-!
# The import lines of a module

* `isImportLine` : a line is an import statement;
* `ImportTable` : libraries in alphabetical order, each with its names in alphabetical order, and exactly the names that
  are needed;
* `Module.filter_lines` : the import statements of a module stand in its header;
* `Graph.Built.imports_exact` : a rendering imports exactly what can be reached needs.
-/

namespace Typewright

def Import.library : Import → Bytes
  | .any | .optional | .union => Bytes.ascii "typing"
  | .enum => Bytes.ascii "enum"
  | .date | .datetime | .time => Bytes.ascii "datetime"

/-- Whether a line is an import statement. -/
def isImportLine (l : Bytes) : Bool := (Bytes.ascii "from ").isPrefixOf l || (Bytes.ascii "import ").isPrefixOf l

/-- Libraries with the names that are imported from them. -/
structure ImportTable (needed : Import → Prop) (entries : List (Bytes × List Bytes)) : Prop where
  libraries : (entries.map Prod.fst).Pairwise (· < ·)
  sorted : ∀ e ∈ entries, e.2.Pairwise (· < ·)
  ne_nil : ∀ e ∈ entries, e.2 ≠ []
  exact : ∀ library name, (∃ names, (library, names) ∈ entries ∧ name ∈ names) ↔
    ∃ i, needed i ∧ i.library = library ∧ i.name = name

/-! ## Lines that are no imports -/

theorem isImportLine_nil : isImportLine [] = false := rfl

theorem isImportLine_space (s : Bytes) : isImportLine (fourSpaces ++ s) = false := rfl

theorem isImportLine_comment (s : Bytes) : isImportLine (Bytes.ascii "# " ++ s) = false := rfl

/-- A line that starts with a name is an import statement only if the name is one of two keywords. -/
theorem isImportLine_name {n s : Bytes} (hn : IsName n) (hs : Bytes.Apart s) (hfrom : n ≠ Bytes.ascii "from")
    (himport : n ≠ Bytes.ascii "import") : isImportLine (n ++ s) = false := by
  have hword : ∀ w, IsName w → n ≠ w → (w ++ [Bytes.byte ' ']).isPrefixOf (n ++ s) = false := by
    intro w hw hne
    rw [Bool.eq_false_iff]
    intro hpre
    obtain ⟨t, ht⟩ := List.isPrefixOf_iff_prefix.mp hpre
    rw [List.append_assoc] at ht
    exact hne (name_append_inj hw hn (Bytes.apart_cons (by decide) t) hs ht).1.symm
  exact Bool.or_eq_false_iff.mpr ⟨hword _ (by decide) hfrom, hword _ (by decide) himport⟩

theorem isImportLine_of_free {n s : Bytes} (hn : IsName n) (hs : Bytes.Apart s)
    (hfree : n ∉ Identifier.reserved .global) : isImportLine (n ++ s) = false := by
  have hfrom : Bytes.ascii "from" ∈ Identifier.reserved .global := by decide +kernel
  have himport : Bytes.ascii "import" ∈ Identifier.reserved .global := by decide +kernel
  exact isImportLine_name hn hs (fun h => hfree (h ▸ hfrom)) fun h => hfree (h ▸ himport)

/-! ## Paragraphs -/

section Filter

variable {P : Bytes → Bool}

theorem filter_spaced (hP : P [] = false) (ps : List (List Bytes)) :
    (spaced ps).filter P = ps.flatMap (List.filter P) := by
  induction ps with
  | nil => rfl
  | cons p ps ih =>
    cases ps with
    | nil => simp [spaced]
    | cons q ps =>
      rw [spaced, List.filter_append, List.filter_cons_of_neg (by simp [hP]), List.filter_cons_of_neg (by simp [hP]), ih]
      rfl

theorem Module.filter_joinGroups (hP : P [] = false) (groups : List (List Bytes)) :
    (joinGroups groups).filter P = groups.flatMap (List.filter P) := by
  have hfull : groups.flatMap (List.filter P) = (groups.filter fun g => !g.isEmpty).flatMap (List.filter P) := by
    induction groups with
    | nil => rfl
    | cons group groups ih =>
      cases group with
      | nil => simpa using ih
      | cons l group => simp [ih]
  have hgaps : ∀ gs : List (List Bytes), (gs.flatMap ([] :: ·)).filter P = gs.flatMap (List.filter P) := by
    intro gs
    rw [List.filter_flatMap]
    congr 1
    funext group
    exact List.filter_cons_of_neg (by simp [hP])
  rw [hfull, joinGroups]
  split
  · rename_i hnil
    rw [hnil]
    rfl
  · rename_i group gs hcons
    rw [hcons, List.filter_append, hgaps, List.flatMap_cons]

end Filter

namespace Module

variable {m : Module} {u : CharacterData} {g : Graph} {o : Options}

theorem filter_header :
    m.header.filter isImportLine = (if m.postponed then [futureImport] else []) ++ m.importLines := by
  have hcomments : (commentLines (Bytes.ascii "# ") m.comments).filter isImportLine = [] := by
    rw [List.filter_eq_nil_iff]
    intro l hl
    obtain ⟨text, rfl⟩ := mem_commentLines hl
    rw [isImportLine_comment]
    exact Bool.false_ne_true
  have himports : m.importLines.filter isImportLine = m.importLines := by
    rw [List.filter_eq_self]
    intro l hl
    obtain ⟨library, -, used, rfl⟩ := m.mem_importLines hl
    rfl
  rw [header, filter_joinGroups isImportLine_nil]
  simp only [List.flatMap_cons, List.flatMap_nil, hcomments, himports, List.nil_append, List.append_nil]
  split
  · rfl
  · rfl

theorem filter_block (b : Block) : b.lines.filter isImportLine = [] := by
  obtain ⟨inner, hlines, hinner⟩ := b.exists_inner
  obtain ⟨mark, -, -, hhead⟩ := b.head_eq
  rw [hlines, hhead, List.filter_eq_nil_iff]
  intro l hl
  rw [Bool.not_eq_true]
  rcases List.mem_cons.mp hl with rfl | hl
  · exact isImportLine_name isName_class (Bytes.apart_cons (by decide) _) (by decide) (by decide)
  · rcases hinner l hl with rfl | ⟨s, rfl⟩
    · exact isImportLine_nil
    · exact isImportLine_space s

theorem filter_union {u : UnionBlock} (hname : IsName u.name) (hfree : u.name ∉ Identifier.reserved .global) :
    u.lines.filter isImportLine = [] := by
  rw [List.filter_eq_nil_iff]
  intro l hl
  rw [Bool.not_eq_true]
  obtain ⟨r, hr⟩ := List.mem_iff_getElem?.mp hl
  rcases UnionBlock.cases_line hr with ⟨-, rfl⟩ | ⟨r', x, -, -, rfl⟩ | rfl
  · exact isImportLine_of_free hname (Bytes.apart_cons (by decide) _) hfree
  · exact isImportLine_space _
  · rfl

theorem filter_aliases (hname : ∀ a ∈ m.aliases, IsName a.name)
    (hfree : ∀ a ∈ m.aliases, a.name ∉ Identifier.reserved .global) :
    (m.aliases.map Alias.text).filter isImportLine = [] := by
  rw [List.filter_eq_nil_iff]
  intro l hl
  obtain ⟨a, ha, rfl⟩ := List.mem_map.mp hl
  rw [Bool.not_eq_true, a.text_eq]
  exact isImportLine_of_free (hname a ha) (Bytes.apart_cons (by decide) _) (hfree a ha)

/-- **The import statements of a module stand in its header.** -/
theorem Renders.filter_lines (hu : u.Standard) (hm : m.Renders u g o) :
    m.lines.filter isImportLine = (if m.postponed then [futureImport] else []) ++ m.importLines := by
  have hunions : ∀ union ∈ m.unions, union.name ∉ Identifier.reserved .global := by
    intro union hmem
    obtain ⟨k, hk⟩ := List.mem_iff_getElem?.mp hmem
    have hlt : k < (g.unionOrder o).length := hm.length_unions ▸ (List.getElem?_eq_some_iff.mp hk).1
    exact NameTable.not_reserved_of_type (hm.unions k _ union (List.getElem?_eq_getElem hlt) hk).name
  have haliases : ∀ a ∈ m.aliases, a.name ∉ Identifier.reserved .global := by
    intro a ha
    obtain ⟨top, -, htop⟩ := exists_of_forall₂_right hm.aliases ha
    have hglobal := (NameTable.topLevel_eq_ok_iff.mp htop.name).2
    exact assignNames_not_mem _ _ _ (List.mem_of_getElem? hglobal)
  have hdeclarations : m.declarations.flatMap (List.filter isImportLine) = [] := by
    rw [List.flatMap_eq_nil_iff]
    intro p hp
    rcases List.mem_append.mp hp with hp | hp
    · obtain ⟨b, -, rfl⟩ := List.mem_map.mp hp
      exact filter_block b
    · obtain ⟨union, hunion, rfl⟩ := List.mem_map.mp hp
      exact filter_union ((hm.spelled hu).unions union hunion) (hunions union hunion)
  have hbottom : m.bottom.flatMap (List.filter isImportLine) = [] := by
    unfold bottom
    split
    · rfl
    · rw [List.flatMap_singleton]
      exact filter_aliases (hm.spelled hu).aliases haliases
  have htop : m.top.flatMap (List.filter isImportLine) = m.header.filter isImportLine := by
    unfold top
    split
    · rename_i hempty
      rw [List.isEmpty_iff.mp hempty]
      rfl
    · rw [List.flatMap_singleton]
  rw [lines_eq, filter_spaced isImportLine_nil, paragraphs, List.flatMap_append, List.flatMap_append, hdeclarations,
    hbottom, htop, List.append_nil, List.append_nil, filter_header]

/-! ## The table of imports -/

/-- The libraries with the names that they offer. -/
def libraries : List (String × List Import) :=
  [("datetime", [.date, .datetime, .time]), ("enum", [.enum]), ("typing", [.any, .optional, .union])]

/-- What is imported from each library, if anything is. -/
def importTable (needed : List Import) : List (Bytes × List Bytes) :=
  (libraries.map fun l => (Bytes.ascii l.1, (l.2.filter (· ∈ needed)).map Import.name)).filter fun e => !e.2.isEmpty

theorem importLines_eq : m.importLines = (importTable m.imports).map fun e => importOf e.1 e.2 := by
  have hline : ∀ library names, importLine library names m.imports =
      ([(Bytes.ascii library, (names.filter (· ∈ m.imports)).map Import.name)].filter fun e => !e.2.isEmpty).map
        fun e => importOf e.1 e.2 := by
    intro library names
    by_cases hnil : names.filter (· ∈ m.imports) = []
    · simp [importLine, hnil]
    · have hne : importLine library names m.imports ≠ [] := by
        unfold importLine
        split
        · contradiction
        · exact List.cons_ne_nil _ _
      rw [importLine_eq hne]
      simp [hnil]
  rw [importLines, hline, hline, hline, ← List.map_append, ← List.filter_append, ← List.map_append, ← List.filter_append]
  rfl

theorem importTable_spec (needed : List Import) : ImportTable (· ∈ needed) (importTable needed) where
  libraries := by
    have hall : (libraries.map fun l => Bytes.ascii l.1).Pairwise (· < ·) := by decide +kernel
    refine hall.sublist ?_
    have hsub := (List.filter_sublist (p := fun e : Bytes × List Bytes => !e.2.isEmpty)
      (l := libraries.map fun l => (Bytes.ascii l.1, (l.2.filter (· ∈ needed)).map Import.name))).map Prod.fst
    rwa [List.map_map] at hsub
  sorted e he := by
    obtain ⟨l, hl, rfl⟩ := List.mem_map.mp (List.mem_filter.mp he).1
    have hall : ∀ l ∈ libraries, (l.2.map Import.name).Pairwise (· < ·) := by decide +kernel
    exact (hall l hl).sublist (List.filter_sublist.map Import.name)
  ne_nil e he := by simpa using (List.mem_filter.mp he).2
  exact library name := by
    have hoffers : ∀ l ∈ libraries, ∀ i ∈ l.2, i.library = Bytes.ascii l.1 := by decide +kernel
    have hoffered : ∀ i : Import, ∃ l ∈ libraries, i ∈ l.2 := by
      intro i
      cases i <;> decide
    constructor
    · intro h
      obtain ⟨names, hmem, hname⟩ := h
      obtain ⟨l, hl, hentry⟩ := List.mem_map.mp (List.mem_filter.mp hmem).1
      obtain ⟨rfl, rfl⟩ := Prod.mk.inj hentry
      obtain ⟨i, hi, rfl⟩ := List.mem_map.mp hname
      obtain ⟨hi, hneeded⟩ := List.mem_filter.mp hi
      exact ⟨i, of_decide_eq_true hneeded, hoffers l hl i hi, rfl⟩
    · intro h
      obtain ⟨i, hneeded, rfl, rfl⟩ := h
      obtain ⟨l, hl, hi⟩ := hoffered i
      have hname : i.name ∈ (l.2.filter (· ∈ needed)).map Import.name :=
        List.mem_map_of_mem (List.mem_filter.mpr ⟨hi, decide_eq_true hneeded⟩)
      refine ⟨_, List.mem_filter.mpr ⟨List.mem_map.mpr ⟨l, hl, ?_⟩, ?_⟩, hname⟩
      · rw [hoffers l hl i hi]
      · simpa using List.ne_nil_of_mem hname

end Module

theorem ImportTable.congr {needed needed' : Import → Prop} {entries : List (Bytes × List Bytes)}
    (h : ImportTable needed entries) (hneeded : ∀ i, needed i ↔ needed' i) : ImportTable needed' entries :=
  ⟨h.libraries, h.sorted, h.ne_nil, by simpa only [hneeded] using h.exact⟩

/-! ## Renderings -/

namespace Graph

variable {u : CharacterData} {g : Graph}

/-- **A rendering imports exactly what is needed.** If the sentinel cannot be reached, then the import statements among
the lines are the switch for annotations, if it is wanted, and one statement for each library of which a name is
needed. -/
theorem Built.imports_exact (hu : u.Standard) (hg : g.Built) (o : Options) (hnone : ¬ g.NoneReachable) :
    ∃ lines entries, (g.render u o).result = .ok lines ∧ ImportTable (g.Needs o) entries ∧
      lines.filter isImportLine =
        (if needsPostponed g (g.orderedFor o) o.declareUnions then [Module.futureImport] else []) ++
          entries.map fun e => Module.importOf e.1 e.2 := by
  have h := hg.wellFormed
  have hmodule := h.module_ends u o
  obtain ⟨r, hr, hm⟩ := hmodule.exists_ok fun s hs => hnone hs.2
  have hrender : (g.render u o).result = .ok r.1.lines := by
    unfold Graph.render Renderer.render
    simp only [Renderer.new, hr]
  have hneeds := (h.mem_imports_iff o).of_ok hr
  refine ⟨r.1.lines, Module.importTable r.1.imports, hrender, (Module.importTable_spec _).congr hneeds, ?_⟩
  rw [hm.filter_lines hu, hm.postponed, Module.importLines_eq]

/-- A class with a date, with anything and with an enum that may be missing. A nullable type stands apart. -/
def eventCalls : List Call := [
  .enum (Bytes.ascii "kind") [Bytes.ascii "a"],
  .record (Bytes.ascii "event") [⟨Bytes.ascii "day", 7, false⟩, ⟨Bytes.ascii "payload", 1, true⟩,
    ⟨Bytes.ascii "kind", 10, true⟩],
  .nullable 11,
  .topLevel (Bytes.ascii "event") 11]

def event : Graph := eventCalls.foldl after empty

theorem built_event : event.Built := ⟨eventCalls, rfl⟩

theorem not_noneReachable_event : ¬ event.NoneReachable := by
  intro h
  obtain ⟨top, htop, hreach⟩ := h
  have hmem := built_event.wellFormed.mem_reachable_iff.mpr ⟨top, htop, hreach⟩
  have hlist : event.reachable = [11, 7, 1, 10] := by cbv
  rw [hlist] at hmem
  exact absurd hmem (by decide)

theorem event_imports_exact :
    event.Built ∧ ¬ event.NoneReachable ∧ ∃ lines entries, (event.render .ascii .default).result = .ok lines ∧
      ImportTable (event.Needs .default) entries ∧ lines.filter isImportLine =
        (if needsPostponed event (event.orderedFor .default) false then [Module.futureImport] else []) ++
          entries.map fun e => Module.importOf e.1 e.2 :=
  ⟨built_event, not_noneReachable_event,
    built_event.imports_exact CharacterData.standard_ascii .default not_noneReachable_event⟩

end Graph

end Typewright
