import Mathlib.Algebra.Order.Group.Nat
import Typewright.Module.Basic

/-!
# Where the lines of a module stand

* `spaced` : paragraphs with two empty lines between them; `start` is the number of a paragraph's first line, and
  `getElem?_spaced`, `exists_of_getElem?_spaced` say which line has which number;
* `Block.lines`, `UnionBlock.lines` : the lines of a declaration;
* `Module.paragraphs`, `Module.lines_eq` : a module consists of its header, its declarations and its aliases.
-/

namespace Typewright

/-! ## Paragraphs -/

/-- Paragraphs with two empty lines between neighbours. -/
def spaced : List (List Bytes) → List Bytes
  | [] => []
  | [p] => p
  | p :: q :: ps => p ++ [] :: [] :: spaced (q :: ps)

/-- The number of the first line of a paragraph. -/
def start : List (List Bytes) → Nat → Nat
  | [], _ => 0
  | _ :: _, 0 => 0
  | p :: ps, i + 1 => p.length + 2 + start ps i

theorem getElem?_spaced {ps : List (List Bytes)} {i r : Nat} {p : List Bytes} (hi : ps[i]? = some p)
    (hr : r < p.length) : (spaced ps)[start ps i + r]? = p[r]? := by
  induction ps generalizing i with
  | nil => cases hi
  | cons q ps ih =>
    cases i with
    | zero =>
      cases hi
      rw [start, Nat.zero_add]
      cases ps with
      | nil => rfl
      | cons q' ps => rw [spaced, List.getElem?_append_left hr]
    | succ i =>
      cases ps with
      | nil => cases hi
      | cons q' ps =>
        rw [start, spaced, List.getElem?_append_right (by omega),
          show q.length + 2 + start (q' :: ps) i + r - q.length = start (q' :: ps) i + r + 1 + 1 by omega,
          List.getElem?_cons_succ, List.getElem?_cons_succ]
        exact ih hi

/-- A line is empty or belongs to a paragraph. -/
theorem exists_of_getElem?_spaced {ps : List (List Bytes)} {k : Nat} {l : Bytes} (h : (spaced ps)[k]? = some l) :
    l = [] ∨ ∃ i p r, ps[i]? = some p ∧ p[r]? = some l ∧ k = start ps i + r := by
  induction ps generalizing k with
  | nil => cases h
  | cons q ps ih =>
    by_cases hk : k < q.length
    · have hfirst := getElem?_spaced (show (q :: ps)[0]? = some q from rfl) hk
      rw [start, Nat.zero_add, h] at hfirst
      exact Or.inr ⟨0, q, k, rfl, hfirst.symm, by rw [start, Nat.zero_add]⟩
    · cases ps with
      | nil =>
        rw [spaced, List.getElem?_eq_none (Nat.le_of_not_lt hk)] at h
        cases h
      | cons q' ps =>
        rw [spaced, List.getElem?_append_right (Nat.le_of_not_lt hk)] at h
        match hj : k - q.length with
        | 0 =>
          rw [hj] at h
          exact Or.inl (Option.some.inj h).symm
        | 1 =>
          rw [hj] at h
          exact Or.inl (Option.some.inj h).symm
        | j + 2 =>
          rw [hj, List.getElem?_cons_succ, List.getElem?_cons_succ] at h
          rcases ih h with hl | ⟨i, p, r, hi, hr, hk'⟩
          · exact Or.inl hl
          · exact Or.inr ⟨i + 1, p, r, hi, hr, by rw [start]; omega⟩

/-- A paragraph ends two lines before a later one starts. -/
theorem start_add_length_lt {ps : List (List Bytes)} {i j : Nat} {p : List Bytes} (hi : ps[i]? = some p) (hij : i < j)
    (hj : j < ps.length) : start ps i + p.length + 2 ≤ start ps j := by
  induction ps generalizing i j with
  | nil => cases hi
  | cons q ps ih =>
    obtain ⟨j, rfl⟩ := Nat.exists_eq_add_one_of_ne_zero (Nat.ne_of_gt (Nat.zero_lt_of_lt hij))
    cases i with
    | zero =>
      cases hi
      rw [start, start]
      omega
    | succ i =>
      have hle := ih hi (Nat.lt_of_succ_lt_succ hij) (Nat.lt_of_succ_lt_succ hj)
      rw [start, start]
      omega

/-- A paragraph that does not end with an empty line. -/
def Solid (p : List Bytes) : Prop := ∃ front last, p = front ++ [last] ∧ last ≠ []

theorem Solid.append (p : List Bytes) {q : List Bytes} (h : Solid q) : Solid (p ++ q) := by
  obtain ⟨front, last, rfl, hlast⟩ := h
  exact ⟨p ++ front, last, (List.append_assoc p front [last]).symm, hlast⟩

theorem Solid.cons (l : Bytes) {p : List Bytes} (h : Solid p) : Solid (l :: p) := Solid.append [l] h

theorem Solid.ne_nil {p : List Bytes} (h : Solid p) : p ≠ [] := by
  obtain ⟨front, last, rfl, -⟩ := h
  exact List.append_ne_nil_of_right_ne_nil front (List.cons_ne_nil last [])

theorem Solid.of_forall {p : List Bytes} (hp : p ≠ []) (h : ∀ l ∈ p, l ≠ []) : Solid p := by
  refine ⟨p.dropLast, p.getLast hp, (List.dropLast_concat_getLast hp).symm, h _ (List.getLast_mem hp)⟩

theorem spaced_concat {ps : List (List Bytes)} (hps : ps ≠ []) (p : List Bytes) :
    spaced (ps ++ [p]) = spaced ps ++ [] :: [] :: p := by
  induction ps with
  | nil => exact absurd rfl hps
  | cons q ps ih =>
    cases ps with
    | nil => rfl
    | cons q' ps =>
      rw [List.cons_append, List.cons_append, spaced, ← List.cons_append, ih (List.cons_ne_nil _ _), spaced,
        List.append_assoc]
      rfl

theorem solid_spaced {ps : List (List Bytes)} (hps : ps ≠ []) (h : ∀ p ∈ ps, Solid p) : Solid (spaced ps) := by
  induction ps with
  | nil => exact absurd rfl hps
  | cons q ps ih =>
    cases ps with
    | nil => exact h q List.mem_cons_self
    | cons q' ps =>
      rw [spaced]
      have hrest := ih (List.cons_ne_nil _ _) fun p hp => h p (List.mem_cons_of_mem _ hp)
      exact Solid.append q ((hrest.cons []).cons [])

/-! ## Writing on a sheet -/

/-- A step of indentation. -/
def fourSpaces : Bytes := Bytes.ascii "    "

namespace Sheet

/-- The sheet of a module that has these lines, at some depth. -/
def ofLines (ls : List Bytes) (depth : Nat) : Sheet := ⟨ls.toArray, depth, fourSpaces⟩

def pad (depth : Nat) : Bytes := (List.replicate depth fourSpaces).flatten

variable {ls : List Bytes} {d : Nat}

theorem ofLines_line {text : Bytes} (ht : text ≠ []) :
    (ofLines ls d).line text = ofLines (ls ++ [pad d ++ text]) d := by
  have hempty : ¬ text.isEmpty = true := by rwa [List.isEmpty_iff]
  rw [line, if_neg hempty]
  simp [ofLines, pad]

theorem ofLines_writeLines {texts : List Bytes} (ht : ∀ t ∈ texts, t ≠ []) :
    (ofLines ls d).writeLines texts = ofLines (ls ++ texts.map (pad d ++ ·)) d := by
  unfold writeLines
  induction texts generalizing ls with
  | nil => rw [List.foldl_nil, List.map_nil, List.append_nil]
  | cons t texts ih =>
    rw [List.foldl_cons, ofLines_line (ht t List.mem_cons_self), ih fun t' ht' => ht t' (List.mem_cons_of_mem _ ht'),
      List.append_assoc]
    rfl

theorem ofLines_indent : (ofLines ls d).indent = ofLines ls (d + 1) := rfl

theorem ofLines_dedent : (ofLines ls (d + 1)).dedent = ofLines ls d := by
  simp [dedent, ofLines]

theorem ofLines_gap (hls : Solid ls) (n : Nat) : (ofLines ls d).gap n = ofLines (ls ++ List.replicate n []) d := by
  have hempty : ¬ (ofLines ls d).isEmpty = true := by
    simp [isEmpty, ofLines, hls.ne_nil]
  have hblanks : (ofLines ls d).trailingBlanks = 0 := by
    obtain ⟨front, last, rfl, hlast⟩ := hls
    simp [trailingBlanks, ofLines, hlast]
  rw [gap, if_neg hempty, hblanks]
  simp [ofLines]

/-- A further paragraph is written behind the gap. -/
theorem ofLines_spaced_gap {ps : List (List Bytes)} (hps : ∀ p ∈ ps, Solid p) (p : List Bytes) :
    ∃ front, (ofLines (spaced ps) 0).gap 2 = ofLines front 0 ∧ front ++ p = spaced (ps ++ [p]) := by
  by_cases hne : ps = []
  · subst hne
    exact ⟨[], rfl, rfl⟩
  · refine ⟨spaced ps ++ List.replicate 2 [], ofLines_gap (solid_spaced hne hps) 2, ?_⟩
    rw [spaced_concat hne, List.append_assoc]
    rfl

theorem finish_ofLines (hls : Solid ls) : (ofLines ls d).finish = ls := by
  obtain ⟨front, last, rfl, hlast⟩ := hls
  simp [finish, ofLines, hlast]

theorem pad_zero : pad 0 = [] := rfl

theorem pad_one : pad 1 = fourSpaces := rfl

theorem pad_two : pad 2 = fourSpaces ++ fourSpaces := rfl

end Sheet

/-! ## Declarations -/

/-- The signature of a constructor: in one line if it fits, otherwise with a line for each parameter. -/
def signatureLines (fields : List Field) : List Bytes :=
  let oneLine := Bytes.ascii "def __init__("
    ++ Bytes.join (Bytes.ascii ", ") (Bytes.ascii "self" :: fields.map Field.text) ++ Bytes.ascii ") -> None:"
  if fourSpaces.length + oneLine.length ≤ signatureWidth then [fourSpaces ++ oneLine]
  else
    (fourSpaces ++ Bytes.ascii "def __init__(") :: (fourSpaces ++ fourSpaces ++ Bytes.ascii "self,") ::
      fields.map (fun f => fourSpaces ++ fourSpaces ++ (f.text ++ Bytes.ascii ","))
      ++ [fourSpaces ++ Bytes.ascii ") -> None:"]

def Block.lines : Block → List Bytes
  | .record name fields =>
    (Bytes.ascii "class " ++ name ++ Bytes.ascii ":") ::
      if fields.isEmpty then [fourSpaces ++ Bytes.ascii "pass"]
      else
        fields.map (fun f => fourSpaces ++ f.text) ++ [] :: (signatureLines fields
          ++ fields.map fun f =>
            fourSpaces ++ fourSpaces ++ (Bytes.ascii "self." ++ f.name ++ Bytes.ascii " = " ++ f.name))
  | .enum name cases =>
    (Bytes.ascii "class " ++ name ++ Bytes.ascii "(Enum):") ::
      ((if cases.isEmpty then [fourSpaces ++ Bytes.ascii "pass"] else [])
        ++ cases.zipIdx.map fun (c, i) => fourSpaces ++ (c ++ Bytes.ascii " = " ++ caseNumber i))

def UnionBlock.lines (u : UnionBlock) : List Bytes :=
  (u.name ++ Bytes.ascii " = Union[") :: (u.members.map (fun e => fourSpaces ++ (e.text ++ Bytes.ascii ","))
    ++ [Bytes.ascii "]"])

theorem append_ascii_ne_nil (s : Bytes) {text : String} (h : Bytes.ascii text ≠ []) (s' : Bytes) :
    s ++ Bytes.ascii text ++ s' ≠ [] := by
  intro hnil
  rw [List.append_eq_nil_iff, List.append_eq_nil_iff] at hnil
  exact h hnil.1.2

theorem Field.text_ne_nil (f : Field) : f.text ≠ [] := append_ascii_ne_nil f.name (by decide) f.type.text

theorem Sheet.ofLines_signature (ls : List Bytes) (fields : List Field) :
    (ofLines ls 1).signature fields = ofLines (ls ++ signatureLines fields) 1 := by
  unfold signature signatureLines
  simp only [show (ofLines ls 1).indentation = fourSpaces from rfl]
  split
  · rw [ofLines_line (by simp [Bytes.ascii]), pad_one]
  · rw [ofLines_line (by decide), ofLines_indent, ofLines_line (by decide),
      ofLines_writeLines (by simp [Bytes.ascii]), ofLines_dedent, ofLines_line (by decide), pad_one, pad_two,
      List.map_map]
    simp [Function.comp_def]

theorem Block.write_ofLines (ls : List Bytes) (b : Block) :
    Block.write (Sheet.ofLines ls 0) b = Sheet.ofLines (ls ++ b.lines) 0 := by
  cases b with
  | record name fields =>
    have hhead : Bytes.ascii "class " ++ name ++ Bytes.ascii ":" ≠ [] := by simp [Bytes.ascii]
    unfold write lines
    simp only [Sheet.ofLines_line hhead, Sheet.ofLines_indent]
    split
    · rw [Sheet.ofLines_line (by decide), Sheet.ofLines_dedent, Sheet.pad_zero, Sheet.pad_one]
      simp
    · next hfields =>
      have htexts : ∀ t ∈ fields.map Field.text, t ≠ [] := by
        intro t ht
        obtain ⟨f, -, rfl⟩ := List.mem_map.mp ht
        exact f.text_ne_nil
      have hself : ∀ t ∈ fields.map (fun f => Bytes.ascii "self." ++ f.name ++ Bytes.ascii " = " ++ f.name),
          t ≠ [] := by
        simp [Bytes.ascii]
      have hsolid : Solid ((fields.map Field.text).map (fourSpaces ++ ·)) := by
        refine Solid.of_forall ?_ fun l hl => ?_
        · rwa [ne_eq, List.map_eq_nil_iff, List.map_eq_nil_iff, ← List.isEmpty_iff]
        · obtain ⟨t, ht, rfl⟩ := List.mem_map.mp hl
          exact List.append_ne_nil_of_right_ne_nil _ (htexts t ht)
      rw [Sheet.ofLines_writeLines htexts, Sheet.pad_one,
        Sheet.ofLines_gap (Solid.append _ hsolid), Sheet.ofLines_signature, Sheet.ofLines_indent,
        Sheet.ofLines_writeLines hself, Sheet.ofLines_dedent, Sheet.ofLines_dedent, Sheet.pad_zero, Sheet.pad_two]
      simp [Function.comp_def]
  | enum name cases =>
    have hhead : Bytes.ascii "class " ++ name ++ Bytes.ascii "(Enum):" ≠ [] := by simp [Bytes.ascii]
    have hcases : ∀ t ∈ cases.zipIdx.map (fun (c, i) => c ++ Bytes.ascii " = " ++ caseNumber i), t ≠ [] := by
      intro t ht
      obtain ⟨⟨c, i⟩, -, rfl⟩ := List.mem_map.mp ht
      exact append_ascii_ne_nil c (by decide) (caseNumber i)
    unfold write lines
    simp only [Sheet.ofLines_line hhead, Sheet.ofLines_indent]
    split
    · rw [Sheet.ofLines_line (by decide), Sheet.ofLines_writeLines hcases, Sheet.ofLines_dedent, Sheet.pad_zero,
        Sheet.pad_one]
      simp [Function.comp_def]
    · rw [Sheet.ofLines_writeLines hcases, Sheet.ofLines_dedent, Sheet.pad_zero, Sheet.pad_one]
      simp [Function.comp_def]

theorem UnionBlock.write_ofLines (ls : List Bytes) (u : UnionBlock) :
    UnionBlock.write (Sheet.ofLines ls 0) u = Sheet.ofLines (ls ++ u.lines) 0 := by
  have hhead : u.name ++ Bytes.ascii " = Union[" ≠ [] := by simp [Bytes.ascii]
  have hmembers : ∀ t ∈ u.members.map (fun e => e.text ++ Bytes.ascii ","), t ≠ [] := by simp [Bytes.ascii]
  unfold write lines
  simp only [Sheet.ofLines_line hhead, Sheet.ofLines_indent, Sheet.ofLines_writeLines hmembers, Sheet.ofLines_dedent]
  rw [Sheet.ofLines_line (by decide), Sheet.pad_zero, Sheet.pad_one]
  simp [Function.comp_def]

theorem Block.solid_lines (b : Block) : Solid b.lines := by
  cases b with
  | record name fields =>
    unfold lines
    refine Solid.cons _ ?_
    split
    · exact ⟨[], _, rfl, by decide⟩
    · next hfields =>
      refine Solid.append _ (Solid.cons [] (Solid.append _ (Solid.of_forall ?_ fun l hl => ?_)))
      · rwa [ne_eq, List.map_eq_nil_iff, ← List.isEmpty_iff]
      · obtain ⟨f, -, rfl⟩ := List.mem_map.mp hl
        exact List.append_ne_nil_of_left_ne_nil (by decide) _
  | enum name cases =>
    unfold lines
    refine Solid.cons _ ?_
    split
    · next hcases =>
      rw [List.isEmpty_iff.mp hcases]
      exact ⟨[], _, rfl, by decide⟩
    · next hcases =>
      refine Solid.append _ (Solid.of_forall ?_ fun l hl => ?_)
      · rwa [ne_eq, List.map_eq_nil_iff, List.zipIdx_eq_nil_iff, ← List.isEmpty_iff]
      · obtain ⟨c, -, rfl⟩ := List.mem_map.mp hl
        exact List.append_ne_nil_of_left_ne_nil (by decide) _

theorem UnionBlock.solid_lines (u : UnionBlock) : Solid u.lines :=
  Solid.cons _ (Solid.append _ ⟨[], _, rfl, by decide⟩)

theorem Alias.text_ne_nil (a : Alias) : a.text ≠ [] := append_ascii_ne_nil a.name (by decide) a.type.text

/-! ## Modules -/

theorem foldl_write {α : Type} {write : Sheet → α → Sheet} {text : α → List Bytes}
    (hwrite : ∀ ls x, write (Sheet.ofLines ls 0) x = Sheet.ofLines (ls ++ text x) 0) (htext : ∀ x, Solid (text x))
    (xs : List α) (ps : List (List Bytes)) (hps : ∀ p ∈ ps, Solid p) :
    xs.foldl (fun s x => write (s.gap 2) x) (Sheet.ofLines (spaced ps) 0) =
      Sheet.ofLines (spaced (ps ++ xs.map text)) 0 := by
  induction xs generalizing ps with
  | nil => rw [List.foldl_nil, List.map_nil, List.append_nil]
  | cons x xs ih =>
    obtain ⟨front, hgap, hfront⟩ := Sheet.ofLines_spaced_gap hps (text x)
    have hps' : ∀ p ∈ ps ++ [text x], Solid p := by
      intro p hp
      rcases List.mem_append.mp hp with hp | hp
      · exact hps p hp
      · exact List.mem_singleton.mp hp ▸ htext x
    rw [List.foldl_cons, hgap, hwrite, hfront, ih _ hps', List.append_assoc]
    rfl

namespace Module

variable (m : Module)

def top : List (List Bytes) := if m.header.isEmpty then [] else [m.header]

def declarations : List (List Bytes) := m.blocks.map Block.lines ++ m.unions.map UnionBlock.lines

def bottom : List (List Bytes) := if m.aliases.isEmpty then [] else [m.aliases.map Alias.text]

def paragraphs : List (List Bytes) := m.top ++ (m.declarations ++ m.bottom)

theorem solid_declarations : ∀ p ∈ m.declarations, Solid p := by
  intro p hp
  rcases List.mem_append.mp hp with hp | hp
  · obtain ⟨b, -, rfl⟩ := List.mem_map.mp hp
    exact b.solid_lines
  · obtain ⟨u, -, rfl⟩ := List.mem_map.mp hp
    exact u.solid_lines

theorem solid_bottom : ∀ p ∈ m.bottom, Solid p := by
  intro p hp
  unfold bottom at hp
  split at hp
  · cases hp
  · next haliases =>
    rw [List.mem_singleton.mp hp]
    refine Solid.of_forall ?_ fun l hl => ?_
    · rwa [ne_eq, List.map_eq_nil_iff, ← List.isEmpty_iff]
    · obtain ⟨a, -, rfl⟩ := List.mem_map.mp hl
      exact a.text_ne_nil

theorem body_eq : m.body = Sheet.ofLines (spaced (m.declarations ++ m.bottom)) 0 := by
  have hblocks := foldl_write Block.write_ofLines Block.solid_lines m.blocks [] nofun
  have hunions := foldl_write UnionBlock.write_ofLines UnionBlock.solid_lines m.unions (m.blocks.map Block.lines)
    fun p hp => m.solid_declarations p (List.mem_append_left _ hp)
  rw [List.nil_append] at hblocks
  change (if m.aliases.isEmpty then List.foldl _ (List.foldl _ (Sheet.ofLines (spaced []) 0) m.blocks) m.unions
    else ((List.foldl _ (List.foldl _ (Sheet.ofLines (spaced []) 0) m.blocks) m.unions).gap 2).writeLines _) = _
  rw [hblocks, hunions, bottom]
  split
  · rw [List.append_nil]
    rfl
  · obtain ⟨front, hgap, hfront⟩ := Sheet.ofLines_spaced_gap m.solid_declarations (m.aliases.map Alias.text)
    have htexts : ∀ t ∈ m.aliases.map Alias.text, t ≠ [] := by
      intro t ht
      obtain ⟨a, -, rfl⟩ := List.mem_map.mp ht
      exact a.text_ne_nil
    rw [← hfront, ← declarations, hgap, Sheet.ofLines_writeLines htexts, Sheet.pad_zero]
    simp [Function.comp_def]

/-! ### The header -/

theorem mem_joinGroups {groups : List (List Bytes)} {l : Bytes} (h : l ∈ joinGroups groups) :
    l = [] ∨ ∃ group ∈ groups, l ∈ group := by
  have hmem : ∀ group, group ∈ groups.filter (fun g => !g.isEmpty) → group ∈ groups :=
    fun group hgroup => (List.mem_filter.mp hgroup).1
  unfold joinGroups at h
  split at h
  · cases h
  · next group rest hfilter =>
    rw [hfilter] at hmem
    rcases List.mem_append.mp h with h | h
    · exact Or.inr ⟨group, hmem group List.mem_cons_self, h⟩
    · obtain ⟨group', hgroup', h⟩ := List.mem_flatMap.mp h
      rcases List.mem_cons.mp h with rfl | h
      · exact Or.inl rfl
      · exact Or.inr ⟨group', hmem group' (List.mem_cons_of_mem _ hgroup'), h⟩

theorem mem_joinGroups_of_mem {groups : List (List Bytes)} {group : List Bytes} {l : Bytes} (hgroup : group ∈ groups)
    (hl : l ∈ group) : l ∈ joinGroups groups := by
  have hmem : group ∈ groups.filter fun g => !g.isEmpty := by
    rw [List.mem_filter, List.isEmpty_eq_false_iff.mpr (List.ne_nil_of_mem hl)]
    exact ⟨hgroup, rfl⟩
  unfold joinGroups
  split
  · next hfilter =>
    rw [hfilter] at hmem
    cases hmem
  · next first rest hfilter =>
    rw [hfilter] at hmem
    rw [List.mem_append, List.mem_flatMap]
    rcases List.mem_cons.mp hmem with rfl | hmem
    · exact Or.inl hl
    · exact Or.inr ⟨group, hmem, List.mem_cons_of_mem _ hl⟩

theorem solid_flatMap_cons_nil {groups : List (List Bytes)} (hne : groups ≠ []) (h : ∀ group ∈ groups, Solid group) :
    Solid (groups.flatMap ([] :: ·)) := by
  induction groups with
  | nil => exact absurd rfl hne
  | cons group rest ih =>
    rw [List.flatMap_cons]
    by_cases hnil : rest = []
    · rw [hnil, List.flatMap_nil, List.append_nil]
      exact (h group List.mem_cons_self).cons []
    · exact Solid.append _ (ih hnil fun g hg => h g (List.mem_cons_of_mem _ hg))

theorem solid_joinGroups {groups : List (List Bytes)} (h : ∀ group ∈ groups, ∀ l ∈ group, l ≠ [])
    (hne : joinGroups groups ≠ []) : Solid (joinGroups groups) := by
  have hsolid : ∀ group ∈ groups.filter (fun g => !g.isEmpty), Solid group := by
    intro group hgroup
    obtain ⟨hgroup, hnil⟩ := List.mem_filter.mp hgroup
    exact Solid.of_forall (by simpa using hnil) (h group hgroup)
  unfold joinGroups at hne ⊢
  split at hne
  · exact absurd rfl hne
  · next group rest hfilter =>
    rw [hfilter] at hsolid
    by_cases hnil : rest = []
    · rw [hnil, List.flatMap_nil, List.append_nil]
      exact hsolid group List.mem_cons_self
    · exact Solid.append _ (solid_flatMap_cons_nil hnil fun g hg => hsolid g (List.mem_cons_of_mem _ hg))

/-- The line that leaves annotations unevaluated. -/
def futureImport : Bytes := Bytes.ascii "from __future__ import annotations"

/-- The line that imports names from a library. -/
def importOf (library : Bytes) (names : List Bytes) : Bytes :=
  Bytes.ascii "from " ++ library ++ Bytes.ascii " import " ++ Bytes.join (Bytes.ascii ", ") names

theorem importLine_eq {library : String} {names needed : List Import} (h : importLine library names needed ≠ []) :
    importLine library names needed =
      [importOf (Bytes.ascii library) ((names.filter (· ∈ needed)).map Import.name)] := by
  unfold importLine at h ⊢
  split
  · next hfilter =>
    rw [hfilter] at h
    exact absurd rfl h
  · rfl

theorem mem_importLine {library : String} {names needed : List Import} {l : Bytes}
    (h : l ∈ importLine library names needed) :
    ∃ used : List Import, l = importOf (Bytes.ascii library) (used.map Import.name) := by
  rw [importLine_eq (List.ne_nil_of_mem h)] at h
  exact ⟨_, List.mem_singleton.mp h⟩

theorem exists_mem_importLine (library : String) {names needed : List Import} {i : Import} (hi : i ∈ names)
    (hneeded : i ∈ needed) : ∃ used : List Import, i ∈ used ∧
      importOf (Bytes.ascii library) (used.map Import.name) ∈ importLine library names needed := by
  have hmem : i ∈ names.filter (· ∈ needed) := List.mem_filter.mpr ⟨hi, decide_eq_true hneeded⟩
  have hne : importLine library names needed ≠ [] := by
    unfold importLine
    split
    · next hfilter =>
      rw [hfilter] at hmem
      cases hmem
    · exact List.cons_ne_nil _ _
  exact ⟨_, hmem, importLine_eq hne ▸ List.mem_cons_self⟩

theorem mem_importLines {l : Bytes} (h : l ∈ m.importLines) :
    ∃ library ∈ ["datetime", "enum", "typing"], ∃ used : List Import,
      l = importOf (Bytes.ascii library) (used.map Import.name) := by
  unfold importLines at h
  rcases List.mem_append.mp h with h | h
  · rcases List.mem_append.mp h with h | h
    · exact ⟨"datetime", by decide, mem_importLine h⟩
    · exact ⟨"enum", by decide, mem_importLine h⟩
  · exact ⟨"typing", by decide, mem_importLine h⟩

/-- What is needed is imported. -/
theorem exists_mem_importLines {i : Import} (hi : i ∈ m.imports) :
    ∃ library ∈ ["datetime", "enum", "typing"], ∃ used : List Import, i ∈ used ∧
      importOf (Bytes.ascii library) (used.map Import.name) ∈ m.importLines := by
  have hline : ∀ library names, importLine library names m.imports ⊆ m.importLines → i ∈ names →
      library ∈ ["datetime", "enum", "typing"] → ∃ library ∈ ["datetime", "enum", "typing"], ∃ used : List Import,
        i ∈ used ∧ importOf (Bytes.ascii library) (used.map Import.name) ∈ m.importLines := by
    intro library names hsubset hmem hlibrary
    obtain ⟨used, hused, hline⟩ := exists_mem_importLine library hmem hi
    exact ⟨library, hlibrary, used, hused, hsubset hline⟩
  have hdatetime : importLine "datetime" [.date, .datetime, .time] m.imports ⊆ m.importLines :=
    List.Subset.trans (List.subset_append_left _ _) (List.subset_append_left _ _)
  have henum : importLine "enum" [.enum] m.imports ⊆ m.importLines :=
    List.Subset.trans (List.subset_append_right _ _) (List.subset_append_left _ _)
  have htyping : importLine "typing" [.any, .optional, .union] m.imports ⊆ m.importLines :=
    List.subset_append_right _ _
  cases i with
  | date | datetime | time => exact hline _ _ hdatetime (by decide) (by decide)
  | enum => exact hline _ _ henum (by decide) (by decide)
  | any | optional | union => exact hline _ _ htyping (by decide) (by decide)

theorem mem_commentLines {mark : Bytes} {comments : List Bytes} {l : Bytes} (h : l ∈ commentLines mark comments) :
    ∃ text, l = mark ++ text := by
  obtain ⟨c, -, h⟩ := List.mem_flatMap.mp h
  obtain ⟨text, -, rfl⟩ := List.mem_map.mp h
  exact ⟨text, rfl⟩

/-- A line of the header is empty, a comment, the switch for annotations, or an import. -/
theorem mem_header {l : Bytes} (h : l ∈ m.header) :
    l = [] ∨ (∃ text, l = Bytes.ascii "# " ++ text) ∨ (l = futureImport ∧ m.postponed = true) ∨ l ∈ m.importLines := by
  rcases mem_joinGroups h with h | ⟨group, hgroup, h⟩
  · exact Or.inl h
  · simp only [List.mem_cons, List.not_mem_nil, or_false] at hgroup
    rcases hgroup with rfl | rfl | rfl
    · exact Or.inr (Or.inl (mem_commentLines h))
    · split at h
      · next hpostponed => exact Or.inr (Or.inr (Or.inl ⟨List.mem_singleton.mp h, hpostponed⟩))
      · cases h
    · exact Or.inr (Or.inr (Or.inr h))

theorem mem_header_of_mem_importLines {l : Bytes} (h : l ∈ m.importLines) : l ∈ m.header :=
  mem_joinGroups_of_mem (by simp) h

/-- Above the switch for annotations there are only comments. -/
theorem exists_header_eq (h : m.postponed = true) :
    ∃ above below, m.header = above ++ futureImport :: below ∧
      ∀ l ∈ above, l = [] ∨ ∃ text, l = Bytes.ascii "# " ++ text := by
  have hheader : m.header = joinGroups [commentLines (Bytes.ascii "# ") m.comments, [futureImport], m.importLines] := by
    rw [header, if_pos h]
    rfl
  rw [hheader, joinGroups]
  by_cases hcomments : commentLines (Bytes.ascii "# ") m.comments = []
  · exact ⟨[], _, by simp [hcomments]; rfl, nofun⟩
  · refine ⟨commentLines (Bytes.ascii "# ") m.comments ++ [[]], _, by simp [hcomments]; rfl, fun l hl => ?_⟩
    rcases List.mem_append.mp hl with hl | hl
    · exact Or.inr (mem_commentLines hl)
    · exact Or.inl (List.mem_singleton.mp hl)

theorem ne_nil_of_mem_group : ∀ group ∈ [commentLines (Bytes.ascii "# ") m.comments,
    if m.postponed then [futureImport] else [], m.importLines], ∀ l ∈ group, l ≠ [] := by
  intro group hgroup l hl
  simp only [List.mem_cons, List.not_mem_nil, or_false] at hgroup
  rcases hgroup with rfl | rfl | rfl
  · obtain ⟨text, rfl⟩ := mem_commentLines hl
    exact List.append_ne_nil_of_left_ne_nil (by decide) _
  · split at hl
    · rw [List.mem_singleton.mp hl]
      decide
    · cases hl
  · obtain ⟨library, -, used, rfl⟩ := m.mem_importLines hl
    simp [importOf, Bytes.ascii]

theorem solid_header (hne : m.header ≠ []) : Solid m.header := solid_joinGroups m.ne_nil_of_mem_group hne

theorem solid_paragraphs : ∀ p ∈ m.paragraphs, Solid p := by
  intro p hp
  rcases List.mem_append.mp hp with hp | hp
  · unfold top at hp
    split at hp
    · cases hp
    · next hheader =>
      rw [List.mem_singleton.mp hp]
      exact m.solid_header (by rwa [ne_eq, ← List.isEmpty_iff])
  · rcases List.mem_append.mp hp with hp | hp
    · exact m.solid_declarations p hp
    · exact m.solid_bottom p hp

/-- **A module consists of its paragraphs**, two empty lines apart. -/
theorem lines_eq : m.lines = spaced m.paragraphs := by
  have hempty : m.body.isEmpty = (m.declarations ++ m.bottom).isEmpty := by
    rw [body_eq, Sheet.isEmpty, Sheet.ofLines, List.isEmpty_toArray]
    by_cases hnil : m.declarations ++ m.bottom = []
    · rw [hnil]
      rfl
    · have hsolid := solid_spaced hnil fun p hp => m.solid_paragraphs p (List.mem_append_right _ hp)
      rw [List.isEmpty_eq_false_iff.mpr hsolid.ne_nil, List.isEmpty_eq_false_iff.mpr hnil]
  have hparts : m.headerLines ++ spaced (m.declarations ++ m.bottom) = spaced m.paragraphs := by
    unfold headerLines paragraphs top
    rw [hempty]
    by_cases hheader : m.header = []
    · simp [hheader]
    · cases hbody : m.declarations ++ m.bottom with
      | nil => simp [hheader, spaced]
      | cons p ps => simp [hheader, spaced]
  rw [lines, body_eq, Sheet.putFirst, Sheet.ofLines]
  simp only [List.append_toArray]
  rw [hparts]
  by_cases hnil : m.paragraphs = []
  · rw [hnil]
    rfl
  · exact Sheet.finish_ofLines (solid_spaced hnil m.solid_paragraphs)

end Module

end Typewright
