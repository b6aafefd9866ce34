import Typewright.Proofs.Module.Layout
import Typewright.Proofs.Module.Mention

/-!
# Reading the lines of a module

What a module says is read off its lines alone, without the data that it was written from.

* `BoundBefore lines name k` : the declaration of `name` is complete before line `k`;
* `ImportedBefore lines name k` : a line before line `k` imports `name`;
* `MemberLine lines union k e`, `AliasLine lines name k e`, `ClassAt lines k name fields` : line `k` is a member of a
  union, an alias, or the first line of a class;
* `Module.Spelled` : names are names, and no alias reads like a union;
* `Module.Spelled.memberLine`, `Module.Spelled.aliasLine`, `Module.Spelled.classAt` : in the lines of such a module only
  its unions, aliases and classes can be read.
-/

namespace Typewright

/-! ## What lines say -/

def classHead (name : Bytes) : Bytes := Bytes.ascii "class " ++ name ++ Bytes.ascii ":"

def enumHead (name : Bytes) : Bytes := Bytes.ascii "class " ++ name ++ Bytes.ascii "(Enum):"

def unionHead (name : Bytes) : Bytes := name ++ Bytes.ascii " = Union["

/-- A line that starts at the left margin. -/
def Flush (l : Bytes) : Prop := ∃ b s, l = b :: s ∧ b ≠ Bytes.byte ' '

/-- The declaration of a name is complete before line `k`. A class or an enum ends where a line starts at the left
margin again, a union with its closing bracket. -/
inductive BoundBefore (lines : List Bytes) (name : Bytes) (k : Nat) : Prop
  | block {i j : Nat} {l : Bytes} (head : lines[i]? = some (classHead name) ∨ lines[i]? = some (enumHead name))
    (next : lines[j]? = some l) (flush : Flush l) (hij : i < j) (hjk : j ≤ k)
  | union {i j : Nat} (head : lines[i]? = some (unionHead name)) (close : lines[j]? = some (Bytes.ascii "]"))
    (hij : i < j) (hjk : j < k)

/-- A line before line `k` imports a name. -/
def ImportedBefore (lines : List Bytes) (name : Bytes) (k : Nat) : Prop :=
  ∃ j < k, ∃ library names, IsName library ∧ (∀ n ∈ names, IsName n) ∧ name ∈ names ∧
    lines[j]? = some (Module.importOf library names)

/-- Line `k` is a member of a union: between it and the first line of the union all lines are indented. -/
structure MemberLine (lines : List Bytes) (union : Bytes) (k : Nat) (e : Bytes) : Prop where
  isName : IsName union
  inside : ∃ i < k, lines[i]? = some (unionHead union) ∧
    ∀ j, i < j → j < k → ∃ l, lines[j]? = some (fourSpaces ++ l)
  line : lines[k]? = some (fourSpaces ++ (e ++ Bytes.ascii ","))

/-- Line `k` is an alias, that is, an assignment which does not start a union. -/
structure AliasLine (lines : List Bytes) (name : Bytes) (k : Nat) (e : Bytes) : Prop where
  isName : IsName name
  line : lines[k]? = some (name ++ Bytes.ascii " = " ++ e)
  not_union : e ≠ Bytes.ascii "Union["

/-- A class with some fields starts at line `k`. Its lines hold the annotations twice, for the fields and for the
parameters of the constructor. -/
structure ClassAt (lines : List Bytes) (k : Nat) (name : Bytes) (fields : List Field) : Prop where
  isName : IsName name
  isName_fields : ∀ f ∈ fields, IsName f.name
  text : (Block.record name fields).lines <+: lines.drop k

/-- The header leaves annotations unevaluated: above the line that says so there are only comments. -/
def PostponesAnnotations (lines : List Bytes) : Prop :=
  ∃ k : Nat, lines[k]? = some Module.futureImport ∧
    ∀ j < k, ∀ l, lines[j]? = some l → l = [] ∨ ∃ text, l = Bytes.ascii "# " ++ text

/-! ## Lines that start with a word -/

theorem takeWhile_name {n s : Bytes} (hn : IsName n) (hs : Bytes.Apart s) :
    (n ++ s).takeWhile Bytes.isNameByte = n := by
  rw [List.takeWhile_append_of_pos hn.2]
  cases s with
  | nil => rw [List.takeWhile_nil, List.append_nil]
  | cons b s => rw [List.takeWhile_cons_of_neg (by rw [hs b rfl]; exact Bool.false_ne_true), List.append_nil]

/-- A text has only one name at its front. -/
theorem name_append_inj {n n' s s' : Bytes} (hn : IsName n) (hn' : IsName n') (hs : Bytes.Apart s)
    (hs' : Bytes.Apart s') (h : n ++ s = n' ++ s') : n = n' ∧ s = s' := by
  have hname : n = n' := by
    rw [← takeWhile_name hn hs, h, takeWhile_name hn' hs']
  subst hname
  exact ⟨rfl, List.append_cancel_left h⟩

theorem eq_of_name_cons_eq {n n' s s' : Bytes} {b : UInt8} (hn : IsName n) (hn' : IsName n')
    (hb : Bytes.isNameByte b = false) (h : n ++ b :: s = n' ++ b :: s') : n = n' ∧ s = s' := by
  obtain ⟨hname, hrest⟩ := name_append_inj hn hn' (Bytes.apart_cons hb s) (Bytes.apart_cons hb s') h
  exact ⟨hname, (List.cons.inj hrest).2⟩

theorem isName_class : IsName (Bytes.ascii "class") := by decide

theorem name_ne_cons {n s t : Bytes} {b : UInt8} (hn : IsName n) (hb : Bytes.isNameByte b = false) :
    n ++ s ≠ b :: t := by
  obtain ⟨c, n, rfl⟩ := List.exists_cons_of_ne_nil hn.1
  intro h
  rw [List.cons_append] at h
  rw [← (List.cons.inj h).1, hn.2 c List.mem_cons_self] at hb
  cases hb

theorem flush_name {n : Bytes} (hn : IsName n) (s : Bytes) : Flush (n ++ s) := by
  obtain ⟨c, n, rfl⟩ := List.exists_cons_of_ne_nil hn.1
  refine ⟨c, n ++ s, rfl, ?_⟩
  rintro rfl
  cases hn.2 _ List.mem_cons_self

theorem Field.text_eq (f : Field) : f.text = f.name ++ Bytes.byte ':' :: (Bytes.ascii " " ++ f.type.text) :=
  List.append_assoc _ _ _

theorem Field.text_inj {f f' : Field} (hf : IsName f.name) (hf' : IsName f'.name) (h : f.text = f'.text) :
    f.name = f'.name ∧ f.type.text = f'.type.text := by
  rw [f.text_eq, f'.text_eq] at h
  obtain ⟨hname, hrest⟩ := eq_of_name_cons_eq hf hf' (by decide) h
  exact ⟨hname, List.append_cancel_left hrest⟩

theorem Field.text_ne_pass {f : Field} (hf : IsName f.name) : f.text ≠ Bytes.ascii "pass" := by
  intro h
  rw [f.text_eq, ← List.append_nil (Bytes.ascii "pass")] at h
  obtain ⟨-, hrest⟩ := name_append_inj hf (by decide) (Bytes.apart_cons (by decide) _) Bytes.apart_nil h
  cases hrest

theorem Alias.text_eq (a : Alias) : a.text = a.name ++ Bytes.byte ' ' :: (Bytes.ascii "= " ++ a.type.text) :=
  List.append_assoc _ _ _

namespace Block

def name : Block → Bytes
  | .record name _ => name
  | .enum name _ => name

def head : Block → Bytes
  | .record name _ => classHead name
  | .enum name _ => enumHead name

theorem head_eq (b : Block) :
    ∃ mark, Bytes.Apart mark ∧ (mark = Bytes.ascii ":" → ∃ fields, b = .record b.name fields) ∧
    b.head = Bytes.ascii "class" ++ Bytes.byte ' ' :: (b.name ++ mark) := by
  cases b with
  | record name fields => exact ⟨Bytes.ascii ":", Bytes.apart_cons (by decide) _, fun _ => ⟨fields, rfl⟩, rfl⟩
  | enum name cases => exact ⟨Bytes.ascii "(Enum):", Bytes.apart_cons (by decide) _, fun h => absurd h (by decide), rfl⟩

theorem indented_of_mem_signatureLines {fields : List Field} {l : Bytes} (h : l ∈ signatureLines fields) :
    ∃ s, l = fourSpaces ++ s := by
  simp only [signatureLines] at h
  split at h
  · exact ⟨_, List.mem_singleton.mp h⟩
  · simp only [List.cons_append, List.mem_cons, List.mem_append, List.mem_map, List.not_mem_nil, or_false] at h
    rcases h with rfl | rfl | ⟨f, -, rfl⟩ | rfl
    · exact ⟨_, rfl⟩
    · exact ⟨_, List.append_assoc _ _ _⟩
    · exact ⟨_, List.append_assoc _ _ _⟩
    · exact ⟨_, rfl⟩

/-- Below its first line a class or enum is indented. -/
theorem exists_inner (b : Block) :
    ∃ inner, b.lines = b.head :: inner ∧ ∀ l ∈ inner, l = [] ∨ ∃ s, l = fourSpaces ++ s := by
  cases b with
  | record name fields =>
    refine ⟨_, rfl, fun l hl => ?_⟩
    split at hl
    · exact Or.inr ⟨_, List.mem_singleton.mp hl⟩
    · rcases List.mem_append.mp hl with hl | hl
      · obtain ⟨f, -, rfl⟩ := List.mem_map.mp hl
        exact Or.inr ⟨_, rfl⟩
      · rcases List.mem_cons.mp hl with rfl | hl
        · exact Or.inl rfl
        · rcases List.mem_append.mp hl with hl | hl
          · exact Or.inr (indented_of_mem_signatureLines hl)
          · obtain ⟨f, -, rfl⟩ := List.mem_map.mp hl
            exact Or.inr ⟨_, List.append_assoc _ _ _⟩
  | enum name cases =>
    refine ⟨_, rfl, fun l hl => ?_⟩
    rcases List.mem_append.mp hl with hl | hl
    · split at hl
      · exact Or.inr ⟨_, List.mem_singleton.mp hl⟩
      · cases hl
    · obtain ⟨c, -, rfl⟩ := List.mem_map.mp hl
      exact Or.inr ⟨_, rfl⟩

theorem getElem?_field {n : Bytes} {fields : List Field} {r : Nat} {f : Field} (hf : fields[r]? = some f) :
    (Block.record n fields).lines[r + 1]? = some (fourSpaces ++ f.text) := by
  have hr : r < fields.length := (List.getElem?_eq_some_iff.mp hf).1
  have hne : ¬ fields.isEmpty = true := by
    rw [List.isEmpty_iff]
    exact List.ne_nil_of_mem (List.mem_of_getElem? hf)
  rw [lines, if_neg hne, List.getElem?_cons_succ, List.getElem?_append_left (by rwa [List.length_map]),
    List.getElem?_map, hf]
  rfl

theorem getElem?_gap {n : Bytes} {fields : List Field} (hne : fields ≠ []) :
    (Block.record n fields).lines[fields.length + 1]? = some [] := by
  rw [lines, if_neg (by rwa [List.isEmpty_iff]), List.getElem?_cons_succ,
    List.getElem?_append_right (by rw [List.length_map]), List.length_map, Nat.sub_self]
  rfl

theorem getElem?_pass (n : Bytes) : (Block.record n []).lines[1]? = some (fourSpaces ++ Bytes.ascii "pass") := rfl

theorem getElem?_head (b : Block) : b.lines[0]? = some b.head := by
  cases b with
  | record name fields => rfl
  | enum name cases => rfl

end Block

namespace UnionBlock

theorem length_lines (u : UnionBlock) : u.lines.length = u.members.length + 2 := by
  simp [lines]

theorem getElem?_head (u : UnionBlock) : u.lines[0]? = some (unionHead u.name) := rfl

theorem getElem?_member {u : UnionBlock} {r : Nat} {x : TypeExpr} (hx : u.members[r]? = some x) :
    u.lines[r + 1]? = some (fourSpaces ++ (x.text ++ Bytes.ascii ",")) := by
  have hr : r < u.members.length := (List.getElem?_eq_some_iff.mp hx).1
  rw [lines, List.getElem?_cons_succ, List.getElem?_append_left (by rwa [List.length_map]), List.getElem?_map, hx]
  rfl

theorem getElem?_close (u : UnionBlock) : u.lines[u.members.length + 1]? = some (Bytes.ascii "]") := by
  rw [lines, List.getElem?_cons_succ, List.getElem?_append_right (by rw [List.length_map]), List.length_map,
    Nat.sub_self]
  rfl

/-- A union has its first line, its members and a closing bracket. -/
theorem cases_line {u : UnionBlock} {r : Nat} {l : Bytes} (hl : u.lines[r]? = some l) :
    (r = 0 ∧ l = unionHead u.name) ∨
      (∃ r' x, r = r' + 1 ∧ u.members[r']? = some x ∧ l = fourSpaces ++ (x.text ++ Bytes.ascii ",")) ∨
      l = Bytes.ascii "]" := by
  cases r with
  | zero => exact Or.inl ⟨rfl, (Option.some.inj hl).symm⟩
  | succ r =>
    by_cases hr : r < u.members.length
    · have hx := List.getElem?_eq_getElem hr
      rw [getElem?_member hx] at hl
      exact Or.inr (Or.inl ⟨r, _, rfl, hx, (Option.some.inj hl).symm⟩)
    · have hlt := (List.getElem?_eq_some_iff.mp hl).1
      have hlast : r = u.members.length := by
        rw [length_lines] at hlt
        omega
      rw [hlast, getElem?_close] at hl
      exact Or.inr (Or.inr (Option.some.inj hl).symm)

end UnionBlock

theorem ClassAt.getElem? {lines : List Bytes} {k : Nat} {n : Bytes} {fields : List Field} (h : ClassAt lines k n fields)
    {r : Nat} {l : Bytes} (hr : (Block.record n fields).lines[r]? = some l) : lines[k + r]? = some l := by
  obtain ⟨rest, hrest⟩ := h.text
  rw [← List.getElem?_drop, ← hrest, List.getElem?_append_left (List.getElem?_eq_some_iff.mp hr).1, hr]

/-! ## The numbers of lines -/

namespace Module

variable (m : Module)

def declLine (i : Nat) : Nat := start m.paragraphs (m.top.length + i)

def aliasLine : Nat := start m.paragraphs (m.top.length + m.declarations.length)

variable {m} {i j k r : Nat} {p : List Bytes} {l : Bytes}

theorem getElem?_paragraphs (i : Nat) : m.paragraphs[m.top.length + i]? = (m.declarations ++ m.bottom)[i]? := by
  rw [paragraphs, List.getElem?_append_right (Nat.le_add_right _ _), Nat.add_sub_cancel_left]

theorem getElem?_paragraphs_declaration (hi : m.declarations[i]? = some p) :
    m.paragraphs[m.top.length + i]? = some p := by
  rw [getElem?_paragraphs, List.getElem?_append_left (List.getElem?_eq_some_iff.mp hi).1, hi]

theorem getElem?_paragraphs_aliases (ha : m.aliases ≠ []) :
    m.paragraphs[m.top.length + m.declarations.length]? = some (m.aliases.map Alias.text) := by
  rw [getElem?_paragraphs, List.getElem?_append_right (Nat.le_refl _), Nat.sub_self, bottom,
    if_neg (by rwa [List.isEmpty_iff])]
  rfl

theorem getElem?_declaration (hi : m.declarations[i]? = some p) (hr : p[r]? = some l) :
    m.lines[m.declLine i + r]? = some l := by
  rw [lines_eq, ← hr]
  exact getElem?_spaced (getElem?_paragraphs_declaration hi) (List.getElem?_eq_some_iff.mp hr).1

theorem getElem?_alias {a : Alias} (hi : m.aliases[i]? = some a) : m.lines[m.aliasLine + i]? = some a.text := by
  have ha : m.aliases ≠ [] := List.ne_nil_of_mem (List.mem_of_getElem? hi)
  have hlt : i < (m.aliases.map Alias.text).length := by
    rw [List.length_map]
    exact (List.getElem?_eq_some_iff.mp hi).1
  rw [lines_eq, aliasLine, getElem?_spaced (getElem?_paragraphs_aliases ha) hlt, List.getElem?_map, hi]
  rfl

/-- A declaration ends before a later one starts. -/
theorem declLine_add_length_lt (hi : m.declarations[i]? = some p) (hij : i < j) (hj : j < m.declarations.length) :
    m.declLine i + p.length + 2 ≤ m.declLine j := by
  refine start_add_length_lt (getElem?_paragraphs_declaration hi) (Nat.add_lt_add_left hij _) ?_
  rw [paragraphs, List.length_append, List.length_append]
  omega

/-- A declaration ends before the aliases start. -/
theorem declLine_add_length_lt_aliasLine (hi : m.declarations[i]? = some p) (ha : m.aliases ≠ []) :
    m.declLine i + p.length + 2 ≤ m.aliasLine := by
  have hlt : i < m.declarations.length := (List.getElem?_eq_some_iff.mp hi).1
  exact start_add_length_lt (getElem?_paragraphs_declaration hi) (Nat.add_lt_add_left hlt _)
    (List.getElem?_eq_some_iff.mp (getElem?_paragraphs_aliases ha)).1

theorem top_eq (h : m.header ≠ []) : m.top = [m.header] := by
  rw [top, if_neg (by rwa [List.isEmpty_iff])]

theorem getElem?_paragraphs_header (h : m.header ≠ []) : m.paragraphs[0]? = some m.header := by
  rw [paragraphs, top_eq h]
  rfl

theorem start_paragraphs_zero : start m.paragraphs 0 = 0 := by
  cases m.paragraphs <;> rfl

theorem getElem?_header (hr : r < m.header.length) : m.lines[r]? = m.header[r]? := by
  have hfirst := getElem?_paragraphs_header (List.ne_nil_of_length_pos (Nat.zero_lt_of_lt hr))
  rw [lines_eq, ← getElem?_spaced hfirst hr, start_paragraphs_zero, Nat.zero_add]

/-- The header ends before the declarations start. -/
theorem length_header_lt_declLine (h : m.header ≠ []) (hi : m.declarations[i]? = some p) :
    m.header.length < m.declLine i := by
  have hpos : 0 < m.top.length + i := by
    rw [top_eq h, List.length_singleton]
    omega
  have hlt := (List.getElem?_eq_some_iff.mp (getElem?_paragraphs_declaration hi)).1
  have hle := start_add_length_lt (getElem?_paragraphs_header h) hpos hlt
  rw [start_paragraphs_zero] at hle
  exact Nat.lt_of_lt_of_le (by omega) hle

/-- What the module needs is imported before the declarations. -/
theorem importedBefore_of_mem_imports {imported : Import} (h : imported ∈ m.imports)
    (hi : m.declarations[i]? = some p) : ImportedBefore m.lines imported.name (m.declLine i) := by
  obtain ⟨library, hlibrary, used, hused, hline⟩ := m.exists_mem_importLines h
  have hheader := m.mem_header_of_mem_importLines hline
  obtain ⟨j, hj, hline⟩ := List.getElem_of_mem hheader
  have hname : ∀ n ∈ used.map Import.name, IsName n := by
    intro n hn
    obtain ⟨i, -, rfl⟩ := List.mem_map.mp hn
    cases i <;> decide
  have hlibrary' : IsName (Bytes.ascii library) := by
    simp only [List.mem_cons, List.not_mem_nil, or_false] at hlibrary
    rcases hlibrary with rfl | rfl | rfl <;> decide
  refine ⟨j, hj.trans (length_header_lt_declLine (List.ne_nil_of_mem hheader) hi), Bytes.ascii library, _, hlibrary',
    hname, List.mem_map_of_mem hused, ?_⟩
  rw [getElem?_header hj, List.getElem?_eq_getElem hj, hline]

/-- Every line is empty or belongs to the header, to a declaration or to the aliases. -/
theorem cases_line (h : m.lines[k]? = some l) :
    l = [] ∨ l ∈ m.header ∨
      (∃ i p r, m.declarations[i]? = some p ∧ p[r]? = some l ∧ k = m.declLine i + r) ∨
      ∃ i a, m.aliases[i]? = some a ∧ l = a.text ∧ k = m.aliasLine + i := by
  rw [lines_eq] at h
  rcases exists_of_getElem?_spaced h with hl | ⟨i, p, r, hi, hr, rfl⟩
  · exact Or.inl hl
  by_cases htop : i < m.top.length
  · rw [paragraphs, List.getElem?_append_left htop, top] at hi
    split at hi
    · cases hi
    · have hp : p = m.header := List.mem_singleton.mp (List.mem_of_getElem? hi)
      exact Or.inr (Or.inl (hp ▸ List.mem_of_getElem? hr))
  · obtain ⟨i, rfl⟩ := Nat.exists_eq_add_of_le (Nat.le_of_not_lt htop)
    rw [getElem?_paragraphs] at hi
    by_cases hdecl : i < m.declarations.length
    · rw [List.getElem?_append_left hdecl] at hi
      exact Or.inr (Or.inr (Or.inl ⟨i, p, r, hi, hr, rfl⟩))
    · obtain ⟨i, rfl⟩ := Nat.exists_eq_add_of_le (Nat.le_of_not_lt hdecl)
      rw [List.getElem?_append_right (Nat.le_add_right _ _), Nat.add_sub_cancel_left, bottom] at hi
      split at hi
      · cases hi
      · cases i with
        | succ i => cases hi
        | zero =>
          cases hi
          rw [List.getElem?_map, Option.map_eq_some_iff] at hr
          obtain ⟨a, ha, rfl⟩ := hr
          exact Or.inr (Or.inr (Or.inr ⟨r, a, ha, rfl, rfl⟩))

theorem getElem?_declarations_block {b : Block} (hi : m.blocks[i]? = some b) : m.declarations[i]? = some b.lines := by
  have hlt : i < (m.blocks.map Block.lines).length := by
    rw [List.length_map]
    exact (List.getElem?_eq_some_iff.mp hi).1
  rw [declarations, List.getElem?_append_left hlt, List.getElem?_map, hi]
  rfl

theorem getElem?_declarations_union {u : UnionBlock} (hi : m.unions[i]? = some u) :
    m.declarations[m.blocks.length + i]? = some u.lines := by
  have hle : (m.blocks.map Block.lines).length ≤ m.blocks.length + i := by
    rw [List.length_map]
    exact Nat.le_add_right _ _
  rw [declarations, List.getElem?_append_right hle, List.length_map, Nat.add_sub_cancel_left, List.getElem?_map, hi]
  rfl

theorem cases_declaration (hi : m.declarations[i]? = some p) :
    (∃ b, m.blocks[i]? = some b ∧ p = b.lines) ∨
      ∃ j u, i = m.blocks.length + j ∧ m.unions[j]? = some u ∧ p = u.lines := by
  by_cases hlt : i < m.blocks.length
  · have hb := getElem?_declarations_block (List.getElem?_eq_getElem hlt)
    rw [hi] at hb
    exact Or.inl ⟨_, List.getElem?_eq_getElem hlt, Option.some.inj hb⟩
  · obtain ⟨j, rfl⟩ := Nat.exists_eq_add_of_le (Nat.le_of_not_lt hlt)
    have hj : j < m.unions.length := by
      have hlt := (List.getElem?_eq_some_iff.mp hi).1
      rw [declarations, List.length_append, List.length_map, List.length_map] at hlt
      omega
    have hu := getElem?_declarations_union (List.getElem?_eq_getElem hj)
    rw [hi] at hu
    exact Or.inr ⟨j, _, rfl, List.getElem?_eq_getElem hj, Option.some.inj hu⟩

theorem getElem?_blockHead {b : Block} (hb : m.blocks[i]? = some b) : m.lines[m.declLine i]? = some b.head :=
  getElem?_declaration (getElem?_declarations_block hb) b.getElem?_head

theorem getElem?_unionHead {u : UnionBlock} (hu : m.unions[i]? = some u) :
    m.lines[m.declLine (m.blocks.length + i)]? = some (unionHead u.name) :=
  getElem?_declaration (getElem?_declarations_union hu) u.getElem?_head

theorem getElem?_unionMember {u : UnionBlock} (hu : m.unions[i]? = some u) {x : TypeExpr}
    (hx : u.members[r]? = some x) :
    m.lines[m.declLine (m.blocks.length + i) + (r + 1)]? = some (fourSpaces ++ (x.text ++ Bytes.ascii ",")) :=
  getElem?_declaration (getElem?_declarations_union hu) (UnionBlock.getElem?_member hx)

theorem getElem?_unionClose {u : UnionBlock} (hu : m.unions[i]? = some u) :
    m.lines[m.declLine (m.blocks.length + i) + (u.members.length + 1)]? = some (Bytes.ascii "]") :=
  getElem?_declaration (getElem?_declarations_union hu) u.getElem?_close

/-- A line of the header that starts with a word is an import, of which a further word follows. -/
theorem header_word {w s : Bytes} (hw : IsName w) (h : w ++ Bytes.byte ' ' :: s ∈ m.header) :
    w = Bytes.ascii "from" ∧ ∃ b t, s = b :: t ∧ Bytes.isNameByte b = true := by
  have hfrom : ∀ t, (∃ b t', t = b :: t' ∧ Bytes.isNameByte b = true) →
      w ++ Bytes.byte ' ' :: s = Bytes.ascii "from" ++ Bytes.byte ' ' :: t →
      w = Bytes.ascii "from" ∧ ∃ b t, s = b :: t ∧ Bytes.isNameByte b = true := by
    intro t ht heq
    obtain ⟨hname, hrest⟩ := name_append_inj hw (by decide) (Bytes.apart_cons (by decide) _)
      (Bytes.apart_cons (by decide) _) heq
    exact ⟨hname, (List.cons.inj hrest).2 ▸ ht⟩
  rcases m.mem_header h with hnil | ⟨text, hcomment⟩ | ⟨hfuture, -⟩ | himport
  · exact absurd hnil (by simp)
  · exact absurd hcomment (name_ne_cons hw (by decide))
  · exact hfrom _ ⟨_, _, rfl, by decide⟩ hfuture
  · obtain ⟨library, hlibrary, used, himport⟩ := m.mem_importLines himport
    simp only [List.mem_cons, List.not_mem_nil, or_false] at hlibrary
    rcases hlibrary with rfl | rfl | rfl
    · exact hfrom _ ⟨_, _, rfl, by decide⟩ himport
    · exact hfrom _ ⟨_, _, rfl, by decide⟩ himport
    · exact hfrom _ ⟨_, _, rfl, by decide⟩ himport

/-- Names are names, and no alias reads like a union. -/
structure Spelled (m : Module) : Prop where
  blocks : ∀ b ∈ m.blocks, IsName b.name
  fields : ∀ name fields, .record name fields ∈ m.blocks → ∀ f ∈ fields, IsName f.name
  unions : ∀ u ∈ m.unions, IsName u.name
  aliases : ∀ a ∈ m.aliases, IsName a.name
  not_union : ∀ a ∈ m.aliases, a.type.text ≠ Bytes.ascii "Union["

namespace Spelled

/-- A line that starts with a word is an import, the first line of a declaration, or an alias. -/
theorem cases_word (hm : m.Spelled) {w s : Bytes} (hw : IsName w) (h : m.lines[k]? = some (w ++ Bytes.byte ' ' :: s)) :
    (w ++ Bytes.byte ' ' :: s ∈ m.header ∧ w = Bytes.ascii "from" ∧ ∃ b t, s = b :: t ∧ Bytes.isNameByte b = true) ∨
      (∃ i b mark, m.blocks[i]? = some b ∧ k = m.declLine i ∧ w = Bytes.ascii "class" ∧ s = b.name ++ mark ∧
        Bytes.Apart mark ∧ (mark = Bytes.ascii ":" → ∃ fields, b = .record b.name fields)) ∨
      (∃ i u, m.unions[i]? = some u ∧ k = m.declLine (m.blocks.length + i) ∧ w = u.name ∧
        s = Bytes.ascii "= Union[") ∨
      ∃ i a, m.aliases[i]? = some a ∧ k = m.aliasLine + i ∧ w = a.name ∧ s = Bytes.ascii "= " ++ a.type.text := by
  have hspace : ∀ t, w ++ Bytes.byte ' ' :: s ≠ fourSpaces ++ t := fun t => name_ne_cons hw (by decide)
  rcases cases_line h with hnil | hheader | ⟨i, p, r, hi, hr, rfl⟩ | ⟨i, a, ha, htext, rfl⟩
  · exact absurd hnil (by simp)
  · exact Or.inl ⟨hheader, header_word hw hheader⟩
  · rcases cases_declaration hi with ⟨b, hb, rfl⟩ | ⟨j, u, rfl, hu, rfl⟩
    · obtain ⟨inner, hlines, hinner⟩ := b.exists_inner
      rw [hlines] at hr
      cases r with
      | zero =>
        obtain ⟨mark, hapart, hrecord, hhead⟩ := b.head_eq
        rw [List.getElem?_cons_zero, hhead] at hr
        obtain ⟨hclass, hrest⟩ := eq_of_name_cons_eq hw isName_class (by decide) (Option.some.inj hr).symm
        exact Or.inr (Or.inl ⟨i, b, mark, hb, rfl, hclass, hrest, hapart, hrecord⟩)
      | succ r =>
        rcases hinner _ (List.mem_of_getElem? hr) with hnil | ⟨t, ht⟩
        · exact absurd hnil (by simp)
        · exact absurd ht (hspace t)
    · rcases UnionBlock.cases_line hr with ⟨rfl, hhead⟩ | ⟨r', x, -, -, hmember⟩ | hclose
      · have hhead' : w ++ Bytes.byte ' ' :: s = u.name ++ Bytes.byte ' ' :: Bytes.ascii "= Union[" := hhead
        obtain ⟨hname, hrest⟩ := eq_of_name_cons_eq hw (hm.unions u (List.mem_of_getElem? hu)) (by decide) hhead'
        exact Or.inr (Or.inr (Or.inl ⟨j, u, hu, rfl, hname, hrest⟩))
      · exact absurd hmember (hspace _)
      · exact absurd hclose (name_ne_cons hw (by decide))
  · rw [a.text_eq] at htext
    obtain ⟨hname, hrest⟩ := eq_of_name_cons_eq hw (hm.aliases a (List.mem_of_getElem? ha)) (by decide) htext
    exact Or.inr (Or.inr (Or.inr ⟨i, a, ha, rfl, hname, hrest⟩))

/-- The switch for annotations is in the header if it is anywhere. -/
theorem postponesAnnotations_iff (hm : m.Spelled) : PostponesAnnotations m.lines ↔ m.postponed = true := by
  constructor
  · rintro ⟨k, hk, -⟩
    have hword : m.lines[k]? =
        some (Bytes.ascii "from" ++ Bytes.byte ' ' :: Bytes.ascii "__future__ import annotations") := hk
    rcases hm.cases_word (by decide) hword with
      ⟨hheader, -⟩ | ⟨i, b, mark, -, -, hclass, -⟩ | ⟨i, u, -, -, -, hs⟩ | ⟨i, a, -, -, -, hs⟩
    · rcases m.mem_header hheader with hnil | ⟨text, hcomment⟩ | ⟨-, hpostponed⟩ | himport
      · cases hnil
      · cases hcomment
      · exact hpostponed
      · obtain ⟨library, hlibrary, used, himport⟩ := m.mem_importLines himport
        simp only [List.mem_cons, List.not_mem_nil, or_false] at hlibrary
        rcases hlibrary with rfl | rfl | rfl
        · cases himport
        · cases himport
        · cases himport
    · cases hclass
    · cases hs
    · cases hs
  · intro hpostponed
    obtain ⟨above, below, hheader, habove⟩ := m.exists_header_eq hpostponed
    have hline : ∀ j ≤ above.length, m.lines[j]? = (above ++ futureImport :: below)[j]? := by
      intro j hj
      rw [getElem?_header (by rw [hheader, List.length_append, List.length_cons]; omega), hheader]
    refine ⟨above.length, ?_, fun j hj l hl => habove l ?_⟩
    · rw [hline _ (Nat.le_refl _), List.getElem?_append_right (Nat.le_refl _), Nat.sub_self]
      rfl
    · rw [hline j (Nat.le_of_lt hj), List.getElem?_append_left hj] at hl
      exact List.mem_of_getElem? hl

/-- Only a union has the first line of a union. -/
theorem union_of_head (hm : m.Spelled) {n : Bytes} (hn : IsName n) (h : m.lines[k]? = some (unionHead n)) :
    ∃ i u, m.unions[i]? = some u ∧ u.name = n ∧ k = m.declLine (m.blocks.length + i) := by
  have hword : m.lines[k]? = some (n ++ Bytes.byte ' ' :: Bytes.ascii "= Union[") := h
  rcases hm.cases_word hn hword with
    ⟨-, -, b, t, hs, hb⟩ | ⟨i, b, mark, hb, -, -, hs, -⟩ | ⟨i, u, hu, hk, rfl, -⟩ | ⟨i, a, ha, -, -, hs⟩
  · cases hs
    cases hb
  · exact absurd hs.symm (name_ne_cons (hm.blocks b (List.mem_of_getElem? hb)) (by decide))
  · exact ⟨i, u, hu, rfl, hk⟩
  · have hassign : Bytes.ascii "= " ++ Bytes.ascii "Union[" = Bytes.ascii "= " ++ a.type.text := hs
    exact absurd (List.append_cancel_left hassign).symm (hm.not_union a (List.mem_of_getElem? ha))

/-- Only a class or an enum has the first line of one. -/
theorem block_of_head (hm : m.Spelled) {n mark : Bytes} (hn : IsName n) (hmark : Bytes.Apart mark)
    (h : m.lines[k]? = some (Bytes.ascii "class " ++ n ++ mark)) :
    ∃ i b, m.blocks[i]? = some b ∧ b.name = n ∧ k = m.declLine i ∧
      (mark = Bytes.ascii ":" → ∃ fields, b = .record n fields) := by
  have hword : m.lines[k]? = some (Bytes.ascii "class" ++ Bytes.byte ' ' :: (n ++ mark)) := h
  have hassign : ∀ s, n ++ mark ≠ Bytes.ascii "= " ++ s := fun s => name_ne_cons hn (by decide)
  rcases hm.cases_word isName_class hword with
    ⟨-, hfrom, -⟩ | ⟨i, b, mark', hb, hk, -, hs, hapart, hrecord⟩ | ⟨i, u, -, -, -, hs⟩ | ⟨i, a, -, -, -, hs⟩
  · exact absurd hfrom (by decide)
  · obtain ⟨rfl, rfl⟩ := name_append_inj hn (hm.blocks b (List.mem_of_getElem? hb)) hmark hapart hs
    exact ⟨i, b, hb, rfl, hk, hrecord⟩
  · exact absurd hs (hassign (Bytes.ascii "Union["))
  · exact absurd hs (hassign a.type.text)

/-- Only an alias reads like an alias. -/
theorem aliasLine (hm : m.Spelled) {n e : Bytes} (h : AliasLine m.lines n k e) :
    ∃ i a, m.aliases[i]? = some a ∧ a.name = n ∧ a.type.text = e ∧ k = m.aliasLine + i := by
  have hword : n ++ Bytes.ascii " = " ++ e = n ++ Bytes.byte ' ' :: (Bytes.ascii "= " ++ e) := List.append_assoc _ _ _
  rcases hm.cases_word h.isName (hword ▸ h.line) with
    ⟨-, -, b, t, hs, hb⟩ | ⟨i, b, mark, hb, -, -, hs, -⟩ | ⟨i, u, -, -, -, hs⟩ | ⟨i, a, ha, hk, rfl, hs⟩
  · cases hs
    cases hb
  · exact absurd hs.symm (name_ne_cons (hm.blocks b (List.mem_of_getElem? hb)) (by decide))
  · have hassign : Bytes.ascii "= " ++ e = Bytes.ascii "= " ++ Bytes.ascii "Union[" := hs
    exact absurd (List.append_cancel_left hassign) h.not_union
  · exact ⟨i, a, ha, rfl, (List.append_cancel_left hs).symm, hk⟩

/-- Only the members of a union read like members of a union. -/
theorem memberLine (hm : m.Spelled) {n e : Bytes} (h : MemberLine m.lines n k e) :
    ∃ i u r x, m.unions[i]? = some u ∧ u.name = n ∧ u.members[r]? = some x ∧ x.text = e ∧
      k = m.declLine (m.blocks.length + i) + (r + 1) := by
  obtain ⟨first, hfirst, hhead, hbetween⟩ := h.inside
  obtain ⟨i, u, hu, hname, rfl⟩ := hm.union_of_head h.isName hhead
  have hbracket : ∀ s, Bytes.ascii "]" ≠ fourSpaces ++ s := fun s hs => by cases hs
  obtain ⟨r, rfl⟩ := Nat.exists_eq_add_of_lt hfirst
  have hr : r < u.members.length := by
    -- The closing bracket is not indented, so the line stands above it.
    by_contra hge
    by_cases heq : r = u.members.length
    · have hline := h.line
      rw [heq, Nat.add_assoc, getElem?_unionClose hu] at hline
      exact hbracket _ (Option.some.inj hline)
    · obtain ⟨l, hl⟩ := hbetween (m.declLine (m.blocks.length + i) + (u.members.length + 1)) (by omega) (by omega)
      rw [getElem?_unionClose hu] at hl
      exact hbracket _ (Option.some.inj hl)
  have hline := h.line
  rw [Nat.add_assoc, getElem?_unionMember hu (List.getElem?_eq_getElem hr)] at hline
  have htext : u.members[r].text = e :=
    List.append_cancel_right (List.append_cancel_left (Option.some.inj hline))
  exact ⟨i, u, r, u.members[r], hu, hname, List.getElem?_eq_getElem hr, htext, rfl⟩

/-- Only a class reads like a class, and its fields read like its fields. -/
theorem classAt (hm : m.Spelled) {n : Bytes} {fields : List Field} (h : ClassAt m.lines k n fields) :
    ∃ i fields', m.blocks[i]? = some (.record n fields') ∧ k = m.declLine i ∧
      ∀ f ∈ fields, ∃ f' ∈ fields', f'.name = f.name ∧ f'.type.text = f.type.text := by
  have hhead : m.lines[k]? = some (Bytes.ascii "class " ++ n ++ Bytes.ascii ":") :=
    h.getElem? (show (Block.record n fields).lines[0]? = some _ from rfl)
  obtain ⟨i, b, hb, -, rfl, hrecord⟩ := hm.block_of_head h.isName (Bytes.apart_cons (by decide) _) hhead
  obtain ⟨fields', rfl⟩ := hrecord rfl
  have hactual : ∀ r l, (Block.record n fields').lines[r]? = some l → m.lines[m.declLine i + r]? = some l :=
    fun r l => getElem?_declaration (getElem?_declarations_block hb)
  have hread : ∀ r f, fields[r]? = some f → m.lines[m.declLine i + (r + 1)]? = some (fourSpaces ++ f.text) :=
    fun r f hf => h.getElem? (Block.getElem?_field hf)
  have hlength : fields.length ≤ fields'.length := by
    -- The line below the last field of a class is empty, and a class without fields reads `pass`.
    by_contra hlt
    have hnext := hread fields'.length fields[fields'.length] (List.getElem?_eq_getElem (Nat.lt_of_not_le hlt))
    cases hne : fields' with
    | nil =>
      subst hne
      have hpass := hactual 1 _ (Block.getElem?_pass n)
      have hfirst : 0 < fields.length := Nat.lt_of_not_le hlt
      rw [hread 0 fields[0] (List.getElem?_eq_getElem hfirst)] at hpass
      exact Field.text_ne_pass (h.isName_fields _ (List.getElem_mem hfirst))
        (List.append_cancel_left (Option.some.inj hpass))
    | cons f fs =>
      rw [hactual _ _ (Block.getElem?_gap (by rw [hne]; exact List.cons_ne_nil f fs))] at hnext
      cases hnext
  refine ⟨i, fields', hb, rfl, fun f hf => ?_⟩
  obtain ⟨r, hr⟩ := List.getElem?_of_mem hf
  have hr' : r < fields'.length := lt_of_lt_of_le (List.getElem?_eq_some_iff.mp hr).1 hlength
  have hline := hread r f hr
  rw [hactual (r + 1) _ (Block.getElem?_field (List.getElem?_eq_getElem hr'))] at hline
  have hname := hm.fields n fields' (List.mem_of_getElem? hb) fields'[r] (List.getElem_mem hr')
  exact ⟨fields'[r], List.getElem_mem hr', Field.text_inj hname (h.isName_fields f hf)
    (List.append_cancel_left (Option.some.inj hline))⟩

end Spelled

/-! ## What a module says can be read -/

theorem memberLine_of_getElem? (hm : m.Spelled) {u : UnionBlock} {x : TypeExpr} (hu : m.unions[i]? = some u)
    (hx : u.members[r]? = some x) :
    MemberLine m.lines u.name (m.declLine (m.blocks.length + i) + (r + 1)) x.text := by
  have hr : r < u.members.length := (List.getElem?_eq_some_iff.mp hx).1
  have hinside : ∃ first < m.declLine (m.blocks.length + i) + (r + 1), m.lines[first]? = some (unionHead u.name) ∧
      ∀ j, first < j → j < m.declLine (m.blocks.length + i) + (r + 1) → ∃ l, m.lines[j]? = some (fourSpaces ++ l) := by
    refine ⟨m.declLine (m.blocks.length + i), by omega, getElem?_unionHead hu, fun j hj hjr => ?_⟩
    obtain ⟨r', rfl⟩ := Nat.exists_eq_add_of_lt hj
    exact ⟨_, getElem?_unionMember hu (List.getElem?_eq_getElem (show r' < u.members.length by omega))⟩
  exact ⟨hm.unions u (List.mem_of_getElem? hu), hinside, getElem?_unionMember hu hx⟩

theorem aliasLine_of_getElem? (hm : m.Spelled) {a : Alias} (ha : m.aliases[i]? = some a) :
    AliasLine m.lines a.name (m.aliasLine + i) a.type.text :=
  ⟨hm.aliases a (List.mem_of_getElem? ha), getElem?_alias ha, hm.not_union a (List.mem_of_getElem? ha)⟩

theorem classAt_of_getElem? (hm : m.Spelled) {n : Bytes} {fields : List Field}
    (hi : m.blocks[i]? = some (.record n fields)) : ClassAt m.lines (m.declLine i) n fields := by
  have hmem := List.mem_of_getElem? hi
  refine ⟨hm.blocks _ hmem, hm.fields n fields hmem, List.prefix_iff_getElem?.mpr fun r hr => ?_⟩
  rw [List.getElem?_drop]
  exact getElem?_declaration (getElem?_declarations_block hi) (List.getElem?_eq_getElem hr)

/-! ## Names that are bound -/

def declNames (m : Module) : List Bytes := m.blocks.map Block.name ++ m.unions.map UnionBlock.name

theorem length_declNames : m.declNames.length = m.declarations.length := by
  simp [declNames, declarations]

theorem getElem?_declNames_block {b : Block} (hi : m.blocks[i]? = some b) : m.declNames[i]? = some b.name := by
  have hlt : i < (m.blocks.map Block.name).length := by
    rw [List.length_map]
    exact (List.getElem?_eq_some_iff.mp hi).1
  rw [declNames, List.getElem?_append_left hlt, List.getElem?_map, hi]
  rfl

theorem getElem?_declNames_union {u : UnionBlock} (hi : m.unions[i]? = some u) :
    m.declNames[m.blocks.length + i]? = some u.name := by
  have hle : (m.blocks.map Block.name).length ≤ m.blocks.length + i := by
    rw [List.length_map]
    exact Nat.le_add_right _ _
  rw [declNames, List.getElem?_append_right hle, List.length_map, Nat.add_sub_cancel_left, List.getElem?_map, hi]
  rfl

/-- A declaration is complete where a later line starts at the left margin. -/
theorem boundBefore_of_flush {n : Bytes} {q : Nat} (hn : m.declNames[i]? = some n) (hi : m.declarations[i]? = some p)
    (hq : m.declLine i + p.length ≤ q) (hl : m.lines[q]? = some l) (hflush : Flush l) (hk : q ≤ k) :
    BoundBefore m.lines n k := by
  rcases cases_declaration hi with ⟨b, hb, rfl⟩ | ⟨j, u, rfl, hu, rfl⟩
  · have hpos : 0 < b.lines.length := (List.getElem?_eq_some_iff.mp b.getElem?_head).1
    have hhead := getElem?_blockHead hb
    rw [getElem?_declNames_block hb] at hn
    refine .block ?_ hl hflush (lt_of_lt_of_le (Nat.lt_add_of_pos_right hpos) hq) hk
    cases b with
    | record name fields => exact Or.inl (Option.some.inj hn ▸ hhead)
    | enum name cases => exact Or.inr (Option.some.inj hn ▸ hhead)
  · rw [getElem?_declNames_union hu] at hn
    rw [u.length_lines] at hq
    exact .union (Option.some.inj hn ▸ getElem?_unionHead hu) (getElem?_unionClose hu) (by omega) (by omega)

namespace Spelled

theorem flush_declaration (hm : m.Spelled) (hi : m.declarations[i]? = some p) :
    ∃ l, m.lines[m.declLine i]? = some l ∧ Flush l := by
  rcases cases_declaration hi with ⟨b, hb, rfl⟩ | ⟨j, u, rfl, hu, rfl⟩
  · obtain ⟨mark, -, -, hhead⟩ := b.head_eq
    exact ⟨b.head, getElem?_blockHead hb, hhead ▸ flush_name isName_class _⟩
  · exact ⟨_, getElem?_unionHead hu, flush_name (hm.unions u (List.mem_of_getElem? hu)) _⟩

/-- A name is bound in every later declaration. -/
theorem boundBefore_of_lt (hm : m.Spelled) {n : Bytes} (hn : m.declNames[i]? = some n) (hij : i < j)
    (hj : j < m.declarations.length) (hk : m.declLine j ≤ k) : BoundBefore m.lines n k := by
  have hi : i < m.declarations.length := Nat.lt_trans hij hj
  have hlt := declLine_add_length_lt (List.getElem?_eq_getElem hi) hij hj
  obtain ⟨l, hl, hflush⟩ := hm.flush_declaration (List.getElem?_eq_getElem hj)
  exact boundBefore_of_flush hn (List.getElem?_eq_getElem hi) (by omega) hl hflush hk

/-- Every name is bound in the aliases. -/
theorem boundBefore_aliasLine (hm : m.Spelled) {n : Bytes} (hn : m.declNames[i]? = some n) {a : Alias}
    (ha : m.aliases[0]? = some a) (hk : m.aliasLine ≤ k) : BoundBefore m.lines n k := by
  have hi : i < m.declarations.length := by
    rw [← length_declNames]
    exact (List.getElem?_eq_some_iff.mp hn).1
  have hmem : a ∈ m.aliases := List.mem_of_getElem? ha
  have hlt := declLine_add_length_lt_aliasLine (List.getElem?_eq_getElem hi) (List.ne_nil_of_mem hmem)
  have hflush : Flush a.text := a.text_eq ▸ flush_name (hm.aliases a hmem) _
  exact boundBefore_of_flush hn (List.getElem?_eq_getElem hi) (by omega) (getElem?_alias ha) hflush hk

/-- Only the declaration of a name binds it. -/
theorem exists_of_boundBefore (hm : m.Spelled) {n : Bytes} (hn : IsName n) (h : BoundBefore m.lines n k) :
    ∃ i, m.declNames[i]? = some n ∧ m.declLine i < k := by
  cases h with
  | @block first _ _ head _ _ hij hjk =>
    have hhead : ∃ mark, Bytes.Apart mark ∧ m.lines[first]? = some (Bytes.ascii "class " ++ n ++ mark) := by
      rcases head with head | head
      · exact ⟨_, Bytes.apart_cons (by decide) _, head⟩
      · exact ⟨_, Bytes.apart_cons (by decide) _, head⟩
    obtain ⟨mark, hmark, hhead⟩ := hhead
    obtain ⟨i, b, hb, rfl, rfl, -⟩ := hm.block_of_head hn hmark hhead
    exact ⟨i, getElem?_declNames_block hb, lt_of_lt_of_le hij hjk⟩
  | union head _ hij hjk =>
    obtain ⟨i, u, hu, rfl, rfl⟩ := hm.union_of_head hn head
    exact ⟨_, getElem?_declNames_union hu, Nat.lt_trans hij hjk⟩

end Spelled

end Module

end Typewright
