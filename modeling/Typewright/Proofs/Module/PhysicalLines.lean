import Typewright.Proofs.Module.Binding

/-!
# Comments stay comments

The text of a module is cut into lines again when it is read: at a line feed, at a carriage return, and at both
together. Comments are the only text in it that comes from outside as it is.

* `physicalLines` : the lines that a text is read as;
* `Bytes.Printable` : no control characters; all lines of a module other than comments are so
  (`Module.Renders.exists_lines_eq`);
* `Bytes.Resumes` : after each carriage return a text ends, goes on in a new line, or goes on with a mark;
* `Graph.Built.comments_stay_comments_iff` : the lines that a module is read as are the lines it was written in just if no
  comment has a carriage return, and comments stay comments just if they resume with the mark.
-/

namespace Typewright

/-! ## Physical lines -/

def Bytes.carriageReturn : UInt8 := 13

/-- Whether a line ends at a byte. -/
def Bytes.endsLine (b : UInt8) : Bool := b == lineFeed || b == carriageReturn

open Bytes

/-- The lines that a text is read as. A line ends at a line feed, at a carriage return, or at both together; the end of
the text ends a line too, unless it is empty. -/
def physicalLines : Bytes → List Bytes
  | [] => []
  | 13 :: 10 :: s => [] :: physicalLines s
  | b :: s =>
    if endsLine b then [] :: physicalLines s
    else
      match physicalLines s with
      | [] => [[b]]
      | l :: ls => (b :: l) :: ls

/-- A line feed directly behind a carriage return ends no line of its own. -/
theorem physicalLines_return_feed (s : Bytes) :
    physicalLines (carriageReturn :: lineFeed :: s) = physicalLines (lineFeed :: s) := rfl

theorem physicalLines_return {s : Bytes} (hs : s.head? ≠ some lineFeed) :
    physicalLines (carriageReturn :: s) = [] :: physicalLines s := by
  rw [physicalLines]
  · rfl
  · rintro t - rfl
    exact hs rfl

theorem physicalLines_feed (s : Bytes) : physicalLines (lineFeed :: s) = [] :: physicalLines s := rfl

theorem physicalLines_cons {b : UInt8} (hb : endsLine b = false) {s l : Bytes} {ls : List Bytes}
    (hs : physicalLines s = l :: ls) : physicalLines (b :: s) = (b :: l) :: ls := by
  rw [physicalLines]
  · rw [hb, hs]
    rfl
  · rintro t rfl -
    exact absurd hb (by decide)

theorem physicalLines_last {b : UInt8} (hb : endsLine b = false) {s : Bytes} (hs : physicalLines s = []) :
    physicalLines (b :: s) = [[b]] := by
  rw [physicalLines]
  · rw [hb, hs]
    rfl
  · rintro t rfl -
    exact absurd hb (by decide)

theorem endsLine_iff {b : UInt8} : endsLine b = true ↔ b = lineFeed ∨ b = carriageReturn := by
  simp [endsLine]

/-- A byte that ends no line is neither a line feed nor a carriage return. -/
theorem endsLine_eq_false_iff {b : UInt8} : endsLine b = false ↔ b ≠ lineFeed ∧ b ≠ carriageReturn := by
  simp [endsLine]

theorem physicalLines_feed_ne_nil (s t : Bytes) : ∃ l ls, physicalLines (s ++ lineFeed :: t) = l :: ls := by
  induction s with
  | nil => exact ⟨_, _, rfl⟩
  | cons b s ih =>
    obtain ⟨l, ls, hs⟩ := ih
    rw [List.cons_append]
    by_cases hb : endsLine b = true
    · rcases endsLine_iff.mp hb with rfl | rfl
      · exact ⟨_, _, physicalLines_feed _⟩
      · by_cases hfeed : (s ++ lineFeed :: t).head? = some lineFeed
        · obtain ⟨u, hu⟩ := List.head?_eq_some_iff.mp hfeed
          rw [hu, physicalLines_return_feed, ← hu]
          exact ⟨l, ls, hs⟩
        · exact ⟨_, _, physicalLines_return hfeed⟩
    · exact ⟨_, _, physicalLines_cons (Bool.eq_false_of_not_eq_true hb) hs⟩

/-- Behind a line feed a text is read as if it started there. -/
theorem physicalLines_append (s t : Bytes) :
    physicalLines (s ++ lineFeed :: t) = physicalLines (s ++ [lineFeed]) ++ physicalLines t := by
  induction s with
  | nil => rfl
  | cons b s ih =>
    rw [List.cons_append, List.cons_append]
    by_cases hb : endsLine b = true
    · rcases endsLine_iff.mp hb with rfl | rfl
      · rw [physicalLines_feed, physicalLines_feed, ih, List.cons_append]
      · have hhead : (s ++ lineFeed :: t).head? = (s ++ [lineFeed]).head? := by cases s <;> rfl
        by_cases hfeed : (s ++ lineFeed :: t).head? = some lineFeed
        · -- The line feed may be the one in the middle, or stand in `s`; both texts go on with it.
          obtain ⟨u, hu⟩ := List.head?_eq_some_iff.mp hfeed
          obtain ⟨v, hv⟩ := List.head?_eq_some_iff.mp (hhead ▸ hfeed)
          rw [hu, hv] at ih ⊢
          exact ih
        · rw [physicalLines_return hfeed, physicalLines_return (hhead ▸ hfeed), ih, List.cons_append]
    · have hb := Bool.eq_false_of_not_eq_true hb
      obtain ⟨l, ls, hl⟩ := physicalLines_feed_ne_nil s []
      rw [hl, List.cons_append] at ih
      rw [physicalLines_cons hb ih, physicalLines_cons hb hl, List.cons_append]

theorem physicalLines_line {l : Bytes} (hl : ∀ b ∈ l, endsLine b = false) (s : Bytes) :
    physicalLines (l ++ lineFeed :: s) = l :: physicalLines s := by
  induction l with
  | nil => exact physicalLines_feed s
  | cons b l ih =>
    exact physicalLines_cons (hl b List.mem_cons_self) (ih fun c hc => hl c (List.mem_cons_of_mem b hc))

/-- No line is read with the end of a line in it. -/
theorem endsLine_of_mem_physicalLines {s l : Bytes} (hl : l ∈ physicalLines s) : ∀ b ∈ l, endsLine b = false := by
  induction s generalizing l with
  | nil => exact absurd hl List.not_mem_nil
  | cons a s ih =>
    by_cases ha : endsLine a = true
    · have hempty : l ∈ [] :: physicalLines s → ∀ b ∈ l, endsLine b = false := by
        intro h
        rcases List.mem_cons.mp h with rfl | h
        · exact fun b hb => absurd hb List.not_mem_nil
        · exact ih h
      rcases endsLine_iff.mp ha with rfl | rfl
      · exact hempty hl
      · by_cases hfeed : s.head? = some lineFeed
        · obtain ⟨u, rfl⟩ := List.head?_eq_some_iff.mp hfeed
          exact ih hl
        · rw [physicalLines_return hfeed] at hl
          exact hempty hl
    · have ha := Bool.eq_false_of_not_eq_true ha
      cases hs : physicalLines s with
      | nil =>
        rw [physicalLines_last ha hs] at hl
        simpa [List.mem_singleton.mp hl] using ha
      | cons first rest =>
        rw [hs] at ih
        rw [physicalLines_cons ha hs] at hl
        rcases List.mem_cons.mp hl with rfl | hl
        · intro b hb
          rcases List.mem_cons.mp hb with rfl | hb
          · exact ha
          · exact ih List.mem_cons_self b hb
        · exact ih (List.mem_cons_of_mem _ hl)

theorem sourceOf_cons (l : Bytes) (ls : List Bytes) : sourceOf (l :: ls) = l ++ lineFeed :: sourceOf ls := by
  rw [sourceOf, List.flatMap_cons, List.append_assoc]
  rfl

theorem physicalLines_sourceOf_append (ls ls' : List Bytes) :
    physicalLines (sourceOf (ls ++ ls')) = physicalLines (sourceOf ls) ++ physicalLines (sourceOf ls') := by
  induction ls with
  | nil => rfl
  | cons l ls ih =>
    rw [List.cons_append, sourceOf_cons, sourceOf_cons, physicalLines_append, ih, ← List.append_assoc,
      ← physicalLines_append]

/-- Lines without the end of a line in them are read as they were written. -/
theorem physicalLines_sourceOf {ls : List Bytes} (h : ∀ l ∈ ls, ∀ b ∈ l, endsLine b = false) :
    physicalLines (sourceOf ls) = ls := by
  induction ls with
  | nil => rfl
  | cons l ls ih =>
    rw [sourceOf_cons, physicalLines_line (h l List.mem_cons_self), ih fun l' hl' => h l' (List.mem_cons_of_mem l hl')]

/-! ## Lines that are no comments -/

/-- A text without control characters. -/
def Bytes.Printable (s : Bytes) : Prop := ∀ b ∈ s, 32 ≤ b

instance (s : Bytes) : Decidable (Printable s) := decidable_of_iff (s.all (32 ≤ ·) = true) (by simp [Printable])

theorem printable_append {s t : Bytes} : Printable (s ++ t) ↔ Printable s ∧ Printable t := List.forall_mem_append

theorem Bytes.Printable.endsLine {s : Bytes} (h : Printable s) : ∀ b ∈ s, endsLine b = false := by
  intro b hb
  rw [endsLine_eq_false_iff]
  constructor
  · rintro rfl
    exact absurd (h _ hb) (by decide)
  · rintro rfl
    exact absurd (h _ hb) (by decide)

theorem printable_of_isNameByte {s : Bytes} (h : ∀ b ∈ s, isNameByte b = true) : Printable s := by
  intro b hb
  have hbyte := h b hb
  rw [isNameByte, Bool.or_eq_true, decide_eq_true_eq] at hbyte
  rw [UInt8.le_iff_toNat_le]
  show 32 ≤ b.toNat
  rcases hbyte with hword | hwide
  · by_contra hlt
    have hsmall : ∀ n : Nat, n < 32 → Character.isAsciiWord n = false := by decide
    rw [hsmall b.toNat (by omega)] at hword
    exact absurd hword (by decide)
  · omega

theorem IsName.printable {n : Bytes} (h : IsName n) : Printable n := printable_of_isNameByte h.2

theorem printable_caseNumber (i : Nat) : Printable (caseNumber i) := by
  intro b hb
  rcases eq_minus_or_isDigit_of_mem_decimalInt _ b hb with rfl | hdigit
  · decide
  · rw [isDigit, Bool.and_eq_true, decide_eq_true_eq] at hdigit
    exact UInt8.le_trans (by decide) hdigit.1

theorem printable_join {sep : Bytes} (hsep : Printable sep) {l : List Bytes} (hl : ∀ s ∈ l, Printable s) :
    Printable (join sep l) := Bytes.forall_mem_join hsep hl

namespace TypeExpr

mutual

/-- An expression is printed without control characters. -/
theorem printable_text (e : TypeExpr) (he : ∀ w ∈ e.mentions, IsName w.word) : Printable e.text := by
  cases e with
  | builtin b => exact b.isName_name.printable
  | named n => exact (he _ List.mem_cons_self).printable
  | quoted n =>
    have hn : Printable n := (he ⟨n, true⟩ List.mem_cons_self).printable
    show Printable ([quote] ++ n ++ [quote])
    simp only [printable_append, hn]
    decide
  | list e =>
    rw [mentions] at he
    have hrest := printable_text e fun w hw => he w (List.mem_cons_of_mem _ hw)
    simp only [text, printable_append, hrest]
    decide
  | dict e =>
    rw [mentions] at he
    have hrest := printable_text e fun w hw => he w (List.mem_cons_of_mem _ (List.mem_cons_of_mem _ hw))
    simp only [text, printable_append, hrest]
    decide
  | optional e =>
    rw [mentions] at he
    have hrest := printable_text e fun w hw => he w (List.mem_cons_of_mem _ hw)
    simp only [text, printable_append, hrest]
    decide
  | oneOf es =>
    rw [mentions] at he
    rw [text]
    exact printable_join (by decide) (printable_texts es he)

theorem printable_texts (es : List TypeExpr) (hes : ∀ w ∈ mentionsAll es, IsName w.word) :
    ∀ s ∈ texts es, Printable s := by
  cases es with
  | nil => exact fun s hs => absurd hs List.not_mem_nil
  | cons e es =>
    rw [mentionsAll] at hes
    intro s hs
    rcases List.mem_cons.mp hs with rfl | hs
    · exact printable_text e fun w hw => hes w (List.mem_append_left _ hw)
    · exact printable_texts es (fun w hw => hes w (List.mem_append_right _ hw)) s hs

end

end TypeExpr

theorem printable_signatureLines {fields : List Field} (h : ∀ f ∈ fields, Printable f.text) :
    ∀ l ∈ signatureLines fields, Printable l := by
  have hjoin : Printable (join (ascii ", ") (ascii "self" :: fields.map Field.text)) := by
    refine printable_join (by decide) fun s hs => ?_
    rcases List.mem_cons.mp hs with rfl | hs
    · decide
    · obtain ⟨f, hf, rfl⟩ := List.mem_map.mp hs
      exact h f hf
  intro l hl
  simp only [signatureLines] at hl
  split at hl
  · rw [List.mem_singleton.mp hl]
    simp only [printable_append, hjoin]
    decide
  · simp only [List.cons_append, List.mem_cons, List.mem_append, List.mem_map, List.not_mem_nil, or_false] at hl
    rcases hl with rfl | rfl | ⟨f, hf, rfl⟩ | rfl
    · decide
    · decide
    · simp only [printable_append, h f hf]
      decide
    · decide

theorem Block.printable_record {name : Bytes} {fields : List Field} (hname : IsName name)
    (hfields : ∀ f ∈ fields, IsName f.name ∧ Printable f.type.text) :
    ∀ l ∈ (Block.record name fields).lines, Printable l := by
  have htexts : ∀ f ∈ fields, Printable f.text := by
    intro f hf
    simp only [Field.text, printable_append, (hfields f hf).1.printable, (hfields f hf).2]
    decide
  intro l hl
  rw [lines] at hl
  rcases List.mem_cons.mp hl with rfl | hl
  · simp only [printable_append, hname.printable]
    decide
  split at hl
  · rw [List.mem_singleton.mp hl]
    decide
  · rcases List.mem_append.mp hl with hl | hl
    · obtain ⟨f, hf, rfl⟩ := List.mem_map.mp hl
      simp only [printable_append, htexts f hf]
      decide
    · rcases List.mem_cons.mp hl with rfl | hl
      · decide
      · rcases List.mem_append.mp hl with hl | hl
        · exact printable_signatureLines htexts l hl
        · obtain ⟨f, hf, rfl⟩ := List.mem_map.mp hl
          simp only [printable_append, (hfields f hf).1.printable]
          decide

theorem Block.printable_enum {name : Bytes} {cases : List Bytes} (hname : IsName name)
    (hcases : ∀ c ∈ cases, IsName c) : ∀ l ∈ (Block.enum name cases).lines, Printable l := by
  intro l hl
  rw [lines] at hl
  rcases List.mem_cons.mp hl with rfl | hl
  · simp only [printable_append, hname.printable]
    decide
  rcases List.mem_append.mp hl with hl | hl
  · split at hl
    · rw [List.mem_singleton.mp hl]
      decide
    · exact absurd hl List.not_mem_nil
  · obtain ⟨⟨c, i⟩, hc, rfl⟩ := List.mem_map.mp hl
    simp only [printable_append, (hcases c (List.fst_mem_of_mem_zipIdx hc)).printable, printable_caseNumber]
    decide

namespace Module

variable {m : Module} {u : CharacterData} {g : Graph} {o : Options}

theorem printable_importLines {l : Bytes} (hl : l ∈ m.importLines) : Printable l := by
  obtain ⟨library, hlibrary, used, rfl⟩ := m.mem_importLines hl
  have hnames : Printable (join (ascii ", ") (used.map Import.name)) := by
    refine printable_join (by decide) fun s hs => ?_
    obtain ⟨i, -, rfl⟩ := List.mem_map.mp hs
    cases i <;> decide
  have hlibrary' : Printable (ascii library) := by
    simp only [List.mem_cons, List.not_mem_nil, or_false] at hlibrary
    rcases hlibrary with rfl | rfl | rfl <;> decide
  simp only [importOf, printable_append, hnames, hlibrary']
  decide

theorem Renders.printable_block (hu : u.Standard) (hm : m.Renders u g o) {b : Block} (hb : b ∈ m.blocks) :
    ∀ l ∈ b.lines, Printable l := by
  have hname := (hm.spelled hu).blocks b hb
  obtain ⟨id, -, hdecl⟩ := exists_of_forall₂_right hm.blocks hb
  cases b with
  | record name fields =>
    obtain ⟨-, hint, ps, -, -, hfields⟩ := hdecl
    refine Block.printable_record hname fun f hf => ⟨(hm.spelled hu).fields name fields hb f hf, ?_⟩
    obtain ⟨p, -, hwrites⟩ := exists_of_forall₂_right hfields hf
    exact f.type.printable_text (hwrites.isName hu)
  | enum name cases =>
    obtain ⟨-, hint, cs, -, rfl⟩ := hdecl
    exact Block.printable_enum hname (isName_of_mem_caseNames hu o cs)

theorem Renders.printable_union (hu : u.Standard) (hm : m.Renders u g o) {union : UnionBlock}
    (hunion : union ∈ m.unions) : ∀ l ∈ union.lines, Printable l := by
  obtain ⟨i, hi⟩ := List.getElem?_of_mem hunion
  have hlt : i < (g.unionOrder o).length := hm.length_unions ▸ (List.getElem?_eq_some_iff.mp hi).1
  have hdecl := hm.unions i _ union (List.getElem?_eq_getElem hlt) hi
  intro l hl
  obtain ⟨r, hr⟩ := List.getElem?_of_mem hl
  rcases UnionBlock.cases_line hr with ⟨-, rfl⟩ | ⟨r, x, rfl, hx, rfl⟩ | rfl
  · simp only [unionHead, printable_append, ((hm.spelled hu).unions union hunion).printable]
    decide
  · obtain ⟨t, -, hwrites⟩ := exists_of_forall₂_right hdecl.members (List.mem_of_getElem? hx)
    simp only [printable_append, x.printable_text (hwrites.isName hu)]
    decide
  · decide

theorem Renders.printable_alias (hu : u.Standard) (hm : m.Renders u g o) {a : Alias} (ha : a ∈ m.aliases) :
    Printable a.text := by
  obtain ⟨top, -, hnames⟩ := exists_of_forall₂_right hm.aliases ha
  simp only [Alias.text, printable_append, ((hm.spelled hu).aliases a ha).printable,
    a.type.printable_text (hnames.type.isName hu)]
  decide

theorem exists_joinGroups_eq (group : List Bytes) (groups : List (List Bytes)) :
    ∃ rest, joinGroups (group :: groups) = group ++ rest ∧ ∀ l ∈ rest, l = [] ∨ ∃ group ∈ groups, l ∈ group := by
  cases hgroup : group.isEmpty with
  | true =>
    refine ⟨joinGroups groups, ?_, fun l hl => mem_joinGroups hl⟩
    rw [List.isEmpty_iff.mp hgroup]
    rfl
  | false =>
    refine ⟨(groups.filter fun g => !g.isEmpty).flatMap ([] :: ·), ?_, fun l hl => ?_⟩
    · rw [joinGroups, List.filter_cons_of_pos (by rw [hgroup]; rfl)]
    · obtain ⟨other, hother, hl⟩ := List.mem_flatMap.mp hl
      rcases List.mem_cons.mp hl with rfl | hl
      · exact Or.inl rfl
      · exact Or.inr ⟨other, (List.mem_filter.mp hother).1, hl⟩

theorem mem_spaced {ps : List (List Bytes)} {l : Bytes} (hl : l ∈ spaced ps) : l = [] ∨ ∃ p ∈ ps, l ∈ p := by
  obtain ⟨k, hk⟩ := List.getElem?_of_mem hl
  rcases exists_of_getElem?_spaced hk with rfl | ⟨i, p, r, hi, hr, -⟩
  · exact Or.inl rfl
  · exact Or.inr ⟨p, List.mem_of_getElem? hi, List.mem_of_getElem? hr⟩

theorem exists_spaced_eq (p : List Bytes) (ps : List (List Bytes)) :
    ∃ rest, spaced (p :: ps) = p ++ rest ∧ ∀ l ∈ rest, l = [] ∨ ∃ q ∈ ps, l ∈ q := by
  cases ps with
  | nil => exact ⟨[], (List.append_nil p).symm, fun l hl => absurd hl List.not_mem_nil⟩
  | cons q ps =>
    refine ⟨[] :: [] :: spaced (q :: ps), rfl, fun l hl => ?_⟩
    rcases List.mem_cons.mp hl with rfl | hl
    · exact Or.inl rfl
    rcases List.mem_cons.mp hl with rfl | hl
    · exact Or.inl rfl
    · exact mem_spaced hl

/-- A header starts with the comments. -/
theorem exists_header_eq_comments (m : Module) :
    ∃ rest, m.header = commentLines (ascii "# ") m.comments ++ rest ∧ ∀ l ∈ rest, Printable l := by
  obtain ⟨rest, hheader, hrest⟩ := exists_joinGroups_eq (commentLines (ascii "# ") m.comments)
    [if m.postponed then [futureImport] else [], m.importLines]
  refine ⟨rest, hheader, fun l hl => ?_⟩
  rcases hrest l hl with rfl | ⟨group, hgroup, hl⟩
  · decide
  simp only [List.mem_cons, List.not_mem_nil, or_false] at hgroup
  rcases hgroup with rfl | rfl
  · split at hl
    · rw [List.mem_singleton.mp hl]
      decide
    · exact absurd hl List.not_mem_nil
  · exact printable_importLines hl

theorem Renders.printable_paragraph (hu : u.Standard) (hm : m.Renders u g o) {p : List Bytes}
    (hp : p ∈ m.declarations ++ m.bottom) : ∀ l ∈ p, Printable l := by
  rcases List.mem_append.mp hp with hp | hp
  · rcases List.mem_append.mp hp with hp | hp
    · obtain ⟨b, hb, rfl⟩ := List.mem_map.mp hp
      exact hm.printable_block hu hb
    · obtain ⟨union, hunion, rfl⟩ := List.mem_map.mp hp
      exact hm.printable_union hu hunion
  · rw [bottom] at hp
    split at hp
    · exact absurd hp List.not_mem_nil
    · rw [List.mem_singleton.mp hp]
      intro l hl
      obtain ⟨a, ha, rfl⟩ := List.mem_map.mp hl
      exact hm.printable_alias hu ha

/-- A module starts with the comments, and no line below them has control characters. -/
theorem Renders.exists_lines_eq (hu : u.Standard) (hm : m.Renders u g o) :
    ∃ rest, m.lines = commentLines (ascii "# ") o.comments ++ rest ∧ ∀ l ∈ rest, Printable l := by
  obtain ⟨below, hheader, hbelow⟩ := m.exists_header_eq_comments
  rw [hm.comments] at hheader
  rw [lines_eq, paragraphs, top]
  split
  · next hempty =>
    rw [List.isEmpty_iff.mp hempty] at hheader
    obtain ⟨hcomments, -⟩ := List.append_eq_nil_iff.mp hheader.symm
    refine ⟨spaced (m.declarations ++ m.bottom), by rw [hcomments]; rfl, fun l hl => ?_⟩
    rcases mem_spaced hl with rfl | ⟨p, hp, hl⟩
    · decide
    · exact hm.printable_paragraph hu hp l hl
  · obtain ⟨rest, hlines, hrest⟩ := exists_spaced_eq m.header (m.declarations ++ m.bottom)
    refine ⟨below ++ rest, ?_, fun l hl => ?_⟩
    · rw [List.singleton_append, hlines, hheader, List.append_assoc]
    · rcases List.mem_append.mp hl with hl | hl
      · exact hbelow l hl
      rcases hrest l hl with rfl | ⟨p, hp, hl⟩
      · decide
      · exact hm.printable_paragraph hu hp l hl

end Module

/-! ## Comments -/

/-- After each carriage return a text ends, goes on in a new line, or goes on with a mark. -/
def Bytes.Resumes (mark c : Bytes) : Prop :=
  ∀ s t, c = s ++ carriageReturn :: t → t = [] ∨ t.head? = some lineFeed ∨ mark <+: t

/-- What stands behind the first mark when each line of a comment is marked. -/
def marked (mark c : Bytes) : Bytes := c.flatMap (fun b => if b = lineFeed then lineFeed :: mark else [b]) ++ [lineFeed]

section Marked

variable {mark : Bytes}

theorem resumes_nil : Resumes mark [] := by
  intro s t h
  exact absurd h (by simp)

theorem resumes_cons {b : UInt8} {c : Bytes} : Resumes mark (b :: c) ↔
    (b = carriageReturn → c = [] ∨ c.head? = some lineFeed ∨ mark <+: c) ∧ Resumes mark c := by
  constructor
  · intro h
    exact ⟨fun hb => h [] c (by rw [hb, List.nil_append]), fun s t hc => h (b :: s) t (by rw [hc, List.cons_append])⟩
  · intro ⟨hb, hc⟩ s t hst
    cases s with
    | nil =>
      obtain ⟨rfl, rfl⟩ := List.cons.inj hst
      exact hb rfl
    | cons a s =>
      obtain ⟨-, hst⟩ := List.cons.inj hst
      exact hc s t hst

theorem marked_nil : marked mark [] = [lineFeed] := rfl

theorem marked_feed (c : Bytes) : marked mark (lineFeed :: c) = lineFeed :: (mark ++ marked mark c) := by
  rw [marked, List.flatMap_cons, if_pos rfl, List.append_assoc]
  rfl

theorem marked_cons {b : UInt8} (hb : b ≠ lineFeed) (c : Bytes) : marked mark (b :: c) = b :: marked mark c := by
  rw [marked, List.flatMap_cons, if_neg hb, List.append_assoc]
  rfl

theorem split_ne_nil (sep : UInt8) (s : Bytes) : split sep s ≠ [] := by
  cases s with
  | nil => exact List.cons_ne_nil _ _
  | cons b s =>
    rw [split]
    split
    · exact List.cons_ne_nil _ _
    · split
      · exact List.cons_ne_nil _ _
      · exact List.cons_ne_nil _ _

theorem sourceOf_map_splitLines (c : Bytes) :
    sourceOf ((splitLines c).map (mark ++ ·)) = mark ++ marked mark c := by
  induction c with
  | nil => rw [splitLines, split, List.map_singleton, sourceOf_cons, List.append_nil, marked_nil]; rfl
  | cons b c ih =>
    rw [splitLines, split]
    split
    · next hb =>
      rw [List.map_cons, sourceOf_cons, ← splitLines, ih, List.append_nil, hb, marked_feed]
    · next hb =>
      rw [splitLines] at ih
      cases hsplit : split lineFeed c with
      | nil => exact absurd hsplit (split_ne_nil _ c)
      | cons l ls =>
        rw [hsplit, List.map_cons, sourceOf_cons, List.append_assoc] at ih
        rw [List.map_cons, sourceOf_cons, List.append_assoc, marked_cons hb, ← List.append_cancel_left ih,
          List.cons_append]

theorem exists_physicalLines_marked (mark c : Bytes) : ∃ l ls, physicalLines (marked mark c) = l :: ls :=
  physicalLines_feed_ne_nil _ []

theorem physicalLines_mark (hmark : ∀ b ∈ mark, endsLine b = false) {s l : Bytes} {ls : List Bytes}
    (hs : physicalLines s = l :: ls) : physicalLines (mark ++ s) = (mark ++ l) :: ls := by
  induction mark with
  | nil => exact hs
  | cons b mark ih =>
    exact physicalLines_cons (hmark b List.mem_cons_self) (ih fun c hc => hmark c (List.mem_cons_of_mem b hc))

/-- Whether the first line of a marked comment starts with a text is seen from the comment. -/
theorem isPrefix_of_physicalLines_marked {start : Bytes} (hstart : ∀ b ∈ start, endsLine b = false) {c l : Bytes}
    {ls : List Bytes} (hl : physicalLines (marked mark c) = l :: ls) : start <+: l ↔ start <+: c := by
  induction start generalizing c l ls with
  | nil => simp
  | cons a start ih =>
    have ha := hstart a List.mem_cons_self
    have hempty : ¬ a :: start <+: [] := by simp
    cases c with
    | nil =>
      obtain ⟨rfl, -⟩ := List.cons.inj hl
      rfl
    | cons b c =>
      by_cases hb : endsLine b = true
      · -- The first line ends at once, and a line that ends is no start of a mark.
        have hne : ¬ a :: start <+: b :: c := by
          rw [List.cons_prefix_cons]
          rintro ⟨rfl, -⟩
          exact absurd hb (by rw [ha]; decide)
        suffices hl : l = [] by simp [hl, hne]
        rcases endsLine_iff.mp hb with rfl | rfl
        · rw [marked_feed, physicalLines_feed] at hl
          exact (List.cons.inj hl).1.symm
        · rw [marked_cons (by decide)] at hl
          by_cases hfeed : (marked mark c).head? = some lineFeed
          · obtain ⟨u, hu⟩ := List.head?_eq_some_iff.mp hfeed
            rw [hu, physicalLines_return_feed, physicalLines_feed] at hl
            exact (List.cons.inj hl).1.symm
          · rw [physicalLines_return hfeed] at hl
            exact (List.cons.inj hl).1.symm
      · have hb := Bool.eq_false_of_not_eq_true hb
        obtain ⟨l', ls', hl'⟩ := exists_physicalLines_marked mark c
        rw [marked_cons (endsLine_eq_false_iff.mp hb).1, physicalLines_cons hb hl'] at hl
        obtain ⟨rfl, -⟩ := List.cons.inj hl
        rw [List.cons_prefix_cons, List.cons_prefix_cons,
          ih (fun b hb => hstart b (List.mem_cons_of_mem a hb)) hl']

/-- Behind the first line of a marked comment each line starts with the mark just if the comment resumes with it. -/
theorem forall_physicalLines_marked_iff (hmark : ∀ b ∈ mark, endsLine b = false) {c l : Bytes} {ls : List Bytes}
    (hl : physicalLines (marked mark c) = l :: ls) : (∀ l ∈ ls, mark <+: l) ↔ Resumes mark c := by
  induction c generalizing l ls with
  | nil =>
    obtain ⟨-, rfl⟩ := List.cons.inj hl
    simp [resumes_nil, physicalLines]
  | cons b c ih =>
    obtain ⟨l', ls', hl'⟩ := exists_physicalLines_marked mark c
    have hrest := ih hl'
    rw [resumes_cons]
    by_cases hfeed : b = lineFeed
    · subst hfeed
      rw [marked_feed, physicalLines_feed, physicalLines_mark hmark hl'] at hl
      obtain ⟨-, rfl⟩ := List.cons.inj hl
      simp only [List.forall_mem_cons, List.prefix_append, true_and, hrest]
      exact ⟨fun h => ⟨fun hb => absurd hb (by decide), h⟩, fun h => h.2⟩
    rw [marked_cons hfeed] at hl
    by_cases hreturn : b = carriageReturn
    · subst hreturn
      cases c with
      | nil =>
        obtain ⟨-, rfl⟩ := List.cons.inj hl
        simp [resumes_nil, physicalLines]
      | cons a c =>
        by_cases ha : a = lineFeed
        · subst ha
          rw [marked_feed, physicalLines_return_feed, ← marked_feed, hl'] at hl
          obtain ⟨-, rfl⟩ := List.cons.inj hl
          simp [hrest]
        · have hhead : (marked mark (a :: c)).head? ≠ some lineFeed := by
            rw [marked_cons ha]
            exact fun h => ha (Option.some.inj h)
          rw [physicalLines_return hhead, hl'] at hl
          obtain ⟨-, rfl⟩ := List.cons.inj hl
          rw [List.forall_mem_cons, hrest, isPrefix_of_physicalLines_marked hmark hl']
          simp [ha]
    · rw [physicalLines_cons (endsLine_eq_false_iff.mpr ⟨hfeed, hreturn⟩) hl'] at hl
      obtain ⟨-, rfl⟩ := List.cons.inj hl
      simp [hrest, hreturn]

/-- The lines that comments are read as all start with the mark just if each comment resumes with it. -/
theorem forall_physicalLines_commentLines_iff (hmark : ∀ b ∈ mark, endsLine b = false) (comments : List Bytes) :
    (∀ l ∈ physicalLines (sourceOf (commentLines mark comments)), mark <+: l) ↔ ∀ c ∈ comments, Resumes mark c := by
  induction comments with
  | nil => simp [commentLines, sourceOf, physicalLines]
  | cons c comments ih =>
    obtain ⟨l, ls, hl⟩ := exists_physicalLines_marked mark c
    have hlines : physicalLines (sourceOf ((splitLines c).map (mark ++ ·))) = (mark ++ l) :: ls := by
      rw [sourceOf_map_splitLines, physicalLines_mark hmark hl]
    rw [commentLines, List.flatMap_cons, ← commentLines, physicalLines_sourceOf_append, hlines, List.forall_mem_append,
      ih, List.forall_mem_cons, List.forall_mem_cons, forall_physicalLines_marked_iff hmark hl]
    simp only [List.prefix_append, true_and]

theorem mem_of_mem_split {sep : UInt8} {c piece : Bytes} (hpiece : piece ∈ split sep c) :
    ∀ b ∈ piece, b ∈ c ∧ b ≠ sep := by
  induction c generalizing piece with
  | nil =>
    rw [List.mem_singleton.mp hpiece]
    exact fun b hb => absurd hb List.not_mem_nil
  | cons a c ih =>
    intro b hb
    rw [split] at hpiece
    split at hpiece
    · rcases List.mem_cons.mp hpiece with rfl | hpiece
      · exact absurd hb List.not_mem_nil
      · obtain ⟨hmem, hne⟩ := ih hpiece b hb
        exact ⟨List.mem_cons_of_mem a hmem, hne⟩
    · next ha =>
      cases hsplit : split sep c with
      | nil => exact absurd hsplit (split_ne_nil _ c)
      | cons l ls =>
        rw [hsplit] at hpiece ih
        rcases List.mem_cons.mp hpiece with rfl | hpiece
        · rcases List.mem_cons.mp hb with rfl | hb
          · exact ⟨List.mem_cons_self, ha⟩
          · obtain ⟨hmem, hne⟩ := ih List.mem_cons_self b hb
            exact ⟨List.mem_cons_of_mem a hmem, hne⟩
        · obtain ⟨hmem, hne⟩ := ih (List.mem_cons_of_mem l hpiece) b hb
          exact ⟨List.mem_cons_of_mem a hmem, hne⟩

theorem exists_mem_split {sep b : UInt8} (hb : b ≠ sep) {c : Bytes} (hc : b ∈ c) : ∃ piece ∈ split sep c, b ∈ piece := by
  induction c with
  | nil => exact absurd hc List.not_mem_nil
  | cons a c ih =>
    rw [split]
    split
    · next ha =>
      have hc : b ∈ c := (List.mem_cons.mp hc).resolve_left fun h => hb (h.trans ha)
      obtain ⟨piece, hpiece, hmem⟩ := ih hc
      exact ⟨piece, List.mem_cons_of_mem _ hpiece, hmem⟩
    · cases hsplit : split sep c with
      | nil => exact absurd hsplit (split_ne_nil _ c)
      | cons l ls =>
        rw [hsplit] at ih
        rcases List.mem_cons.mp hc with rfl | hc
        · exact ⟨_, List.mem_cons_self, List.mem_cons_self⟩
        · obtain ⟨piece, hpiece, hmem⟩ := ih hc
          rcases List.mem_cons.mp hpiece with rfl | hpiece
          · exact ⟨_, List.mem_cons_self, List.mem_cons_of_mem a hmem⟩
          · exact ⟨piece, List.mem_cons_of_mem _ hpiece, hmem⟩

/-- The lines of comments are free of ends of lines just if no comment has a carriage return. -/
theorem forall_commentLines_endsLine_iff (hmark : ∀ b ∈ mark, endsLine b = false) (comments : List Bytes) :
    (∀ l ∈ commentLines mark comments, ∀ b ∈ l, endsLine b = false) ↔ ∀ c ∈ comments, carriageReturn ∉ c := by
  constructor
  · intro h c hc hreturn
    obtain ⟨piece, hpiece, hmem⟩ := exists_mem_split (by decide : carriageReturn ≠ lineFeed) hreturn
    have hline : mark ++ piece ∈ commentLines mark comments :=
      List.mem_flatMap.mpr ⟨c, hc, List.mem_map.mpr ⟨piece, hpiece, rfl⟩⟩
    exact absurd (h _ hline _ (List.mem_append_right mark hmem)) (by decide)
  · intro h l hl b hb
    obtain ⟨c, hc, hl⟩ := List.mem_flatMap.mp hl
    obtain ⟨piece, hpiece, rfl⟩ := List.mem_map.mp hl
    rcases List.mem_append.mp hb with hb | hb
    · exact hmark b hb
    · obtain ⟨hmem, hne⟩ := mem_of_mem_split hpiece b hb
      refine endsLine_eq_false_iff.mpr ⟨hne, ?_⟩
      rintro rfl
      exact h c hc hmem

end Marked

/-! ## Renderings -/

theorem endsLine_commentMark : ∀ b ∈ ascii "# ", endsLine b = false := by
  have hmark : Printable (ascii "# ") := by decide
  exact hmark.endsLine

namespace Graph

variable {u : CharacterData} {g : Graph}

/-- The lines of a rendering are the comments and lines that are read as they were written. -/
theorem WellFormed.exists_lines_eq (hu : u.Standard) (h : g.WellFormed) {o : Options} {lines : List Bytes}
    (hlines : (g.render u o).result = .ok lines) :
    ∃ rest, lines = commentLines (ascii "# ") o.comments ++ rest ∧ (∀ l ∈ rest, ∀ b ∈ l, endsLine b = false) ∧
      physicalLines (sourceOf lines) = physicalLines (sourceOf (commentLines (ascii "# ") o.comments)) ++ rest := by
  obtain ⟨m, hm, rfl⟩ := (h.render_ends u o).of_ok hlines
  obtain ⟨rest, hrest, hprintable⟩ := hm.exists_lines_eq hu
  have hends : ∀ l ∈ rest, ∀ b ∈ l, endsLine b = false := fun l hl => (hprintable l hl).endsLine
  refine ⟨rest, hrest, hends, ?_⟩
  rw [hrest, physicalLines_sourceOf_append, physicalLines_sourceOf hends]

/-- **When comments stay comments.** A rendering is the lines of its comments and lines that are read as they were
written. All of it is read as it was written just if no comment has a carriage return. All that comments are read as starts
with the mark just if each comment resumes with the mark behind a carriage return, unless it ends there or goes on in
a new line. -/
theorem Built.comments_stay_comments_iff (hu : u.Standard) (hg : g.Built) {o : Options} {lines : List Bytes}
    (hlines : (g.render u o).result = .ok lines) :
    ∃ rest, lines = commentLines (ascii "# ") o.comments ++ rest ∧
      physicalLines (sourceOf lines) = physicalLines (sourceOf (commentLines (ascii "# ") o.comments)) ++ rest ∧
      (physicalLines (sourceOf lines) = lines ↔ ∀ c ∈ o.comments, carriageReturn ∉ c) ∧
      ((∀ l ∈ physicalLines (sourceOf (commentLines (ascii "# ") o.comments)), ascii "# " <+: l) ↔
        ∀ c ∈ o.comments, Resumes (ascii "# ") c) := by
  obtain ⟨rest, hrest, hends, hphysical⟩ := hg.wellFormed.exists_lines_eq hu hlines
  have hreturn := forall_commentLines_endsLine_iff endsLine_commentMark o.comments
  refine ⟨rest, hrest, hphysical, ⟨fun hsame => ?_, fun hcomments => ?_⟩,
    forall_physicalLines_commentLines_iff endsLine_commentMark o.comments⟩
  · refine hreturn.mp fun l hl => endsLine_of_mem_physicalLines (s := sourceOf lines) ?_
    rw [hsame, hrest]
    exact List.mem_append_left rest hl
  · refine physicalLines_sourceOf fun l hl => ?_
    rw [hrest] at hl
    rcases List.mem_append.mp hl with hl | hl
    · exact hreturn.mpr hcomments l hl
    · exact hends l hl

/-- A single name for the integers. -/
def integerTopCalls : List Call := [.topLevel (ascii "n") Primitive.integer.id]

def integerTop : Graph := integerTopCalls.foldl after empty

theorem built_integerTop : integerTop.Built := ⟨integerTopCalls, rfl⟩

theorem render_integerTop_resumed :
    (integerTop.render .ascii ⟨false, false, [ascii "a\r\nb\r# c"]⟩).result =
      .ok [ascii "# a\r", ascii "# b\r# c", [], [], ascii "N = int"] := by
  cbv

theorem integerTop_comments_stay_comments :
    integerTop.Built ∧ ∃ lines, (integerTop.render .ascii ⟨false, false, [ascii "a\r\nb\r# c"]⟩).result = .ok lines ∧
      ∃ rest, lines = commentLines (ascii "# ") [ascii "a\r\nb\r# c"] ++ rest ∧
        physicalLines (sourceOf lines) =
          physicalLines (sourceOf (commentLines (ascii "# ") [ascii "a\r\nb\r# c"])) ++ rest ∧
        (physicalLines (sourceOf lines) = lines ↔ ∀ c ∈ [ascii "a\r\nb\r# c"], carriageReturn ∉ c) ∧
        ((∀ l ∈ physicalLines (sourceOf (commentLines (ascii "# ") [ascii "a\r\nb\r# c"])), ascii "# " <+: l) ↔
          ∀ c ∈ [ascii "a\r\nb\r# c"], Resumes (ascii "# ") c) :=
  ⟨built_integerTop, _, render_integerTop_resumed,
    built_integerTop.comments_stay_comments_iff CharacterData.standard_ascii render_integerTop_resumed⟩

theorem render_integerTop_return :
    (integerTop.render .ascii ⟨false, false, [ascii "a\rimport os"]⟩).result =
      .ok [ascii "# a\rimport os", [], [], ascii "N = int"] := by
  cbv

/-- Behind a carriage return the text of a comment is read as a statement. -/
theorem comment_becomes_statement :
    integerTop.Built ∧ ∃ lines, (integerTop.render .ascii ⟨false, false, [ascii "a\rimport os"]⟩).result = .ok lines ∧
      physicalLines (sourceOf lines) ≠ lines ∧
      ascii "import os" ∈ physicalLines (sourceOf (commentLines (ascii "# ") [ascii "a\rimport os"])) :=
  ⟨built_integerTop, _, render_integerTop_return, by decide, by decide⟩

end Graph

end Typewright
