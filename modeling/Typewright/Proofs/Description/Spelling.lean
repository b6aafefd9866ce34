import Typewright.Proofs.Description.Term
import Typewright.Description.Reader

/-!
# How a description is spelled

* `Spells f d` : the form `f` spells the description `d`. It is put together from `WritesType` for types,
  `SpellsProperty`, `SpellsDecl` and `SpellsTop`;
* `Form.Whole` : no place of a form was left empty. `whole_of_parse` : this holds of every form that is parsed;
* `spellsProperty_iff`, `spellsTop_iff`, `readDeclaration_eq_ok_iff` : reading the parts of a form finds what the form
  spells;
* `rightUnique_spells` : a form spells at most one description.
-/

namespace Typewright

open Edn (Form)

/-! ## Spelling -/

/-- Keywords with their values, one after the other. -/
inductive Pairs : List Form → Sections → Prop where
  | nil : Pairs [] []
  | cons {p : Position} {key : Bytes} {value : Form} {items : List Form} {s : Sections} :
    Pairs items s → Pairs (.atom p (.keyword key) :: value :: items) ((key, value) :: s)

/-- A list that starts with a word. -/
def Headed (word : Bytes) (f : Form) (items : List Form) : Prop :=
  ∃ pos p, f = .seq pos .round (.atom p (.symbol word) :: items)

/-- A list that starts with a word and goes on with keywords and their values. -/
def Entry (word : Bytes) (f : Form) (s : Sections) : Prop := ∃ items, Headed word f items ∧ Pairs items s

/-- A symbol or a string. -/
def SpellsName (f : Form) (name : Bytes) : Prop := f.name? = some name

/-- A vector of things. -/
def VectorOf (R : Form → α → Prop) (f : Form) (l : List α) : Prop :=
  ∃ items, f.vector? = some items ∧ List.Forall₂ R items l

namespace Sections

/-- A keyword is there. Of several values the first counts. -/
def Gives (s : Sections) (key : String) (R : Form → α → Prop) (a : α) : Prop :=
  ∃ f, s.lookup (Bytes.ascii key) = some f ∧ R f a

/-- A keyword is there, or else the value is a default. -/
def GivesOr (s : Sections) (key : String) (R : Form → α → Prop) (default a : α) : Prop :=
  match s.lookup (Bytes.ascii key) with
  | none => a = default
  | some f => R f a

end Sections

/-- A form writes a type. -/
inductive WritesType : Form → TypeTerm → Prop where
  | primitive {f : Form} {name : Bytes} {p : Primitive} :
    SpellsName f name → Primitive.ofName? name = some p → WritesType f (.primitive p)
  | declared {f : Form} {name : Bytes} :
    SpellsName f name → Primitive.ofName? name = none → WritesType f (.declared name)
  | array {f a : Form} {t : TypeTerm} : Headed (Bytes.ascii "array") f [a] → WritesType a t → WritesType f (.array t)
  | map {f a : Form} {t : TypeTerm} : Headed (Bytes.ascii "map") f [a] → WritesType a t → WritesType f (.map t)
  | nullable {f a : Form} {t : TypeTerm} : Headed (Bytes.ascii "nullable") f [a] → WritesType a t → WritesType f (.nullable t)
  | union {f : Form} {args : List Form} {ts : List TypeTerm} :
    Headed (Bytes.ascii "union") f args → List.Forall₂ WritesType args ts → WritesType f (.union ts)

def SpellsFlag (f : Form) (b : Bool) : Prop := ∃ pos, f = .atom pos (.bool b)

def SpellsText (f : Form) (text : Bytes) : Prop := ∃ pos, f = .atom pos (.string text)

def SpellsProperty (f : Form) (p : PropertyTerm) : Prop :=
  ∃ s, Entry (Bytes.ascii "prop") f s ∧ s.Gives "name" SpellsName p.name ∧ s.Gives "type" WritesType p.type ∧
    s.GivesOr "optional" SpellsFlag false p.optional

/-- The sections of a declaration spell what it declares. -/
inductive SpellsBody (s : Sections) : DeclarationKind → TypeBody → Prop where
  | record {ps : List PropertyTerm} :
    s.GivesOr "properties" (VectorOf SpellsProperty) [] ps → SpellsBody s .record (.record ps)
  | enum {cs : List Bytes} : s.GivesOr "cases" (VectorOf SpellsName) [] cs → SpellsBody s .enum (.enum cs)
  | union {ts : List TypeTerm} : s.Gives "members" (VectorOf WritesType) ts → SpellsBody s .union (.union ts)

def SpellsDecl (f : Form) (t : TypeDecl) : Prop :=
  ∃ kind s, Entry (DeclarationKind.word kind) f s ∧ s.Gives "name" SpellsName t.name ∧ SpellsBody s kind t.body

def SpellsTop (f : Form) (t : TopTerm) : Prop :=
  ∃ s, Entry (Bytes.ascii "top") f s ∧ s.Gives "name" SpellsName t.name ∧ s.Gives "type" WritesType t.type

/-- A form spells a description. -/
def Spells (f : Form) (d : Description) : Prop :=
  ∃ s, Entry (Bytes.ascii "graph") f s ∧ s.GivesOr "comments" (VectorOf SpellsText) [] d.comments ∧
    s.GivesOr "types" (VectorOf SpellsDecl) [] d.types ∧ s.GivesOr "top-levels" (VectorOf SpellsTop) [] d.tops

/-! ## Forms without empty places -/

/-- No place of a form was left empty. -/
inductive Edn.Form.Whole : Form → Prop where
  | atom (pos : Position) (a : Edn.Atom) : Whole (.atom pos a)
  | seq (pos : Position) (b : Edn.Bracket) {items : List Form} : (∀ f ∈ items, Whole f) → Whole (.seq pos b items)

theorem Edn.Form.Whole.items {pos : Position} {b : Edn.Bracket} {items : List Form} (h : Whole (.seq pos b items)) :
    ∀ f ∈ items, f.Whole := by
  cases h with
  | seq _ _ h => exact h

theorem Edn.Form.Whole.isPresent {f : Form} (h : f.Whole) : f.isPresent = true := by
  cases h <;> rfl

theorem Edn.Form.Whole.of_vector? {f : Form} (h : f.Whole) {items : List Form} (hf : f.vector? = some items) :
    ∀ f ∈ items, f.Whole := by
  unfold vector? at hf
  split at hf
  · obtain rfl := Option.some.inj hf
    exact h.items
  · cases hf

/-- Empty places do not come up while brackets are open, and so not in the form that is complete at last. -/
theorem Edn.whole_of_build {finish : Position} {stack : List OpenSeq} {ts rest : List Token} {f : Form}
    (hstack : ∀ o ∈ stack, ∀ f ∈ o.items, f.Whole) (h : build finish stack ts = .ok (f, rest)) : f.Whole := by
  have hclose : ∀ {o : OpenSeq} {g : Form}, (∀ f ∈ o.items, f.Whole) → o.close = .ok g → g.Whole := by
    intro o g ho hg
    unfold OpenSeq.close at hg
    split at hg
    · simp at hg
    · obtain rfl := Except.ok.inj hg
      exact .seq _ _ fun f hf => ho f (List.mem_reverse.mp hf)
  fun_induction build finish stack ts with
  | case1 => simp at h
  | case2 => simp at h
  | case3 => simp at h
  | case4 stack t rest b _ ih =>
    refine ih ?_ h
    simpa using hstack
  | case5 t rest a _ =>
    obtain ⟨rfl, -⟩ := Prod.mk.inj (Except.ok.inj h)
    exact .atom _ _
  | case6 t rest a _ o stack ih =>
    refine ih ?_ h
    simp only [List.mem_cons, forall_eq_or_imp] at hstack ⊢
    exact ⟨⟨.atom _ _, hstack.1⟩, hstack.2⟩
  | case7 => simp at h
  | case8 => simp at h
  | case9 t rest o form hform _ =>
    obtain ⟨rfl, -⟩ := Prod.mk.inj (Except.ok.inj h)
    exact hclose (hstack o (by simp)) hform
  | case10 t rest o form o' stack hform _ ih =>
    refine ih ?_ h
    simp only [List.mem_cons, forall_eq_or_imp] at hstack ⊢
    exact ⟨⟨hclose hstack.1 hform, hstack.2.1⟩, hstack.2.2⟩
  | case11 => simp at h

theorem Edn.whole_of_parse {source : Bytes} {f : Form} (h : parse source = .ok f) : f.Whole := by
  unfold parse at h
  dsimp only at h
  split at h
  · simp at h
  · rename_i form hbuild
    obtain rfl := Except.ok.inj h
    exact whole_of_build (by simp) hbuild
  · simp at h

/-! ## Reading what is spelled -/

theorem sectionsOf_eq_ok_iff {pos : Position} {items : List Form} {s : Sections} :
    sectionsOf pos items = .ok s ↔ Pairs items s := by
  induction items using sectionsOf.induct generalizing s with
  | case1 =>
    simp only [sectionsOf, Except.ok.injEq]
    constructor
    · rintro rfl
      exact .nil
    · rintro ⟨⟩
      rfl
  | case2 p key =>
    simp only [sectionsOf, reduceCtorEq, false_iff]
    rintro ⟨⟩
  | case3 p key value rest ih =>
    simp only [sectionsOf]
    constructor
    · intro h
      cases hrest : sectionsOf pos rest with
      | error e => simp [hrest, Except.map] at h
      | ok s' =>
        obtain rfl : (key, value) :: s' = s := by simpa [hrest, Except.map] using h
        exact .cons (ih.mp hrest)
    · rintro (_ | h)
      rw [ih.mpr h]
      rfl
  | case4 f rest hf =>
    constructor
    · intro h
      unfold sectionsOf at h
      split at h <;> simp_all
    · rintro (_ | h)
      exact absurd rfl (hf _ _)

theorem entry_iff {word : Bytes} {f : Form} {s : Sections} :
    Entry word f s ↔ f.head? = some word ∧ f.sections = .ok s := by
  constructor
  · rintro ⟨items, ⟨pos, p, rfl⟩, h⟩
    exact ⟨rfl, sectionsOf_eq_ok_iff.mpr h⟩
  · rintro ⟨hhead, hs⟩
    unfold Edn.Form.head? at hhead
    split at hhead
    · obtain rfl := Option.some.inj hhead
      exact ⟨_, ⟨_, _, rfl⟩, sectionsOf_eq_ok_iff.mp hs⟩
    · simp at hhead

/-- The values of a whole form are whole. -/
def Sections.Whole (s : Sections) : Prop := ∀ p ∈ s, p.2.Whole

theorem Pairs.whole {items : List Form} {s : Sections} (h : Pairs items s) (hw : ∀ f ∈ items, f.Whole) : s.Whole := by
  induction h with
  | nil => simp [Sections.Whole]
  | cons _ ih =>
    simp only [List.mem_cons, forall_eq_or_imp] at hw
    exact List.forall_mem_cons.mpr ⟨hw.2.1, ih hw.2.2⟩

theorem Entry.whole {word : Bytes} {f : Form} {s : Sections} (h : Entry word f s) (hw : f.Whole) : s.Whole := by
  obtain ⟨items, ⟨pos, p, rfl⟩, h⟩ := h
  exact h.whole fun f hf => hw.items f (by simp [hf])

namespace Sections

variable {s : Sections} {key : String}

theorem Whole.of_lookup {k : Bytes} {f : Form} (hs : s.Whole) (h : s.lookup k = some f) : f.Whole := by
  obtain ⟨l₁, l₂, rfl, -⟩ := List.lookup_eq_some_iff.mp h
  exact hs (k, f) (by simp)

theorem Whole.get?_eq (hs : s.Whole) (key : String) : s.get? key = s.lookup (Bytes.ascii key) := by
  unfold get?
  cases h : s.lookup (Bytes.ascii key) with
  | none => rfl
  | some f => simp [Option.filter, (hs.of_lookup h).isPresent]

end Sections

theorem gather_eq_iff {k : α → Except Problem β} {l : List α} {bs : List β} :
    gather k l = (bs, []) ↔ List.Forall₂ (fun a b => k a = .ok b) l bs := by
  induction l generalizing bs with
  | nil => simp [gather, eq_comm]
  | cons a l ih =>
    rw [List.forall₂_cons_left_iff]
    cases h : k a with
    | error e => simp [gather, h]
    | ok b =>
      simp only [gather, h, Prod.mk.injEq, Except.ok.injEq]
      constructor
      · rintro ⟨rfl, hps⟩
        exact ⟨b, _, rfl, ih.mp (Prod.ext rfl hps), rfl⟩
      · rintro ⟨b', bs', rfl, hl, rfl⟩
        rw [ih.mpr hl]
        exact ⟨rfl, rfl⟩

/-! ### Types -/

def TypeTerm.ofName (name : Bytes) : TypeTerm :=
  match Primitive.ofName? name with
  | some p => .primitive p
  | none => .declared name

mutual

/-- What a written type says, if it is a type. -/
def TypeForm.term? : TypeForm → Option TypeTerm
  | .absent => none
  | .named _ name => some (.ofName name)
  | .array t => t.term?.map .array
  | .map t => t.term?.map .map
  | .nullable t => t.term?.map .nullable
  | .union _ ts => (TypeForm.terms? ts).map .union
  | .invalid _ => none

def TypeForm.terms? : List TypeForm → Option (List TypeTerm)
  | [] => some []
  | t :: ts => t.term?.bind fun t => (TypeForm.terms? ts).map (t :: ·)

end

/-- No place in a written type was left empty. -/
inductive TypeForm.Whole : TypeForm → Prop where
  | named (pos : Position) (name : Bytes) : Whole (.named pos name)
  | array {t : TypeForm} : Whole t → Whole (.array t)
  | map {t : TypeForm} : Whole t → Whole (.map t)
  | nullable {t : TypeForm} : Whole t → Whole (.nullable t)
  | union (pos : Position) {ts : List TypeForm} : (∀ t ∈ ts, Whole t) → Whole (.union pos ts)
  | invalid (p : Problem) : Whole (.invalid p)

theorem TypeForm.whole_apply {pos : Position} {head : Bytes} {args : List TypeForm} (h : ∀ t ∈ args, t.Whole) :
    (apply pos head args).Whole := by
  have hunary : ∀ {g : TypeForm → TypeForm}, unary? head = some g → ∀ {t : TypeForm}, t.Whole → (g t).Whole := by
    intro g hg t ht
    unfold unary? at hg
    split_ifs at hg <;> obtain rfl := Option.some.inj hg
    · exact .array ht
    · exact .map ht
    · exact .nullable ht
  unfold apply
  split
  · rename_i g hg
    split
    · exact hunary hg (h _ (by simp))
    · exact .invalid _
  · split
    · exact .union _ h
    · exact .invalid _

theorem TypeForm.whole_of_whole :
    (∀ f : Form, f.Whole → (ofForm f).Whole) ∧ ∀ fs : List Form, (∀ f ∈ fs, f.Whole) → ∀ t ∈ ofForms fs, t.Whole := by
  refine ofForm.mutual_induct _ _ ?absent ?symbol ?string ?list ?other ?nil ?cons
  case absent =>
    rintro ⟨⟩
  case symbol => exact fun pos name _ => .named pos name
  case string => exact fun pos name _ => .named pos name
  case list =>
    intro pos p head args ih h
    exact whole_apply (ih fun f hf => h.items f (List.mem_cons_of_mem _ hf))
  case other =>
    intro f h₁ h₂ h₃ h₄ _
    rw [ofForm.eq_5 f h₁ h₂ h₃ h₄]
    exact .invalid _
  case nil => simp [ofForms]
  case cons =>
    intro f fs ih ihs h
    rw [ofForms, List.forall_mem_cons]
    exact ⟨ih (h f (by simp)), ihs fun f hf => h f (List.mem_cons_of_mem _ hf)⟩

theorem TypeForm.term?_apply {pos : Position} {head : Bytes} {args : List TypeForm} {t : TypeTerm} :
    (apply pos head args).term? = some t ↔
      (∃ a u, args = [a] ∧ a.term? = some u ∧
        (head = Bytes.ascii "array" ∧ t = .array u ∨ head = Bytes.ascii "map" ∧ t = .map u ∨
          head = Bytes.ascii "nullable" ∧ t = .nullable u)) ∨
      head = Bytes.ascii "union" ∧ ∃ ts, terms? args = some ts ∧ t = .union ts := by
  have h₁ : Bytes.ascii "map" ≠ Bytes.ascii "array" := by decide
  have h₂ : Bytes.ascii "nullable" ≠ Bytes.ascii "array" := by decide
  have h₃ : Bytes.ascii "nullable" ≠ Bytes.ascii "map" := by decide
  have h₄ : Bytes.ascii "union" ≠ Bytes.ascii "array" := by decide
  have h₅ : Bytes.ascii "union" ≠ Bytes.ascii "map" := by decide
  have h₆ : Bytes.ascii "union" ≠ Bytes.ascii "nullable" := by decide
  by_cases ha : head = Bytes.ascii "array"
  · subst ha
    rcases args with _ | ⟨a, _ | ⟨b, args⟩⟩ <;> simp [apply, unary?, term?, h₁.symm, h₂.symm, h₄.symm, eq_comm]
  by_cases hm : head = Bytes.ascii "map"
  · subst hm
    rcases args with _ | ⟨a, _ | ⟨b, args⟩⟩ <;> simp [apply, unary?, term?, h₁, h₃.symm, h₅.symm, eq_comm]
  by_cases hn : head = Bytes.ascii "nullable"
  · subst hn
    rcases args with _ | ⟨a, _ | ⟨b, args⟩⟩ <;> simp [apply, unary?, term?, h₂, h₃, h₆.symm, eq_comm]
  by_cases hu : head = Bytes.ascii "union"
  · subst hu
    simp [apply, unary?, term?, h₄, h₅, h₆, eq_comm]
  · simp [apply, unary?, term?, ha, hm, hn, hu]

theorem headed_list {pos p : Position} {word head : Bytes} {args items : List Form} :
    Headed word (.seq pos .round (.atom p (.symbol head) :: args)) items ↔ head = word ∧ args = items := by
  constructor
  · rintro ⟨_, _, h⟩
    injection h with _ _ h
    injection h with h h'
    injection h with _ h
    injection h with h
    exact ⟨h, h'⟩
  · rintro ⟨rfl, rfl⟩
    exact ⟨pos, p, rfl⟩

theorem writesType_list {pos p : Position} {head : Bytes} {args : List Form} {t : TypeTerm} :
    WritesType (.seq pos .round (.atom p (.symbol head) :: args)) t ↔
      (∃ a u, args = [a] ∧ WritesType a u ∧
        (head = Bytes.ascii "array" ∧ t = .array u ∨ head = Bytes.ascii "map" ∧ t = .map u ∨
          head = Bytes.ascii "nullable" ∧ t = .nullable u)) ∨
      head = Bytes.ascii "union" ∧ ∃ ts, List.Forall₂ WritesType args ts ∧ t = .union ts := by
  constructor
  · rintro (⟨hname, _⟩ | ⟨hname, _⟩ | ⟨hhead, h⟩ | ⟨hhead, h⟩ | ⟨hhead, h⟩ | ⟨hhead, h⟩)
    · simp [SpellsName, Edn.Form.name?] at hname
    · simp [SpellsName, Edn.Form.name?] at hname
    all_goals obtain ⟨rfl, rfl⟩ := headed_list.mp hhead
    · exact .inl ⟨_, _, rfl, h, .inl ⟨rfl, rfl⟩⟩
    · exact .inl ⟨_, _, rfl, h, .inr (.inl ⟨rfl, rfl⟩)⟩
    · exact .inl ⟨_, _, rfl, h, .inr (.inr ⟨rfl, rfl⟩)⟩
    · exact .inr ⟨rfl, _, h, rfl⟩
  · rintro (⟨a, u, rfl, h, ⟨rfl, rfl⟩ | ⟨rfl, rfl⟩ | ⟨rfl, rfl⟩⟩ | ⟨rfl, ts, h, rfl⟩)
    · exact .array ⟨pos, p, rfl⟩ h
    · exact .map ⟨pos, p, rfl⟩ h
    · exact .nullable ⟨pos, p, rfl⟩ h
    · exact .union ⟨pos, p, rfl⟩ h

theorem writesType_name {f : Form} {name : Bytes} (h : f.name? = some name) {t : TypeTerm} :
    WritesType f t ↔ .ofName name = t := by
  have hhead : ∀ word items, ¬ Headed word f items := by
    rintro word items ⟨pos, p, rfl⟩
    simp [Edn.Form.name?] at h
  unfold TypeTerm.ofName
  constructor
  · rintro (⟨hname, hp⟩ | ⟨hname, hp⟩ | ⟨hf, _⟩ | ⟨hf, _⟩ | ⟨hf, _⟩ | ⟨hf, _⟩)
    · obtain rfl := Option.some.inj (h.symm.trans hname)
      simp [hp]
    · obtain rfl := Option.some.inj (h.symm.trans hname)
      simp [hp]
    all_goals exact absurd hf (hhead _ _)
  · rintro rfl
    cases hp : Primitive.ofName? name with
    | none => exact .declared h hp
    | some p => exact .primitive h hp

theorem not_writesType {f : Form} (hname : f.name? = none) (hhead : ∀ word items, ¬ Headed word f items)
    {t : TypeTerm} : ¬ WritesType f t := by
  rintro (⟨h, _⟩ | ⟨h, _⟩ | ⟨h, _⟩ | ⟨h, _⟩ | ⟨h, _⟩ | ⟨h, _⟩)
  · simp [SpellsName, hname] at h
  · simp [SpellsName, hname] at h
  all_goals exact absurd h (hhead _ _)

/-- A form and what it is read as say the same type. -/
theorem TypeForm.term?_iff_writesType :
    (∀ (f : Form) (t : TypeTerm), (ofForm f).term? = some t ↔ WritesType f t) ∧
      ∀ (fs : List Form) (ts : List TypeTerm), terms? (ofForms fs) = some ts ↔ List.Forall₂ WritesType fs ts := by
  refine ofForm.mutual_induct _ _ ?absent ?symbol ?string ?list ?other ?nil ?cons
  case absent =>
    intro t
    have h : ∀ word items, ¬ Headed word .absent items := by
      rintro word items ⟨pos, p, h⟩
      simp at h
    simp [ofForm, term?, not_writesType rfl h]
  case symbol =>
    intro pos name t
    rw [writesType_name rfl, ofForm, term?, Option.some.injEq]
  case string =>
    intro pos name t
    rw [writesType_name rfl, ofForm, term?, Option.some.injEq]
  case list =>
    intro pos p head args ih t
    rw [ofForm, term?_apply, writesType_list]
    refine or_congr ?_ (and_congr_right fun _ => by simp only [ih])
    rcases args with _ | ⟨a, _ | ⟨b, args⟩⟩
    · simp [ofForms]
    · have ha : ∀ u, (ofForm a).term? = some u ↔ WritesType a u := fun u => by
        simpa [ofForms, terms?, Option.bind_eq_some_iff] using ih [u]
      simp [ofForms, ha]
    · simp [ofForms]
  case other =>
    intro f h₁ h₂ h₃ h₄ t
    have hname : f.name? = none := by
      unfold Edn.Form.name?
      split
      · exact absurd rfl (h₂ _ _)
      · exact absurd rfl (h₃ _ _)
      · rfl
    have hhead : ∀ word items, ¬ Headed word f items := by
      rintro word items ⟨pos, p, rfl⟩
      exact h₄ _ _ _ _ rfl
    rw [ofForm.eq_5 f h₁ h₂ h₃ h₄]
    simp [term?, not_writesType hname hhead]
  case nil =>
    intro ts
    simp [ofForms, terms?, eq_comm]
  case cons =>
    intro f fs ih ihs ts
    rw [ofForms, terms?, List.forall₂_cons_left_iff]
    simp only [Option.bind_eq_some_iff, Option.map_eq_some_iff, ih, ihs]
    constructor
    · rintro ⟨t, ht, us, hus, rfl⟩
      exact ⟨t, us, ht, hus, rfl⟩
    · rintro ⟨t, us, ht, hus, rfl⟩
      exact ⟨t, ht, us, hus, rfl⟩

/-! ### Declarations, properties and top-levels -/

section

variable {s : Sections}

theorem nameIn?_iff (hs : s.Whole) {name : Bytes} :
    (∃ pos, nameIn? s = some (name, pos)) ↔ s.Gives "name" SpellsName name := by
  unfold nameIn? Sections.Gives SpellsName
  rw [hs.get?_eq]
  cases s.lookup (Bytes.ascii "name") with
  | none => simp
  | some f => simp

theorem readOptional_eq_ok_iff (hs : s.Whole) {b : Bool} :
    readOptional s = .ok b ↔ s.GivesOr "optional" SpellsFlag false b := by
  unfold readOptional Sections.GivesOr SpellsFlag
  rw [hs.get?_eq]
  cases s.lookup (Bytes.ascii "optional") with
  | none => simp [eq_comm]
  | some f =>
    cases f with
    | atom pos a => cases a <;> simp
    | _ => simp

end

theorem readProperty_eq_ok_iff {pos : Position} {f : Form} {p : PropertyForm} :
    readProperty pos f = .ok p ↔ ∃ s t, Entry (Bytes.ascii "prop") f s ∧ nameIn? s = some (p.name, p.namePos) ∧
      s.get? "type" = some t ∧ p.type = .ofForm t ∧ p.optional = readOptional s := by
  constructor
  · intro h
    unfold readProperty at h
    split at h
    · rename_i hhead
      split at h
      · cases h
      · rename_i s hs
        split at h
        · rename_i name npos t hname ht
          obtain rfl := Except.ok.inj h
          exact ⟨s, t, entry_iff.mpr ⟨hhead, hs⟩, hname, ht, rfl, rfl⟩
        · cases h
    · cases h
  · rintro ⟨s, t, hentry, hname, ht, htype, hopt⟩
    obtain ⟨hhead, hs⟩ := entry_iff.mp hentry
    simp only [readProperty, if_pos hhead, hs, hname, ht, ← htype, ← hopt]

theorem readTopLevel_eq_ok_iff {pos : Position} {f : Form} {name : Bytes} {u : TypeForm} :
    readTopLevel pos f = .ok (name, u) ↔ ∃ s t, Entry (Bytes.ascii "top") f s ∧ (∃ npos, nameIn? s = some (name, npos)) ∧
      s.get? "type" = some t ∧ u = .ofForm t := by
  constructor
  · intro h
    unfold readTopLevel at h
    split at h
    · rename_i hhead
      split at h
      · cases h
      · rename_i s hs
        split at h
        · rename_i name' npos t hname ht
          obtain ⟨rfl, rfl⟩ := Prod.mk.inj (Except.ok.inj h)
          exact ⟨s, t, entry_iff.mpr ⟨hhead, hs⟩, ⟨npos, hname⟩, ht, rfl⟩
        · cases h
    · cases h
  · rintro ⟨s, t, hentry, ⟨npos, hname⟩, ht, rfl⟩
    obtain ⟨hhead, hs⟩ := entry_iff.mp hentry
    simp only [readTopLevel, if_pos hhead, hs, hname, ht]

/-- The type that stands in a section. -/
theorem gives_type_iff {s : Sections} (hs : s.Whole) {t : TypeTerm} :
    s.Gives "type" WritesType t ↔ ∃ f, s.get? "type" = some f ∧ (TypeForm.ofForm f).term? = some t := by
  unfold Sections.Gives
  simp only [hs.get?_eq, TypeForm.term?_iff_writesType.1]

theorem spellsProperty_iff {f : Form} (hf : f.Whole) (pos : Position) {q : PropertyTerm} :
    SpellsProperty f q ↔ ∃ p, readProperty pos f = .ok p ∧ p.name = q.name ∧ p.type.term? = some q.type ∧
      p.optional = .ok q.optional := by
  constructor
  · rintro ⟨s, hentry, hname, htype, hopt⟩
    have hs := hentry.whole hf
    obtain ⟨npos, hname⟩ := (nameIn?_iff hs).mpr hname
    obtain ⟨t, ht, hterm⟩ := (gives_type_iff hs).mp htype
    exact ⟨⟨q.name, npos, .ofForm t, readOptional s⟩, readProperty_eq_ok_iff.mpr ⟨s, t, hentry, hname, ht, rfl, rfl⟩, rfl,
      hterm, (readOptional_eq_ok_iff hs).mpr hopt⟩
  · rintro ⟨p, hp, hq, hterm, hopt⟩
    obtain ⟨s, t, hentry, hname, ht, htype, hoptional⟩ := readProperty_eq_ok_iff.mp hp
    have hs := hentry.whole hf
    exact ⟨s, hentry, hq ▸ (nameIn?_iff hs).mp ⟨_, hname⟩, (gives_type_iff hs).mpr ⟨t, ht, htype ▸ hterm⟩,
      (readOptional_eq_ok_iff hs).mp (hoptional ▸ hopt)⟩

theorem spellsTop_iff {f : Form} (hf : f.Whole) (pos : Position) {q : TopTerm} :
    SpellsTop f q ↔ ∃ t, readTopLevel pos f = .ok (q.name, t) ∧ t.term? = some q.type := by
  constructor
  · rintro ⟨s, hentry, hname, htype⟩
    have hs := hentry.whole hf
    obtain ⟨t, ht, hterm⟩ := (gives_type_iff hs).mp htype
    exact ⟨.ofForm t, readTopLevel_eq_ok_iff.mpr ⟨s, t, hentry, (nameIn?_iff hs).mpr hname, ht, rfl⟩, hterm⟩
  · rintro ⟨u, hu, hterm⟩
    obtain ⟨s, t, hentry, hname, ht, rfl⟩ := readTopLevel_eq_ok_iff.mp hu
    have hs := hentry.whole hf
    exact ⟨s, hentry, (nameIn?_iff hs).mp hname, (gives_type_iff hs).mpr ⟨t, ht, hterm⟩⟩

theorem Entry.whole_type {word : Bytes} {f : Form} {s : Sections} (h : Entry word f s) (hf : f.Whole) {t : Form}
    (ht : s.get? "type" = some t) : (TypeForm.ofForm t).Whole := by
  have hs := h.whole hf
  rw [hs.get?_eq] at ht
  exact TypeForm.whole_of_whole.1 _ (hs.of_lookup ht)

theorem whole_of_readProperty {f : Form} (hf : f.Whole) {pos : Position} {p : PropertyForm}
    (h : readProperty pos f = .ok p) : p.type.Whole := by
  obtain ⟨s, t, hentry, -, ht, htype, -⟩ := readProperty_eq_ok_iff.mp h
  rw [htype]
  exact hentry.whole_type hf ht

theorem whole_of_readTopLevel {f : Form} (hf : f.Whole) {pos : Position} {name : Bytes} {t : TypeForm}
    (h : readTopLevel pos f = .ok (name, t)) : t.Whole := by
  obtain ⟨s, u, hentry, -, hu, rfl⟩ := readTopLevel_eq_ok_iff.mp h
  exact hentry.whole_type hf hu

theorem DeclarationKind.ofWord?_eq_some_iff {word : Bytes} {kind : DeclarationKind} :
    ofWord? word = some kind ↔ word = kind.word := by
  constructor
  · intro h
    exact (by simpa using List.find?_some h : kind.word = word).symm
  · rintro rfl
    cases kind <;> decide

theorem readDeclaration_eq_ok_iff {before : List Declaration} {f : Form} (hf : f.Whole) {d : Declaration} :
    readDeclaration before f = .ok d ↔
      Entry d.kind.word f d.sections ∧ d.sections.Gives "name" SpellsName d.name ∧ d.pos = f.pos ∧
        Primitive.ofName? d.name = none ∧ ∀ d' ∈ before, d'.name ≠ d.name := by
  constructor
  · intro h
    unfold readDeclaration at h
    split at h
    · simp at h
    · rename_i kind hkind
      obtain ⟨word, hhead, hword⟩ := Option.bind_eq_some_iff.mp hkind
      obtain rfl := DeclarationKind.ofWord?_eq_some_iff.mp hword
      split at h
      · simp at h
      · rename_i s hsections
        have hentry := entry_iff.mpr ⟨hhead, hsections⟩
        split at h
        · simp at h
        · rename_i name npos hname
          split at h
          · simp at h
          · rename_i hprim
            split at h
            · simp at h
            · rename_i hbefore
              obtain rfl := Except.ok.inj h
              refine ⟨hentry, (nameIn?_iff (hentry.whole hf)).mp ⟨npos, hname⟩, rfl, by simpa using hprim, ?_⟩
              simpa using hbefore
  · rintro ⟨hentry, hname, hpos, hprim, hbefore⟩
    obtain ⟨hhead, hsections⟩ := entry_iff.mp hentry
    obtain ⟨npos, hname⟩ := (nameIn?_iff (hentry.whole hf)).mpr hname
    have hfind : before.find? (fun d' => d'.name == d.name) = none := by simpa using hbefore
    have hkind : f.head?.bind DeclarationKind.ofWord? = some d.kind := by
      rw [hhead]
      exact DeclarationKind.ofWord?_eq_some_iff.mpr rfl
    unfold readDeclaration
    simp only [hkind, hsections, hname, hprim, hfind, ← hpos]
    rfl

/-! ## A form spells one thing -/

section

open Relator

theorem Entry.unique {word : Bytes} {f : Form} {s s' : Sections} (h : Entry word f s) (h' : Entry word f s') : s = s' :=
  Except.ok.inj ((entry_iff.mp h).2.symm.trans (entry_iff.mp h').2)

theorem rightUnique_spellsName : RightUnique SpellsName := fun _ _ _ h h' => Option.some.inj (h.symm.trans h')

theorem rightUnique_spellsText : RightUnique SpellsText := by
  rintro _ _ _ ⟨_, rfl⟩ ⟨_, ⟨⟩⟩
  rfl

theorem rightUnique_spellsFlag : RightUnique SpellsFlag := by
  rintro _ _ _ ⟨_, rfl⟩ ⟨_, ⟨⟩⟩
  rfl

theorem rightUnique_writesType : RightUnique WritesType := fun f t u h h' =>
  Option.some.inj (((TypeForm.term?_iff_writesType.1 f t).mpr h).symm.trans ((TypeForm.term?_iff_writesType.1 f u).mpr h'))

theorem rightUnique_vectorOf {R : Form → α → Prop} (hR : RightUnique R) : RightUnique (VectorOf R) := by
  rintro f l l' ⟨items, hitems, h⟩ ⟨items', hitems', h'⟩
  obtain rfl := Option.some.inj (hitems.symm.trans hitems')
  exact hR.forall₂ h h'

variable {s : Sections} {key : String} {R : Form → α → Prop}

theorem Sections.Gives.unique (hR : RightUnique R) {a b : α} (h : s.Gives key R a) (h' : s.Gives key R b) : a = b := by
  obtain ⟨f, hf, h⟩ := h
  obtain ⟨f', hf', h'⟩ := h'
  obtain rfl := Option.some.inj (hf.symm.trans hf')
  exact hR h h'

theorem Sections.GivesOr.unique (hR : RightUnique R) {default a b : α} (h : s.GivesOr key R default a)
    (h' : s.GivesOr key R default b) : a = b := by
  unfold GivesOr at h h'
  cases hf : s.lookup (Bytes.ascii key) with
  | none =>
    rw [hf] at h h'
    exact h.trans h'.symm
  | some f =>
    rw [hf] at h h'
    exact hR h h'

theorem rightUnique_spellsProperty : RightUnique SpellsProperty := by
  rintro f ⟨name, type, optional⟩ ⟨name', type', optional'⟩ ⟨s, hs, hname, htype, hopt⟩ ⟨s', hs', hname', htype', hopt'⟩
  obtain rfl := hs.unique hs'
  obtain rfl : name = name' := hname.unique rightUnique_spellsName hname'
  obtain rfl : type = type' := htype.unique rightUnique_writesType htype'
  obtain rfl : optional = optional' := hopt.unique rightUnique_spellsFlag hopt'
  rfl

theorem SpellsBody.unique {kind : DeclarationKind} {body body' : TypeBody} (h : SpellsBody s kind body)
    (h' : SpellsBody s kind body') : body = body' := by
  cases h with
  | record h =>
    cases h' with
    | record h' => rw [h.unique (rightUnique_vectorOf rightUnique_spellsProperty) h']
  | enum h =>
    cases h' with
    | enum h' => rw [h.unique (rightUnique_vectorOf rightUnique_spellsName) h']
  | union h =>
    cases h' with
    | union h' => rw [h.unique (rightUnique_vectorOf rightUnique_writesType) h']

theorem rightUnique_spellsDecl : RightUnique SpellsDecl := by
  rintro f ⟨name, body⟩ ⟨name', body'⟩ ⟨kind, s, hs, hname, hbody⟩ ⟨kind', s', hs', hname', hbody'⟩
  obtain rfl : kind = kind' := by
    have hword : kind.word = kind'.word := Option.some.inj ((entry_iff.mp hs).1.symm.trans (entry_iff.mp hs').1)
    exact Option.some.inj ((DeclarationKind.ofWord?_eq_some_iff.mpr rfl).symm.trans
      (DeclarationKind.ofWord?_eq_some_iff.mpr hword))
  obtain rfl := hs.unique hs'
  obtain rfl : name = name' := hname.unique rightUnique_spellsName hname'
  obtain rfl : body = body' := hbody.unique hbody'
  rfl

theorem rightUnique_spellsTop : RightUnique SpellsTop := by
  rintro f ⟨name, type⟩ ⟨name', type'⟩ ⟨s, hs, hname, htype⟩ ⟨s', hs', hname', htype'⟩
  obtain rfl := hs.unique hs'
  obtain rfl : name = name' := hname.unique rightUnique_spellsName hname'
  obtain rfl : type = type' := htype.unique rightUnique_writesType htype'
  rfl

/-- A form spells at most one description. -/
theorem rightUnique_spells : RightUnique Spells := by
  rintro f ⟨comments, types, tops⟩ ⟨comments', types', tops'⟩ ⟨s, hs, hcomments, htypes, htops⟩
    ⟨s', hs', hcomments', htypes', htops'⟩
  obtain rfl := hs.unique hs'
  obtain rfl : comments = comments' := hcomments.unique (rightUnique_vectorOf rightUnique_spellsText) hcomments'
  obtain rfl : types = types' := htypes.unique (rightUnique_vectorOf rightUnique_spellsDecl) htypes'
  obtain rfl : tops = tops' := htops.unique (rightUnique_vectorOf rightUnique_spellsTop) htops'
  rfl

end

end Typewright
